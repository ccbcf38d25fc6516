import TokenPlugin.Lifecycle

/-! # Catching up with another node

A node with nothing uncommitted, whatever it has been through, catches up with any other node that has
committed more. -/

namespace TokenPlugin.Properties.Rejoining

open Token.Types Token.Views Database Node Steps Invariant Replay Lifecycle Properties.CatchUp
open Lib.Program Lib.Staged Reference

variable {P : Platform} {S : Storage P} {n d : Node P} {g gd : Trace P} {txns : List TokenTxn}
  {dtxns : List DomainTxn}

/-- A node has what the other has committed, and nothing else: the ledgers, the state and the cache in
either mode, and a tracker that knows their roots and the size of the ledger. -/
structure Rejoined (n' d : Node P) : Prop where
  ledger : P.ledger.contents n'.tokenLedger = ⟨ledgerTxns d, []⟩
  domainLedger : P.domainLedger.contents n'.domainLedger = ⟨domainLedgerTxns d, []⟩
  committed : Token.Views.committed n'.stores = Token.Views.committed d.stores
  uncommitted : uncommitted n'.stores = Token.Views.committed d.stores
  tracker : P.tracker.contents n'.tokenTracker = ⟨⟨P.state.headHash n'.stores.tokenState,
    P.ledger.uncommittedRootHash n'.tokenLedger, (ledgerTxns d).length⟩, []⟩

/-- **Catching up never raises and makes the nodes equal.** Both nodes may have ordered, rejected and
committed batches, stopped and caught up themselves, in any order. -/
theorem rejoins (h : Lived S Current n g) (hd : Lived S Current d gd) (hi : Idle n)
    (ht : ledgerTxns d = ledgerTxns n ++ txns)
    (hdt : domainLedgerTxns d = domainLedgerTxns n ++ dtxns) :
    ∃ n', Returns (S.catchUp txns dtxns) n () n' ∧ Rejoined n' d := by
  obtain ⟨n', hn', hup, hinv⟩ := exists_catchUp (S := S) (lived_inv_notOld h) (lived_inv_notOld hd)
    (fun _ _ => id) hi ht hdt
  refine ⟨n', hn', hup.ledger, hup.domainLedger, hup.view, ?_, ?_⟩
  · show (point n').view = (committedPoint d).view
    rw [← hup.point, hup.view]
  · rw [hinv.tracker, hup.point, P.ledger.uncommittedRootHash_eq, hup.ledger]
    have htxns : tokenTxns n' = ledgerTxns d := by rw [tokenTxns, hup.ledger, Log.all, List.append_nil]
    simp [idleTrace, Point.mark, point, htxns, Log.all]

theorem rejoins_sample : ∃ n', Returns (storage.catchUp (ledgerTxns sampleNode)
    (domainLedgerTxns sampleNode)) (.new : Node ref) () n' ∧ Rejoined n' sampleNode :=
  rejoins .new lived_sample ⟨rfl, rfl⟩ (List.nil_append _).symm (List.nil_append _).symm

end TokenPlugin.Properties.Rejoining
