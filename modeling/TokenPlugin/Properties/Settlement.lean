import TokenPlugin.Reference

/-! # A domain batch settles its own fees

`DomainFeeBatchHandler.commit_batch` works out from `_deducted_fees` which transactions of the batch
have paid. The marks are never taken back, while the numbers of rejected transactions are given out
again. So the batch settles its fees exactly when none of its transactions that paid nothing has the
type and the number of one that paid before it was rejected. -/

namespace TokenPlugin.Properties.Settlement

open Python Token.Types Database Node Steps Invariant Committing Runs Lib.Program Lib.Staged
open Fees.DomainFeeHandler Reference

variable {P : Platform} {n : Node P} {g : Trace P} {ok : Action → Prop} {r : BatchRec P}
  {rs : List (BatchRec P)}

/-- The oldest batch is committed: its FEES transactions, and no others, go over to the committed token
ledger, and each of its transactions that paid a fee is replied with the FEES transaction that refers to
it, the others as they are. -/
def Settles (n : Node P) (r : BatchRec P) : Prop :=
  ∃ n', Returns commitStep n (r.domain.map reply) n' ∧
    (P.ledger.contents n'.tokenLedger).committed =
      (P.ledger.contents n.tokenLedger).committed ++ r.feeTxns ∧
    (P.ledger.contents n.tokenLedger).uncommitted =
      r.feeTxns ++ (P.ledger.contents n'.tokenLedger).uncommitted ∧
    ∀ d ∈ r.domain, ∀ t ∈ d.2, t.ref = some (getRefForTxnFees P d.1.seqNo)

/-- **When a domain batch settles its own fees.** In every reachable state, committing a domain batch
settles its fees exactly when none of its transactions without a fee is marked as having paid one. -/
theorem settles_iff (h : Reach ok n g) (he : Enabled n .commit) (hp : g.pending = r :: rs)
    (hl : r.ledgerId = .domain) : Settles n r ↔ Unmarked n.feesTracker r := by
  have hinv := reach_inv_true h
  obtain ⟨hbefore, hok, -⟩ := queue_after hinv hp
  constructor
  · rintro ⟨n', hn', -⟩
    by_contra hu
    exact not_returns_commitStep hinv he hp hl hu hn'
  · intro hu
    obtain ⟨n', hn', hpoint, hcom, -⟩ := exists_commitStep_domain hinv he hp hl hu
    have hcommitted : (P.ledger.contents n'.tokenLedger).committed =
        (P.ledger.contents n.tokenLedger).committed ++ r.feeTxns := by
      have htxns : (committedPoint n').txns = (point r.before).txns ++ r.newTxns := by
        rw [hcom]
        exact hok.txns
      rwa [hbefore, hok.domain hl] at htxns
    refine ⟨n', hn', hcommitted, ?_, fun d hd t ht => (hok.fees d hd t ht).1⟩
    have hall : (P.ledger.contents n'.tokenLedger).all = (P.ledger.contents n.tokenLedger).all :=
      congrArg Point.txns hpoint
    rw [Log.all, Log.all, hcommitted, List.append_assoc] at hall
    exact (List.append_cancel_left hall).symm

/-! ### A batch that settles, and one that cannot be committed -/

/-- A NYM pays its fee. -/
def paid : List Action :=
  [.config [("nym", 10)], mint 100, .close .token, .commit, nymWithFees (section_ 1 90), .close .domain]

theorem paid_isSome : (run ref paid).isSome := by decide +kernel

/-- The node after that, with the record of the run. -/
def paidRun : Node ref × Trace ref := (run ref paid).get paid_isSome

theorem paid_ne_nil : paidRun.2.pending ≠ [] := by decide +kernel

theorem reach_paidRun : Reach (fun _ => True) paidRun.1 paidRun.2 :=
  reach_run (Option.some_get paid_isSome).symm fun _ _ => trivial

theorem settles_iff_paid : Settles paidRun.1 (paidRun.2.pending.head paid_ne_nil) ↔
    Unmarked paidRun.1.feesTracker (paidRun.2.pending.head paid_ne_nil) :=
  settles_iff reach_paidRun (by decide +kernel) (List.cons_head_tail paid_ne_nil).symm (by decide +kernel)

/-- The NYM is rejected, the fee is dropped, and another NYM takes its number. -/
def stale : List Action :=
  paid ++ [.reject, .config [], .apply (request (.domain nym) none) .registered [asks "nym"] 0,
    .close .domain]

theorem stale_isSome : (run ref stale).isSome := by decide +kernel

/-- The node after that, with the record of the run. -/
def staleRun : Node ref × Trace ref := (run ref stale).get stale_isSome

theorem stale_ne_nil : staleRun.2.pending ≠ [] := by decide +kernel

/-- The batch of the second NYM cannot be committed. -/
theorem not_settles_stale : Reach (fun _ => True) staleRun.1 staleRun.2 ∧
    Enabled staleRun.1 .commit ∧ (staleRun.2.pending.head stale_ne_nil).ledgerId = .domain ∧
    ¬Settles staleRun.1 (staleRun.2.pending.head stale_ne_nil) := by
  refine ⟨reach_run (Option.some_get stale_isSome).symm fun _ _ => trivial, by decide +kernel,
    by decide +kernel, ?_⟩
  rintro ⟨n', hn', -⟩
  have herr : (commitStep staleRun.1).1 = .error ⟨.tokenValueError,
      "state_root expected to be equal to utxo_cache.first_batch_idr hash"⟩ := by decide +kernel
  rw [hn'] at herr
  cases herr

end TokenPlugin.Properties.Settlement
