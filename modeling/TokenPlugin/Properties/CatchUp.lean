import TokenPlugin.Reference
import TokenPlugin.Replay

/-! # Catching up equals live ordering

Live, a batch of transactions is written through the uncommitted overlay of the cache and committed as a
whole, and fees are applied by `DomainFeeHandler`. A node that catches up writes each transaction straight
to its stores, and replays fees by `FeeTxnCatchupHandler`. Both arrive at the same stores. -/

namespace TokenPlugin.Properties.CatchUp

open Python Token.Types Token.Handlers Token.Views Token.History Database Node Steps Effects Invariant
open Applying Runs Replay Lib.Program Reference

variable {P : Platform} {n : Node P} {g : Trace P} {txns rest : List TokenTxn} {s : Stores P}

/-- Transfers go through the handlers of the present version. -/
def Current : Action → Prop
  | .apply _ version _ _ => version ≠ .v100
  | _ => True

instance (a : Action) : Decidable (Current a) :=
  match a with
  | .apply _ version _ _ => inferInstanceAs (Decidable (version ≠ .v100))
  | .config _ | .close _ | .reject | .commit => inferInstanceAs (Decidable True)

theorem admitted_notOld : Admitted P Current NotOld := by
  intro r version auths time n n' hok _ _ txn _
  show (labelOf n.configFees r version auths).updater ≠ .xfer100
  have hv : version ≠ .v100 := hok
  unfold labelOf
  cases r.operation <;> cases version <;> simp_all

/-- The stores are those after the transactions: they have been replayed on empty stores, or a node has
ordered and committed them. -/
def StoresAfter (txns : List TokenTxn) (s : Stores P) : Prop :=
  (∃ s' : Stores P, Returns (replay P txns true) .new () s' ∧ direct s = direct s') ∨
    ∃ (n : Node P) (g : Trace P), Reach Current n g ∧ ledgerTxns n = txns ∧ direct s = committed n.stores

/-- What a node has committed is what its committed transactions lead to from nothing. -/
theorem returns_replay_committed (h : Reach Current n g) (c : Bool) :
    Returns (replay P (ledgerTxns n) c) .empty () (committed n.stores) :=
  returns_replay_builtAt (reach_inv admitted_notOld h).base

/-- So are the stores after the transactions. -/
theorem StoresAfter.returns (h : StoresAfter txns s) (c : Bool) :
    Returns (replay P txns c) .empty () (direct s) := by
  rcases h with ⟨s', hs', hd⟩ | ⟨n, g, hr, rfl, hd⟩
  · rw [hd, ← direct_new (P := P)]
    exact returns_replay_direct c hs'
  · rw [hd]
    exact returns_replay_committed hr c

/-- **Catching up equals live ordering.** Let a node have ordered and committed the transactions of its
token ledger, in whatever batches and with whatever rejections in between. Replaying them from the stores
after any first part of them gives the state and the cache that the node has committed. -/
theorem catchUp (h : Reach Current n g) (hn : ledgerTxns n = txns ++ rest) (hs : StoresAfter txns s) :
    ∃ s', Returns (replay P rest true) s () s' ∧ direct s' = committed n.stores := by
  have hall := returns_replay_committed h true
  rw [hn] at hall
  obtain ⟨v, hv, hrest⟩ := replay_append.mp hall
  obtain rfl := (hv.unique (hs.returns true)).2
  exact exists_replay_direct hrest

/-! ### From the middle of a ledger -/

/-- The stores after the first transaction of the sample run. -/
def firstReplayed : Stores ref := (replay ref ((ledgerTxns sampleNode).take 1) true .new).2

theorem returns_firstReplayed :
    Returns (replay ref ((ledgerTxns sampleNode).take 1) true) (.new : Stores ref) () firstReplayed :=
  returns_of_fst (by decide +kernel)

theorem catchUp_sample : ∃ s', Returns (replay ref ((ledgerTxns sampleNode).drop 1) true) firstReplayed
    () s' ∧ direct s' = committed sampleNode.stores :=
  catchUp (reach_sample Current (by decide +kernel)) (List.take_append_drop 1 _).symm
    (Or.inl ⟨firstReplayed, returns_firstReplayed, rfl⟩)

end TokenPlugin.Properties.CatchUp
