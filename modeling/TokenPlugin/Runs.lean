import TokenPlugin.Committing

/-! # Every run keeps the invariant

`reach_inv` is the induction over runs, done once: what holds of each transaction when it is applied
(`Q`) holds of all transactions of the ledger, and the node and the record of its run satisfy `Inv`. -/

namespace TokenPlugin.Runs

open Python Token.Types Token.Views Token.History Database Node Steps Effects Invariant Applying
open Closing Rejecting Committing Messages.Fields Lib.Program Lib.Staged

variable {P : Platform} {Q : Entry → View → Prop} {n n' : Node P} {g : Trace P}
  {ok : Action → Prop}

/-- A node with nothing uncommitted, whose stores are built by its ledger. -/
theorem inv_idle {labels : List Label} (hpoint : committedPoint n = point n)
    (hlen : labels.length = (tokenTxns n).length) (hbuilt : BuiltAt Q labels (point n))
    (htrack : P.tracker.contents n.tokenTracker = ⟨(point n).mark, []⟩)
    (hcache : (P.cache.contents n.stores.utxoCache).batches = [])
    (hops : (P.cache.contents n.stores.utxoCache).ops = []) (hbatches : n.batches = [])
    (hdomain : (P.domainLedger.contents n.domainLedger).uncommitted = [])
    (hseq : ∀ i txn, (domainTxns n)[i]? = some txn → txn.seqNo = i + 1)
    (hfees : n.feesTracker.feesInCurrentBatch = 0) (hopen : n.openBatch = none) :
    Inv Q n ⟨[], n, [], labels⟩ where
  labels := hlen
  queue := by rw [hpoint]; exact .nil
  base := by rw [hpoint]; exact hbuilt
  pending := by simp
  built := hbuilt
  tracker := by rw [hpoint]; exact htrack
  cache := hcache
  batches := hbatches
  domain := ⟨hdomain, hseq, by simp, hfees, by simp⟩
  start := fun _ => ⟨rfl, rfl, hops⟩
  opened := fun b hb => by rw [hopen] at hb; cases hb

theorem inv_new : Inv Q (.new : Node P) .new := by
  have hledger : P.ledger.contents (.new : Node P).tokenLedger = ⟨[], []⟩ := P.ledger.contents_new
  have hdomain : P.domainLedger.contents (.new : Node P).domainLedger = ⟨[], []⟩ :=
    P.domainLedger.contents_new
  have hcache : P.cache.contents (.new : Node P).stores.utxoCache = ⟨fun _ => none, [], []⟩ :=
    P.cache.contents_new
  have htxns : tokenTxns (.new : Node P) = [] := by rw [tokenTxns, hledger]; rfl
  have hpoint : committedPoint (.new : Node P) = point .new := by
    refine Point.ext P.state.committed_new ?_ ?_
    · show (P.ledger.contents _).committed = tokenTxns _
      rw [hledger, htxns]
    · show (P.cache.contents _).store = (P.cache.contents _).read
      rw [hcache]
      rfl
  have hview : (point (.new : Node P)).view = .empty := by
    refine View.ext (funext fun k => P.state.lookup_new k) ?_
    show (P.cache.contents _).read = _
    rw [hcache]
    rfl
  refine inv_idle hpoint (by rw [htxns]; rfl) ⟨?_, ?_⟩ ?_ (congrArg Overlay.batches hcache)
    (congrArg Overlay.ops hcache) rfl (congrArg Log.uncommitted hdomain) ?_ rfl rfl
  · show (tokenTxns _).length ≤ _
    rw [htxns]
    exact le_rfl
  · rw [show (point (.new : Node P)).txns = [] from htxns, hview]
    exact .nil
  · show P.tracker.contents (P.tracker.new _ _ _) = _
    rw [P.tracker.contents_new, P.state.committed_new, P.ledger.uncommittedRootHash_eq,
      P.ledger.uncommittedSize_eq]
    rfl
  · intro i txn hi
    rw [domainTxns, hdomain] at hi
    cases hi

/-- Whatever a request that the run allows appends is one that `Q` holds of. -/
def Admitted (P : Platform) (ok : Action → Prop) (Q : Entry → View → Prop) : Prop :=
  ∀ {r version auths time} {n n' : Node P}, ok (.apply r version auths time) → StaticOk P r →
    ApplyEffect r version auths time n n' → Admits Q r version auths n n'

/-- **One step keeps the invariant.** -/
theorem inv_step (hQ : Admitted P ok Q) (h : Inv Q n g) {a : Action} (ha : ok a) (he : Enabled n a)
    (hs : Returns (step a) n () n') : Inv Q n' (g.next n n' a) := by
  cases a with
  | apply r version auths time =>
    have heff := applyEffect he.1 hs
    exact inv_apply h he.1 he.2 heff (hQ ha he.1 heff)
  | close l => exact inv_close h he hs
  | reject => exact inv_reject h he hs
  | commit =>
    obtain ⟨replies, m, hc, hm⟩ := returns_bind.mp hs
    obtain ⟨-, rfl⟩ := returns_pure.mp hm
    exact inv_commit h he hc
  | config fees =>
    obtain rfl := returns_modify.mp hs
    exact inv_config h he fees

/-- **Every run keeps the invariant.** -/
theorem reach_inv (hQ : Admitted P ok Q) (h : Reach ok n g) : Inv Q n g := by
  induction h with
  | new => exact inv_new
  | step _ ha he hs ih => exact inv_step hQ ih ha he hs

/-- The invariant with nothing asked of the transactions. -/
theorem reach_inv_true (h : Reach ok n g) : Inv (fun _ _ => True) n g :=
  reach_inv (fun _ _ _ _ _ => trivial) h

end TokenPlugin.Runs
