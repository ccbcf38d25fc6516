import TokenPlugin.Applying

/-! # Closing keeps the invariant

A closed batch leaves a batch in the cache when it is a token batch or has taken fees; the writes of
that batch lead from the cache before it to the cache after it. -/

namespace TokenPlugin.Closing

open Python Token.Types Token.Views Token.History Database Node Steps Effects Invariant Applying
open Fees.BatchHandlers Fees.DomainFeeHandler Lib.Program Lib.Staged

variable {P : Platform} {Q : Entry → View → Prop} {n n' : Node P} {g : Trace P} {l : LedgerId}

/-- The stores once the writes of the open batch have become a batch of the cache. -/
def withCacheBatch (n : Node P) : Stores P :=
  { n.stores with utxoCache :=
      P.cache.createBatchFromCurrent n.stores.utxoCache (P.state.headHash n.stores.tokenState) }

/-- What plenum remembers of the batch that is closed. -/
def closedBatch (n : Node P) : LedgerId → PlenumBatch P
  | .token => .token (current n .token).prevStateRoot ⟨P.state.headHash n.stores.tokenState,
      P.ledger.uncommittedRootHash n.tokenLedger, (current n .token).count⟩
  | .domain => .domain (current n .domain).count

/-- The node after its open batch has been closed. -/
def closed (n : Node P) (l : LedgerId) : Node P :=
  { n with
    stores := if l = .token ∨ 0 < n.feesTracker.feesInCurrentBatch then withCacheBatch n else n.stores
    feesTracker := if l = .token then n.feesTracker
      else { n.feesTracker with feesInCurrentBatch := 0 }
    tokenTracker := P.tracker.applyBatch n.tokenTracker (P.state.headHash n.stores.tokenState)
      (P.ledger.uncommittedRootHash n.tokenLedger) (P.ledger.uncommittedSize n.tokenLedger)
    batches := n.batches ++ [closedBatch n l]
    openBatch := none }

theorem returns_closeStep : Returns (closeStep l) n () n' ↔ n' = closed n l := by
  have hret : Returns (closeStep l) n () (closed n l) := by
    cases l with
    | token => rfl
    | domain =>
      have hpost : Returns (domainPostBatchApplied : Py (Node P) Unit) n ()
          { closed n .domain with batches := n.batches, openBatch := n.openBatch } := by
        unfold domainPostBatchApplied applyTrackerBatch createBatchFromCurrent onFeesTracker closed
        simp only [returns_bind, returns_get, returns_modify, returns_ite, returns_pure]
        refine ⟨(), _, rfl, _, _, ⟨rfl, rfl⟩, ?_⟩
        by_cases hf : 0 < n.feesTracker.feesInCurrentBatch
        · exact Or.inl ⟨hf, (), _, rfl, by simp [hf, withCacheBatch]⟩
        · obtain ⟨stores, tl, dl, tt, ⟨k, ded⟩, cf, bs, ob⟩ := n
          obtain rfl : k = 0 := Nat.eq_zero_of_not_pos hf
          exact Or.inr ⟨hf, trivial, by simp⟩
      exact returns_bind.mpr ⟨n, n, rfl, returns_bind.mpr ⟨(), _, hpost, rfl⟩⟩
  constructor
  · exact fun h => (h.unique hret).2
  · rintro rfl
    exact hret

/-! ### What is left as it was -/

theorem contents_closed : P.cache.contents (closed n l).stores.utxoCache =
    if l = .token ∨ 0 < n.feesTracker.feesInCurrentBatch
    then (P.cache.contents n.stores.utxoCache).close (P.state.headHash n.stores.tokenState)
    else P.cache.contents n.stores.utxoCache := by
  by_cases h : l = .token ∨ 0 < n.feesTracker.feesInCurrentBatch
  · simp [closed, h, withCacheBatch]
  · simp [closed, h]

theorem tokenState_closed : (closed n l).stores.tokenState = n.stores.tokenState := by
  by_cases h : l = .token ∨ 0 < n.feesTracker.feesInCurrentBatch
  · simp [closed, h, withCacheBatch]
  · simp [closed, h]

@[simp] theorem point_closed : point (closed n l) = point n := by
  refine Point.ext (by rw [point, tokenState_closed]; rfl) rfl ?_
  show (P.cache.contents (closed n l).stores.utxoCache).read = _
  rw [contents_closed]
  by_cases h : l = .token ∨ 0 < n.feesTracker.feesInCurrentBatch
  · rw [if_pos h, Overlay.read_close]; rfl
  · rw [if_neg h]; rfl

@[simp] theorem committedPoint_closed : committedPoint (closed n l) = committedPoint n := by
  refine Point.ext (by rw [committedPoint, tokenState_closed]; rfl) rfl ?_
  show (P.cache.contents (closed n l).stores.utxoCache).store = _
  rw [contents_closed]
  by_cases h : l = .token ∨ 0 < n.feesTracker.feesInCurrentBatch
  · rw [if_pos h]; rfl
  · rw [if_neg h]; rfl

theorem hasDeductedFees_closed {typ : Str} {k : ℕ} :
    hasDeductedFees (closed n l).feesTracker typ k = hasDeductedFees n.feesTracker typ k := by
  cases l <;> rfl

/-! ### The record of the batch -/

/-- The uncommitted cache is that of the start of the open batch, after its writes. -/
theorem cache_eq (h : Inv Q n g) : (point n).cache =
    writeAll (point g.start).cache (P.cache.contents n.stores.utxoCache).ops := by
  rw [← h.queue.cache, ← h.cache]
  rfl

/-- The record of the batch that is closed. -/
def closedRec (n : Node P) (g : Trace P) (l : LedgerId) : BatchRec P := ⟨l, g.start, closed n l, g.domain⟩

theorem touched_closedRec (h : Inv Q n g) :
    (closedRec n g l).Touched ↔ l = .token ∨ 0 < n.feesTracker.feesInCurrentBatch := by
  rw [h.domain.counter, List.length_pos_iff]
  rfl

theorem newTxns_closedRec {newTxns : List TokenTxn} (ho : OpenOk n g l (current n l) newTxns) :
    (closedRec n g l).newTxns = newTxns := by
  show (tokenTxns n).drop _ = _
  rw [ho.txns]
  exact List.drop_left ..

theorem cacheBatch_closedRec (h : Inv Q n g) : (closedRec n g l).cacheBatch =
    if (closedRec n g l).Touched then
      some ((point n).head, (P.cache.contents n.stores.utxoCache).ops) else none := by
  unfold BatchRec.cacheBatch
  by_cases ht : (closedRec n g l).Touched
  · rw [if_pos ht, if_pos ht]
    show (P.cache.contents (closed n l).stores.utxoCache).batches.getLast? = _
    rw [contents_closed, if_pos ((touched_closedRec h).mp ht)]
    simp [Overlay.close, point]
  · rw [if_neg ht, if_neg ht]

theorem recOk_closedRec (h : Inv Q n g) {newTxns : List TokenTxn}
    (ho : OpenOk n g l (current n l) newTxns) : RecOk (closedRec n g l) where
  txns := by rw [newTxns_closedRec ho]; exact ho.txns
  token hl := (ho.token hl).1
  domain hl := by rw [newTxns_closedRec ho]; exact (ho.domain hl).2
  touched ht := by
    refine ⟨(P.cache.contents n.stores.utxoCache).ops, ?_, ?_⟩
    · rw [cacheBatch_closedRec h, if_pos ht]
      exact congrArg (fun x : Point P => some (x.head, _)) point_closed.symm
    · show (point (closed n l)).cache = _
      rw [point_closed]
      exact cache_eq h
  untouched ht := by
    have hl : l = .domain := by
      cases l with
      | token => exact absurd (Or.inl rfl) ht
      | domain => rfl
    have hnil : newTxns = [] := by
      rw [(ho.domain hl).2]
      by_contra hne
      exact ht (Or.inr hne)
    show point (closed n l) = point g.start
    rw [point_closed, (ho.still hl hnil).1]
  fees := h.domain.fees

theorem plenumBatch_closedRec {newTxns : List TokenTxn} (ho : OpenOk n g l (current n l) newTxns) :
    (closedRec n g l).plenumBatch = closedBatch n l := by
  have hnew := newTxns_closedRec ho
  cases l with
  | token =>
    have hprev := ho.prev
    have hcount := (ho.token rfl).2
    show PlenumBatch.token (point g.start).head ⟨(point (closed n .token)).head,
      P.ledger.treeRoot (tokenTxns n), (closedRec n g .token).newTxns.length⟩ = _
    rw [point_closed, hnew, ← hprev, ← hcount]
    simp [closedBatch, point, tokenTxns]
  | domain =>
    show PlenumBatch.domain g.domain.length = _
    rw [← (ho.domain rfl).1]
    rfl

/-- **Closing a batch keeps the invariant.** -/
theorem inv_close (h : Inv Q n g) (ho : OpenFor n (some l)) (hs : Returns (closeStep l) n () n') :
    Inv Q n' (g.next n n' (.close l)) := by
  obtain rfl := returns_closeStep.mp hs
  obtain ⟨newTxns, hopen⟩ := openOk_current h ho
  have hok := recOk_closedRec h hopen
  show Inv Q (closed n l) ⟨g.pending ++ [closedRec n g l], closed n l, [], g.labels⟩
  exact {
    labels := h.labels
    queue := by
      rw [committedPoint_closed]
      exact Queue.concat_iff.mpr ⟨h.queue, hok, rfl⟩
    base := by rw [committedPoint_closed]; exact h.base
    pending := by
      intro r hr
      rcases List.mem_append.mp hr with hr | hr
      · exact h.pending r hr
      · obtain rfl := List.mem_singleton.mp hr
        show BuiltAt Q g.labels (point (closed n l))
        rw [point_closed]
        exact h.built
    built := by rw [point_closed]; exact h.built
    tracker := by
      show P.tracker.contents (P.tracker.applyBatch n.tokenTracker _ _ _) = _
      simp only [committedPoint_closed, List.map_append, List.map_cons, List.map_nil,
        Platform.LedgerUncommittedTracker.contents_apply, h.tracker, Track.apply, closedRec,
        point_closed]
      simp [Point.mark, point, tokenTxns]
    cache := by
      show _ = (g.pending ++ [closedRec n g l]).filterMap BatchRec.cacheBatch
      rw [contents_closed, List.filterMap_append, ← h.cache]
      by_cases ht : (closedRec n g l).Touched
      · rw [if_pos ((touched_closedRec h).mp ht)]
        simp [cacheBatch_closedRec h, ht, Overlay.close, point]
      · rw [if_neg fun hc => ht ((touched_closedRec h).mpr hc)]
        simp [cacheBatch_closedRec h, ht]
    batches := by
      show n.batches ++ [closedBatch n l] = _
      rw [List.map_append, h.batches, List.map_singleton, plenumBatch_closedRec hopen]
    domain := {
      uncommitted := by
        rw [show (closed n l).domainLedger = n.domainLedger from rfl, h.domain.uncommitted]
        simp [closedRec]
      seqNo := h.domain.seqNo
      marks := by
        intro d hd hs
        rw [hasDeductedFees_closed]
        exact h.domain.marks d (by simpa [closedRec] using hd) hs
      counter := by
        cases l with
        | token =>
          show n.feesTracker.feesInCurrentBatch = _
          rw [h.domain.counter, (hopen.token rfl).1]
        | domain => rfl
      fees := by simp }
    start := fun _ => by
      refine ⟨rfl, rfl, ?_⟩
      rw [contents_closed]
      by_cases hc : l = .token ∨ 0 < n.feesTracker.feesInCurrentBatch
      · rw [if_pos hc]; rfl
      · rw [if_neg hc]
        have hl : l = .domain := by cases l <;> simp_all
        refine (hopen.still hl ?_).2
        rw [(hopen.domain hl).2]
        by_contra hne
        exact hc ((touched_closedRec h).mp (Or.inr hne))
    opened := nofun }

end TokenPlugin.Closing
