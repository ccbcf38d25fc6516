import TokenPlugin.Closing

/-! # Rejecting keeps the invariant

Rejecting the latest batch never raises, and leads back to the point before the batch. A domain batch
is taken back on the token side exactly when it had touched it: the roots that the handler compares
differ whenever a fee was paid, since a spent coin never comes back (`Built.state_ne`). -/

namespace TokenPlugin.Rejecting

open Python Token.Types Token.Views Token.History Database Node Steps Effects Invariant Applying Closing
open Fees.BatchHandlers Fees.DomainFeeHandler Lib.Program Lib.Staged

variable {P : Platform} {Q : Entry → View → Prop} {n n' : Node P} {g : Trace P}
  {rs : List (BatchRec P)} {r : BatchRec P}

/-! ### The queues without their last entry -/

theorem returns_orRaise {α : Type} {x : Option α} {e : PyErr} {a : α} :
    Returns (orRaise x e : Py (Node P) α) n a n' ↔ x = some a ∧ n' = n := by
  unfold orRaise
  cases x <;> simp [eq_comm]

theorem returns_rejectCacheBatch {u : Unit} : Returns rejectCacheBatch n u n' ↔
    ∃ c, P.cache.rejectBatch n.stores.utxoCache = some c ∧ n' = n.setUtxoCache c := by
  unfold rejectCacheBatch
  simp only [returns_bind, returns_get, returns_orRaise, returns_modify]
  constructor
  · rintro ⟨_, _, ⟨rfl, rfl⟩, c, _, ⟨hc, rfl⟩, rfl⟩
    exact ⟨c, hc, rfl⟩
  · rintro ⟨c, hc, rfl⟩
    exact ⟨n, n, ⟨rfl, rfl⟩, c, n, ⟨hc, rfl⟩, rfl⟩

theorem returns_rejectTrackerBatch {x : P.state.Root × P.ledger.Hash × ℕ} :
    Returns rejectTrackerBatch n x n' ↔ (P.tracker.contents n.tokenTracker).reject.1 = some x ∧
      n' = n.setTokenTracker (P.tracker.rejectBatch n.tokenTracker).2 := by
  unfold rejectTrackerBatch
  simp only [returns_bind, returns_get, returns_orRaise, returns_modify,
    Platform.LedgerUncommittedTracker.reject_fst]
  constructor
  · rintro ⟨_, _, ⟨rfl, rfl⟩, _, _, rfl, hx, rfl⟩
    exact ⟨hx, rfl⟩
  · rintro ⟨hx, rfl⟩
    exact ⟨n, n, ⟨rfl, rfl⟩, (), _, rfl, hx, rfl⟩

/-- The cache has a batch to take back. -/
theorem exists_rejectBatch {c : P.cache.Carrier} {bs : List (P.state.Root × Writes Str Str)}
    {b : P.state.Root × Writes Str Str} (h : (P.cache.contents c).batches = bs ++ [b]) :
    ∃ c', P.cache.rejectBatch c = some c' ∧
      P.cache.contents c' = { P.cache.contents c with batches := bs } := by
  have hr := P.cache.contents_reject c
  rw [Overlay.reject, h, if_neg (by simp), List.dropLast_concat] at hr
  obtain ⟨c', hc, hcon⟩ := Option.map_eq_some_iff.mp hr
  exact ⟨c', hc, hcon⟩

theorem reject_concat {R H : Type} (m : Mark R H) (ms : List (Mark R H)) (m' : Mark R H) :
    (⟨m, ms ++ [m']⟩ : Track R H).reject =
      (some ((ms.getLast?.getD m).root, (ms.getLast?.getD m).logRoot,
        m'.size - (ms.getLast?.getD m).size), ⟨m, ms⟩) := by
  simp [Track.reject]

/-- What the tracker gives back is the point before the batch. -/
theorem reject_tracker (h : Inv Q n g) (hp : g.pending = rs ++ [r]) :
    (P.tracker.contents n.tokenTracker).reject =
      (some ((point r.before).mark.root, (point r.before).mark.logRoot,
        (point r.after).mark.size - (point r.before).mark.size),
        ⟨(committedPoint n).mark, rs.map fun r => (point r.after).mark⟩) := by
  have hq := h.queue
  rw [hp] at hq
  have hlast := (Queue.concat_iff.mp hq).1.linked.last
  have hmark : ((rs.map fun r => (point r.after).mark).getLast?.getD (committedPoint n).mark) =
      (point r.before).mark := by
    rw [hlast, List.getLast?_map]
    cases rs.getLast? <;> rfl
  rw [h.tracker, hp, List.map_append, List.map_singleton, reject_concat, hmark]

/-! ### The node after a rejection -/

/-- What a rejection leaves as it was, and what it leaves of the domain side and of plenum's queue, where
`rs` are the batches before the last one. -/
structure Rejected (n n' : Node P) (rs : List (BatchRec P)) : Prop where
  committed : committedPoint n' = committedPoint n
  domain : P.domainLedger.contents n'.domainLedger = { P.domainLedger.contents n.domainLedger with
    uncommitted := (rs.flatMap BatchRec.domain).map Prod.fst }
  configFees : n'.configFees = n.configFees
  feesTracker : n'.feesTracker = n.feesTracker
  batches : n'.batches = rs.map BatchRec.plenumBatch
  openBatch : n'.openBatch = none

/-- A node that is back at the point before the last batch, and whose queues have lost its entries. -/
theorem inv_rejected (h : Inv Q n g) (ho : n.openBatch = none) (hp : g.pending = rs ++ [r])
    (hpoint : point n' = point r.before) (hrej : Rejected n n' rs)
    (htrack : P.tracker.contents n'.tokenTracker =
      ⟨(committedPoint n).mark, rs.map fun r => (point r.after).mark⟩)
    (hcache : (P.cache.contents n'.stores.utxoCache).batches = rs.filterMap BatchRec.cacheBatch)
    (hops : (P.cache.contents n'.stores.utxoCache).ops = []) :
    Inv Q n' (g.next n n' .reject) := by
  obtain ⟨hcom, hdomain, -, hfees, hbatches, hopen⟩ := hrej
  obtain ⟨hstart, hd, -⟩ := h.start ho
  have hq := h.queue
  rw [hp] at hq
  obtain ⟨hq, -, -⟩ := Queue.concat_iff.mp hq
  have hbefore : (point r.before).txns = (committedPoint n).txns ++ rs.flatMap BatchRec.newTxns := hq.txns
  have hlen : (tokenTxns n').length = (point r.before).txns.length := by rw [← hpoint]; rfl
  have hbuilt : BuiltAt Q g.labels (point r.before) := by
    refine hq.linked.carry (p := BuiltAt Q g.labels) h.base fun s hs _ => h.pending s ?_
    rw [hp]
    exact List.mem_append_left _ hs
  have hsub : ∀ s ∈ rs, s ∈ g.pending := fun s hs => by rw [hp]; exact List.mem_append_left _ hs
  have hnext : g.next n n' .reject = ⟨rs, n', [], g.labels.take (tokenTxns n').length⟩ := by
    simp [Trace.next, hp, hd]
  rw [hnext]
  exact {
    labels := by
      rw [List.length_take, hlen]
      exact Nat.min_eq_left hbuilt.length_le
    queue := by rw [hcom, hpoint]; exact hq
    base := by
      rw [hcom]
      refine h.base.take ?_
      rw [hlen, hbefore, List.length_append]
      exact Nat.le_add_right _ _
    pending := fun s hs => by
      refine (h.pending s (hsub s hs)).take ?_
      rw [hlen]
      exact (hq.prefix_of_mem hs).length_le
    built := by rw [hpoint]; exact hbuilt.take hlen.ge
    tracker := by rw [hcom]; exact htrack
    cache := hcache
    batches := hbatches
    domain := {
      uncommitted := by rw [hdomain]; simp
      seqNo := by
        have hall : domainTxns n = domainTxns n' ++ r.domain.map Prod.fst := by
          rw [domainTxns, domainTxns, Log.all, Log.all, hdomain, h.domain.uncommitted, hp, hd]
          simp
        intro i txn hi
        refine h.domain.seqNo i txn ?_
        rw [hall, List.getElem?_append_left (List.getElem?_eq_some_iff.mp hi).1, hi]
      marks := by
        intro d hdm hs
        rw [hfees]
        refine h.domain.marks d ?_ hs
        rw [hp]
        simp only [List.append_nil] at hdm
        simp only [List.flatMap_append, List.mem_append]
        exact Or.inl (Or.inl hdm)
      counter := by rw [hfees, h.domain.counter, hd]
      fees := by simp }
    start := fun _ => ⟨rfl, rfl, hops⟩
    opened := fun b hb => by rw [hopen] at hb; cases hb }

/-- A batch that took fees has left another head and another ledger. -/
theorem ne_of_touched (h : Inv Q n g) (hp : g.pending = rs ++ [r]) (hl : r.ledgerId = .domain)
    (ht : r.Touched) : (point r.after).head ≠ (point r.before).head ∧
      (point r.after).txns ≠ (point r.before).txns ∧
      (point r.after).txns.length ≠ (point r.before).txns.length := by
  have hq := h.queue
  rw [hp] at hq
  obtain ⟨hq, hok, -⟩ := Queue.concat_iff.mp hq
  have hfee : r.feeTxns ≠ [] := ht.resolve_left fun he => by rw [hl] at he; cases he
  obtain ⟨t, ts, hts⟩ := List.exists_cons_of_ne_nil hfee
  have htxns : (point r.after).txns = (point r.before).txns ++ t :: ts := by
    rw [← hts, ← hok.domain hl]
    exact hok.txns
  have hlt : (point r.before).txns.length < (point r.after).txns.length := by simp [htxns]
  refine ⟨fun hhead => ?_, fun he => by rw [he] at hlt; exact lt_irrefl _ hlt, hlt.ne'⟩
  have hbuilt : BuiltAt Q g.labels (point r.before) :=
    hq.linked.carry (p := BuiltAt Q g.labels) h.base fun s hs _ => h.pending s (by simp [hp, hs])
  have hafter := h.pending r (by simp [hp])
  obtain ⟨d, hd, hdt⟩ := List.mem_filterMap.mp (show t ∈ r.feeTxns by simp [hts])
  have hins := (hok.fees d hd t hdt).2
  -- the labels go on, so the longer ledger is the shorter one, this transaction and the rest
  obtain ⟨lab, labs, hlab⟩ : ∃ lab labs, g.labels.drop (point r.before).txns.length = lab :: labs :=
    List.exists_cons_of_ne_nil (List.ne_nil_of_length_pos (by
      have := hafter.length_le
      rw [List.length_drop]
      omega))
  have hz : (point r.after).txns.zip g.labels =
      (point r.before).txns.zip g.labels ++ (t, lab) :: ts.zip labs := by
    have hsplit := (List.take_append_drop (point r.before).txns.length g.labels).symm
    rw [hlab] at hsplit
    have hlen : (point r.before).txns.length = (g.labels.take (point r.before).txns.length).length := by
      rw [List.length_take]
      exact (Nat.min_eq_left hbuilt.length_le).symm
    rw [htxns, ← zip_take (le_refl (point r.before).txns.length)]
    conv_lhs => rw [hsplit]
    rw [List.zip_append hlen]
    rfl
  have hbuilt' := hafter.built
  rw [hz] at hbuilt'
  refine hbuilt.built.state_ne hbuilt' hins ?_
  show P.state.lookup (point r.before).head = P.state.lookup (point r.after).head
  rw [hhead]

/-! ### The step -/

/-- The queue before the last batch. -/
theorem queue_before (h : Inv Q n g) (hp : g.pending = rs ++ [r]) :
    Queue (committedPoint n) rs (point r.before) ∧ RecOk r ∧ point r.after = point g.start := by
  have hq := h.queue
  rw [hp] at hq
  exact Queue.concat_iff.mp hq

/-- The cache without the last batch, where that batch had one. -/
theorem exists_rejectBatch_of_touched (h : Inv Q n g) (ho : n.openBatch = none)
    (hp : g.pending = rs ++ [r]) (ht : r.Touched) :
    ∃ c, P.cache.rejectBatch n.stores.utxoCache = some c ∧
      P.cache.contents c = ⟨(committedPoint n).cache, rs.filterMap BatchRec.cacheBatch, []⟩ := by
  obtain ⟨-, hok, -⟩ := queue_before h hp
  obtain ⟨ws, hb, -⟩ := hok.touched ht
  rw [← (h.start ho).2.2]
  refine exists_rejectBatch (b := ((point r.after).head, ws)) ?_
  rw [h.cache, hp, List.filterMap_append]
  simp [hb]

/-- Once the entries of the last batch are gone, the cache reads as before it. -/
theorem read_eq (h : Inv Q n g) (hp : g.pending = rs ++ [r]) {c : P.cache.Carrier}
    (hc : P.cache.contents c = ⟨(committedPoint n).cache, rs.filterMap BatchRec.cacheBatch, []⟩) :
    (P.cache.contents c).read = (point r.before).cache := by
  rw [hc, ← (queue_before h hp).1.cache]
  rfl

/-- The transactions of the last batch are the last of the ledger. -/
theorem all_discard_eq (h : Inv Q n g) (ho : n.openBatch = none) (hp : g.pending = rs ++ [r]) :
    ((P.ledger.contents n.tokenLedger).discard r.newTxns.length).all = (point r.before).txns := by
  obtain ⟨hq, hok, hstart⟩ := queue_before h hp
  refine Log.all_discard ?_ ?_
  · show (committedPoint n).txns <+: _
    rw [hq.txns]
    exact List.prefix_append _ _
  · have := congrArg Point.txns hstart
    rw [(h.start ho).1] at this
    show (point n).txns = _
    rw [← this]
    exact hok.txns

/-- What is committed stays so while the token side is taken back. -/
theorem committedPoint_reverted {x : P.state.Root} {k : ℕ} {c : P.cache.Carrier}
    {bs : List (P.state.Root × Writes Str Str)}
    (hcon : P.cache.contents c = ⟨(committedPoint n).cache, bs, []⟩)
    (hs : n'.stores = ⟨P.state.revertToHead n.stores.tokenState x, c⟩)
    (ht : n'.tokenLedger = P.ledger.discardTxns n.tokenLedger k) :
    committedPoint n' = committedPoint n := by
  refine Point.ext ?_ ?_ ?_
  · show P.state.committedHeadHash n'.stores.tokenState = _
    rw [hs]
    exact P.state.committed_revert _ _
  · show (P.ledger.contents n'.tokenLedger).committed = _
    rw [ht, P.ledger.contents_discard]
    rfl
  · show (P.cache.contents n'.stores.utxoCache).store = _
    rw [hs, hcon]

/-- The token side, once it has been taken back, is at the point before the batch. -/
theorem point_reverted (h : Inv Q n g) (ho : n.openBatch = none) (hp : g.pending = rs ++ [r])
    {c : P.cache.Carrier}
    (hcon : P.cache.contents c = ⟨(committedPoint n).cache, rs.filterMap BatchRec.cacheBatch, []⟩)
    (hs : n'.stores = ⟨P.state.revertToHead n.stores.tokenState (point r.before).head, c⟩)
    (ht : n'.tokenLedger = P.ledger.discardTxns n.tokenLedger r.newTxns.length) :
    point n' = point r.before := by
  refine Point.ext ?_ ?_ ?_
  · show P.state.headHash n'.stores.tokenState = _
    rw [hs]
    exact P.state.head_revert _ _
  · show (P.ledger.contents n'.tokenLedger).all = _
    rw [ht, P.ledger.contents_discard]
    exact all_discard_eq h ho hp
  · show (P.cache.contents n'.stores.utxoCache).read = _
    rw [hs]
    exact read_eq h hp hcon

/-- A token batch is taken back. -/
theorem exists_rejectStep_token (h : Inv Q n g) (ho : n.openBatch = none)
    (hp : g.pending = rs ++ [r]) (hl : r.ledgerId = .token) :
    ∃ n', Returns rejectStep n () n' ∧ point n' = point r.before ∧ Rejected n n' rs ∧
      Inv Q n' (g.next n n' .reject) := by
  obtain ⟨hs, hd, hops⟩ := h.start ho
  obtain ⟨c, hc, hcon⟩ := exists_rejectBatch_of_touched h ho hp (Or.inl hl)
  have hrej := reject_tracker h hp
  have hlast : n.batches.getLast? = some r.plenumBatch := by rw [h.batches, hp]; simp
  have hplen : r.plenumBatch = .token (point r.before).head
      ⟨(point r.after).head, P.ledger.treeRoot (tokenTxns r.after), r.newTxns.length⟩ := by
    rw [BatchRec.plenumBatch, hl]; rfl
  let n' : Node P := { n with
    stores := ⟨P.state.revertToHead n.stores.tokenState (point r.before).head, c⟩
    tokenLedger := P.ledger.discardTxns n.tokenLedger r.newTxns.length
    tokenTracker := (P.tracker.rejectBatch n.tokenTracker).2
    batches := n.batches.dropLast }
  have hret : Returns rejectStep n () n' := by
    unfold rejectStep rejectBatch tokenPostBatchRejected revertTokenState discardTokenTxns
    simp only [returns_bind, returns_get, returns_orRaise, returns_modify]
    refine ⟨n, n, ⟨rfl, rfl⟩, _, n, ⟨hlast, rfl⟩, (), { n' with batches := n.batches }, ?_, rfl⟩
    rw [hplen]
    simp only [returns_bind, returns_modify, returns_pure, returns_rejectCacheBatch,
      returns_rejectTrackerBatch]
    exact ⟨(), _, rfl, (), _, rfl, (), _, ⟨c, hc, rfl⟩, _, _, ⟨congrArg Prod.fst hrej, rfl⟩, trivial, rfl⟩
  have hpoint : point n' = point r.before := point_reverted h ho hp hcon rfl rfl
  have hrejected : Rejected n n' rs := by
    refine ⟨committedPoint_reverted hcon rfl rfl, ?_, rfl, rfl, ?_, ho⟩
    · have hnil : r.domain = [] := (queue_before h hp).2.1.token hl
      show P.domainLedger.contents n.domainLedger = _
      have := h.domain.uncommitted
      rw [hp, hd] at this
      simp only [List.flatMap_append, List.flatMap_singleton, hnil, List.append_nil] at this
      rw [← this]
    · show n.batches.dropLast = _
      rw [h.batches, hp]
      simp
  refine ⟨n', hret, hpoint, hrejected, inv_rejected h ho hp hpoint hrejected ?_
    (congrArg Overlay.batches hcon) (congrArg Overlay.ops hcon)⟩
  show P.tracker.contents (P.tracker.rejectBatch n.tokenTracker).2 = _
  rw [P.tracker.contents_reject, hrej]

/-- plenum takes back the transactions of a domain batch. -/
theorem contents_discard_domain (h : Inv Q n g) (ho : n.openBatch = none)
    (hp : g.pending = rs ++ [r]) :
    P.domainLedger.contents (P.domainLedger.discardTxns n.domainLedger r.domain.length) =
      { P.domainLedger.contents n.domainLedger with
        uncommitted := (rs.flatMap BatchRec.domain).map Prod.fst } := by
  rw [P.domainLedger.contents_discard, Log.discard, h.domain.uncommitted, hp, (h.start ho).2.1]
  simp

/-- The test of the handler tells whether the batch had a part on the token side. -/
theorem rejected_test_iff (h : Inv Q n g) (ho : n.openBatch = none) (hp : g.pending = rs ++ [r])
    (hl : r.ledgerId = .domain) :
    ((point r.after).mark.size - (point r.before).mark.size = 0 ∨
      P.ledger.uncommittedRootHash n.tokenLedger = (point r.before).mark.logRoot ∨
      P.state.headHash n.stores.tokenState = (point r.before).mark.root) ↔ ¬r.Touched := by
  obtain ⟨-, hok, hafter⟩ := queue_before h hp
  have hn : point r.after = point n := by rw [hafter, (h.start ho).1]
  have hroot : P.ledger.uncommittedRootHash n.tokenLedger = P.ledger.treeRoot (point r.after).txns := by
    rw [hn, P.ledger.uncommittedRootHash_eq]; rfl
  have hhead : P.state.headHash n.stores.tokenState = (point r.after).head := by rw [hn]; rfl
  rw [hroot, hhead]
  constructor
  · intro htest ht
    obtain ⟨hne, htxns, hlen⟩ := ne_of_touched h hp hl ht
    have hle : (point r.before).txns.length ≤ (point r.after).txns.length := by
      show (tokenTxns r.before).length ≤ (tokenTxns r.after).length
      rw [hok.txns, List.length_append]
      exact Nat.le_add_right _ _
    rcases htest with hsize | hroot | hhead
    · have : (point r.after).txns.length - (point r.before).txns.length = 0 := hsize
      omega
    · exact htxns (P.ledger.treeRoot_injective hroot)
    · exact hne hhead
  · intro ht
    rw [hok.untouched ht]
    exact Or.inl (Nat.sub_self _)

/-- The node once plenum has taken back a domain batch and the tracker has lost it. -/
def afterDomain (n : Node P) (r : BatchRec P) : Node P :=
  { n with
    domainLedger := P.domainLedger.discardTxns n.domainLedger r.domain.length
    tokenTracker := (P.tracker.rejectBatch n.tokenTracker).2 }

/-- The rest of the step, by what the batch had done. -/
theorem returns_rejectStep_domain (h : Inv Q n g) (ho : n.openBatch = none)
    (hp : g.pending = rs ++ [r]) (hl : r.ledgerId = .domain)
    (hrest : Returns (if ¬r.Touched then pure () else do
        revertTokenState (point r.before).head
        discardTokenTxns r.newTxns.length
        rejectCacheBatch) (afterDomain n r) () n') :
    Returns rejectStep n () { n' with batches := n'.batches.dropLast } := by
  have hrej := reject_tracker h hp
  have hlast : n.batches.getLast? = some r.plenumBatch := by rw [h.batches, hp]; simp
  have hplen : r.plenumBatch = .domain r.domain.length := by rw [BatchRec.plenumBatch, hl]
  have hnew : (point r.after).mark.size - (point r.before).mark.size = r.newTxns.length := by
    show (tokenTxns r.after).length - (tokenTxns r.before).length = _
    rw [(queue_before h hp).2.1.txns, List.length_append, Nat.add_sub_cancel_left]
  unfold rejectStep rejectBatch domainPostBatchRejected
  simp only [returns_bind, returns_get, returns_orRaise, returns_modify]
  refine ⟨n, n, ⟨rfl, rfl⟩, _, n, ⟨hlast, rfl⟩, (), n', ?_, rfl⟩
  rw [hplen]
  simp only [returns_bind, returns_modify, returns_get, returns_rejectTrackerBatch]
  refine ⟨(), _, rfl, _, afterDomain n r, ⟨congrArg Prod.fst hrej, rfl⟩, _, _, ⟨rfl, rfl⟩, ?_⟩
  simp only [← rejected_test_iff h ho hp hl] at hrest
  rw [hnew] at hrest ⊢
  exact hrest

/-- A domain batch is taken back. -/
theorem exists_rejectStep_domain (h : Inv Q n g) (ho : n.openBatch = none)
    (hp : g.pending = rs ++ [r]) (hl : r.ledgerId = .domain) :
    ∃ n', Returns rejectStep n () n' ∧ point n' = point r.before ∧ Rejected n n' rs ∧
      Inv Q n' (g.next n n' .reject) := by
  obtain ⟨hstart, -, hops⟩ := h.start ho
  obtain ⟨-, hok, hafter⟩ := queue_before h hp
  have hdl := contents_discard_domain h ho hp
  have hbatches : n.batches.dropLast = rs.map BatchRec.plenumBatch := by rw [h.batches, hp]; simp
  have htrack : P.tracker.contents (P.tracker.rejectBatch n.tokenTracker).2 =
      ⟨(committedPoint n).mark, rs.map fun r => (point r.after).mark⟩ := by
    rw [P.tracker.contents_reject, reject_tracker h hp]
  have hrest := fun m hm => @returns_rejectStep_domain _ _ n m g rs r h ho hp hl hm
  by_cases ht : r.Touched
  · obtain ⟨c, hc, hcon⟩ := exists_rejectBatch_of_touched h ho hp ht
    let n' : Node P := { afterDomain n r with
      stores := ⟨P.state.revertToHead n.stores.tokenState (point r.before).head, c⟩
      tokenLedger := P.ledger.discardTxns n.tokenLedger r.newTxns.length
      batches := n.batches.dropLast }
    have hret : Returns rejectStep n () n' := hrest { n' with batches := n.batches } (by
      rw [if_neg (not_not.mpr ht)]
      unfold revertTokenState discardTokenTxns
      simp only [returns_bind, returns_modify, returns_rejectCacheBatch]
      exact ⟨(), _, rfl, (), _, rfl, c, hc, rfl⟩)
    have hpoint : point n' = point r.before := point_reverted h ho hp hcon rfl rfl
    have hrejected : Rejected n n' rs :=
      ⟨committedPoint_reverted hcon rfl rfl, hdl, rfl, rfl, hbatches, ho⟩
    exact ⟨n', hret, hpoint, hrejected, inv_rejected h ho hp hpoint hrejected htrack
      (congrArg Overlay.batches hcon) (congrArg Overlay.ops hcon)⟩
  · let n' : Node P := { afterDomain n r with batches := n.batches.dropLast }
    have hret : Returns rejectStep n () n' :=
      hrest (afterDomain n r) (by rw [if_pos ht]; exact returns_pure.mpr ⟨rfl, rfl⟩)
    have hpoint : point n' = point r.before := by
      show point n = _
      rw [← hok.untouched ht, hafter, hstart]
    have hcache : (P.cache.contents n.stores.utxoCache).batches = rs.filterMap BatchRec.cacheBatch := by
      rw [h.cache, hp, List.filterMap_append]
      simp [BatchRec.cacheBatch, ht]
    have hrejected : Rejected n n' rs := ⟨rfl, hdl, rfl, rfl, hbatches, ho⟩
    exact ⟨n', hret, hpoint, hrejected, inv_rejected h ho hp hpoint hrejected htrack hcache hops⟩

/-- **Rejecting the latest batch** leads back to the point before it and keeps the invariant. -/
theorem exists_rejectStep (h : Inv Q n g) (ho : n.openBatch = none) (hp : g.pending = rs ++ [r]) :
    ∃ n', Returns rejectStep n () n' ∧ point n' = point r.before ∧ Rejected n n' rs ∧
      Inv Q n' (g.next n n' .reject) := by
  cases hl : r.ledgerId with
  | token => exact exists_rejectStep_token h ho hp hl
  | domain => exact exists_rejectStep_domain h ho hp hl

/-- What a rejection that returns has done. -/
theorem rejected_of_returns (h : Inv Q n g) (ho : n.openBatch = none)
    (hs : Returns rejectStep n () n') : ∃ rs r, g.pending = rs ++ [r] ∧ point n' = point r.before ∧
      Rejected n n' rs ∧ Inv Q n' (g.next n n' .reject) := by
  rcases List.eq_nil_or_concat' g.pending with hnil | ⟨rs, r, hp⟩
  · unfold rejectStep at hs
    simp only [returns_bind, returns_get, returns_orRaise] at hs
    obtain ⟨_, _, ⟨rfl, rfl⟩, _, _, ⟨hlast, -⟩, -⟩ := hs
    rw [h.batches, hnil] at hlast
    cases hlast
  · obtain ⟨m, hm, hrest⟩ := exists_rejectStep h ho hp
    obtain rfl := (hs.unique hm).2
    exact ⟨rs, r, hp, hrest⟩

theorem inv_reject (h : Inv Q n g) (ho : n.openBatch = none) (hs : Returns rejectStep n () n') :
    Inv Q n' (g.next n n' .reject) := by
  obtain ⟨_, _, _, _, _, hinv⟩ := rejected_of_returns h ho hs
  exact hinv

end TokenPlugin.Rejecting
