import TokenPlugin.Rejecting

/-! # Committing keeps the invariant

Committing the oldest batch never raises on a token batch. On a domain batch it returns exactly when no
transaction of the batch that paid no fee is marked as having paid one: the marks are kept when a batch
is rejected, and sequence numbers are used again. -/

namespace TokenPlugin.Committing

open Python Token.Types Token.Views Token.History Database Node Steps Effects Invariant Applying
open Rejecting Fees.BatchHandlers Fees.DomainFeeHandler Lib.Program Lib.Staged
open Lib.Program.Prog (modify ofExcept)

variable {P : Platform} {Q : Entry → View → Prop} {n n' : Node P} {g : Trace P}
  {rs : List (BatchRec P)} {r : BatchRec P}

/-! ### The parts of the step -/

theorem returns_commitToUtxoCache {x : P.state.Root} {u : Unit} :
    Returns (commitToUtxoCache x) n u n' ↔
      (P.cache.contents n.stores.utxoCache).firstIdr = some x ∧
      ∃ c, P.cache.commitBatch n.stores.utxoCache = some c ∧ n' = n.setUtxoCache c := by
  unfold commitToUtxoCache
  simp only [returns_bind, returns_get, returns_ite, returns_raise, returns_orRaise, returns_modify,
    and_false, false_or, not_not, Platform.OptimisticKVStore.firstBatchIdr_eq]
  constructor
  · rintro ⟨_, _, ⟨rfl, rfl⟩, hx, c, _, ⟨hc, rfl⟩, rfl⟩
    exact ⟨hx, c, hc, rfl⟩
  · rintro ⟨hx, c, hc, rfl⟩
    exact ⟨n, n, ⟨rfl, rfl⟩, hx, c, n, ⟨hc, rfl⟩, rfl⟩

theorem returns_commitTrackerBatch {x : P.state.Root × P.ledger.Hash × ℕ} :
    Returns commitTrackerBatch n x n' ↔ (P.tracker.contents n.tokenTracker).commit.1 = some x ∧
      n' = n.setTokenTracker (P.tracker.commitBatch n.tokenTracker).2 := by
  unfold commitTrackerBatch
  simp only [returns_bind, returns_get, returns_orRaise, returns_modify,
    Platform.LedgerUncommittedTracker.commit_fst]
  constructor
  · rintro ⟨_, _, ⟨rfl, rfl⟩, _, _, rfl, hx, rfl⟩
    exact ⟨hx, rfl⟩
  · rintro ⟨hx, rfl⟩
    exact ⟨n, n, ⟨rfl, rfl⟩, (), _, rfl, hx, rfl⟩

theorem returns_commitTokenTxns {b : ThreePcBatch P} {ts : List TokenTxn} :
    Returns (commitTokenTxns b) n ts n' ↔
      P.ledger.treeRoot ((P.ledger.contents n.tokenLedger).commit b.validDigests).committed = b.txnRoot ∧
      ts = (P.ledger.contents n.tokenLedger).uncommitted.take b.validDigests ∧
      n' = (n.setTokenLedger (P.ledger.commitTxns n.tokenLedger b.validDigests).2).setTokenState
        (P.state.commit n.stores.tokenState b.stateRoot) := by
  unfold commitTokenTxns
  simp only [returns_bind, returns_get, returns_ite, returns_raise, returns_modify, returns_pure,
    and_false, false_or, not_not, Platform.Ledger.rootHash_eq, Platform.Ledger.contents_commit,
    Platform.Ledger.commit_fst]
  constructor
  · rintro ⟨_, _, ⟨rfl, rfl⟩, _, _, rfl, hx, _, _, rfl, rfl, rfl⟩
    exact ⟨hx, rfl, rfl⟩
  · rintro ⟨hx, rfl, rfl⟩
    exact ⟨n, n, ⟨rfl, rfl⟩, (), _, rfl, hx, (), _, rfl, rfl, rfl⟩

/-! ### The queues without their first entry -/

/-- The queue after the first batch. -/
theorem queue_after (h : Inv Q n g) (hp : g.pending = r :: rs) :
    point r.before = committedPoint n ∧ RecOk r ∧ Queue (point r.after) rs (point g.start) := by
  have hq := h.queue
  rw [hp] at hq
  exact Queue.cons_iff.mp hq

theorem commit_tracker (h : Inv Q n g) (hp : g.pending = r :: rs) :
    (P.tracker.contents n.tokenTracker).commit =
      (some ((point r.after).mark.root, (point r.after).mark.logRoot,
        (point r.after).mark.size - (committedPoint n).mark.size),
        ⟨(point r.after).mark, rs.map fun r => (point r.after).mark⟩) := by
  rw [h.tracker, hp]
  rfl

/-- The transactions of the first batch are the first uncommitted ones. -/
theorem uncommitted_eq (h : Inv Q n g) (ho : n.openBatch = none) (hp : g.pending = r :: rs) :
    (P.ledger.contents n.tokenLedger).uncommitted = r.newTxns ++ rs.flatMap BatchRec.newTxns := by
  obtain ⟨hbefore, hok, hq⟩ := queue_after h hp
  have hall : (point n).txns = (committedPoint n).txns ++ (r.newTxns ++ rs.flatMap BatchRec.newTxns) := by
    have hn : (point n).txns = (point g.start).txns := by rw [(h.start ho).1]
    rw [hn, hq.txns, ← List.append_assoc, ← hbefore]
    exact congrArg (· ++ _) hok.txns
  exact List.append_cancel_left hall

/-- The cache without the first batch, where that batch had one. -/
theorem exists_commitBatch_of_touched (h : Inv Q n g) (ho : n.openBatch = none)
    (hp : g.pending = r :: rs) (ht : r.Touched) :
    (P.cache.contents n.stores.utxoCache).firstIdr = some (point r.after).head ∧
    ∃ c, P.cache.commitBatch n.stores.utxoCache = some c ∧
      P.cache.contents c = ⟨(point r.after).cache, rs.filterMap BatchRec.cacheBatch, []⟩ := by
  obtain ⟨hbefore, hok, -⟩ := queue_after h hp
  obtain ⟨ws, hb, hc⟩ := hok.touched ht
  have hbatches : (P.cache.contents n.stores.utxoCache).batches =
      ((point r.after).head, ws) :: rs.filterMap BatchRec.cacheBatch := by
    rw [h.cache, hp, List.filterMap_cons, hb]
  have hcom := P.cache.contents_commit n.stores.utxoCache
  rw [Overlay.commit, hbatches] at hcom
  obtain ⟨c, hcc, hcon⟩ := Option.map_eq_some_iff.mp hcom
  refine ⟨by rw [Overlay.firstIdr, hbatches]; rfl, c, hcc, ?_⟩
  rw [hcon, hc, hbefore, (h.start ho).2.2]
  rfl

/-! ### The node after a commit -/

/-- What the commit of the first batch `r`, with `rs` behind it, leaves as it was, and what it leaves of
the domain side and of plenum's queue. -/
structure Committed (n n' : Node P) (r : BatchRec P) (rs : List (BatchRec P)) : Prop where
  domain : P.domainLedger.contents n'.domainLedger =
    (P.domainLedger.contents n.domainLedger).commit r.domain.length
  configFees : n'.configFees = n.configFees
  feesTracker : n'.feesTracker = n.feesTracker
  batches : n'.batches = rs.map BatchRec.plenumBatch
  openBatch : n'.openBatch = none

/-- The transactions of the first batch are the first uncommitted ones of the domain ledger. -/
theorem uncommitted_domain_eq (h : Inv Q n g) (ho : n.openBatch = none) (hp : g.pending = r :: rs) :
    (P.domainLedger.contents n.domainLedger).uncommitted =
      r.domain.map Prod.fst ++ (rs.flatMap BatchRec.domain).map Prod.fst := by
  rw [h.domain.uncommitted, hp, (h.start ho).2.1]
  simp

/-- plenum commits the transactions of a domain batch. -/
theorem contents_commit_domain (h : Inv Q n g) (ho : n.openBatch = none) (hp : g.pending = r :: rs)
    (hc : Committed n n' r rs) : (P.domainLedger.contents n'.domainLedger).uncommitted =
      (rs.flatMap BatchRec.domain).map Prod.fst ∧ domainTxns n' = domainTxns n := by
  rw [domainTxns, hc.domain, Log.all_commit, Log.commit, uncommitted_domain_eq h ho hp,
    List.drop_left' (List.length_map _)]
  exact ⟨rfl, rfl⟩

/-- A node at the same point, whose queues have lost the first entry. -/
theorem inv_committed (h : Inv Q n g) (ho : n.openBatch = none) (hp : g.pending = r :: rs)
    (hpoint : point n' = point n) (hcom : committedPoint n' = point r.after)
    (hc : Committed n n' r rs) (htrack : P.tracker.contents n'.tokenTracker =
      ⟨(point r.after).mark, rs.map fun r => (point r.after).mark⟩)
    (hcache : (P.cache.contents n'.stores.utxoCache).batches = rs.filterMap BatchRec.cacheBatch)
    (hops : (P.cache.contents n'.stores.utxoCache).ops = []) :
    Inv Q n' (g.next n n' .commit) := by
  obtain ⟨hdomain, htxns⟩ := contents_commit_domain h ho hp hc
  obtain ⟨-, -, hfees, hbatches, hopen⟩ := hc
  obtain ⟨hstart, hd, -⟩ := h.start ho
  obtain ⟨-, -, hq⟩ := queue_after h hp
  have hnext : g.next n n' .commit = ⟨rs, n', [], g.labels⟩ := by simp [Trace.next, hp, hd]
  rw [hnext]
  exact {
    labels := by
      rw [h.labels]
      exact congrArg (fun x : Point P => x.txns.length) hpoint.symm
    queue := by rw [hcom, hpoint, ← hstart]; exact hq
    base := by rw [hcom]; exact h.pending r (by simp [hp])
    pending := fun s hs => h.pending s (by simp [hp, hs])
    built := by rw [hpoint]; exact h.built
    tracker := by rw [hcom]; exact htrack
    cache := hcache
    batches := hbatches
    domain := {
      uncommitted := by rw [hdomain]; simp
      seqNo := by rw [htxns]; exact h.domain.seqNo
      marks := by
        intro d hdm hs
        rw [hfees]
        refine h.domain.marks d ?_ hs
        rw [hp]
        simp only [List.append_nil] at hdm
        simp only [List.flatMap_cons, List.mem_append]
        exact Or.inl (Or.inr hdm)
      counter := by rw [hfees, h.domain.counter, hd]
      fees := by simp }
    start := fun _ => ⟨rfl, rfl, hops⟩
    opened := fun b hb => by rw [hopen] at hb; cases hb }

/-- The point stays, and the committed one becomes that after the batch, once the token side of the
batch has been committed. -/
theorem points_committed (h : Inv Q n g) (ho : n.openBatch = none) (hp : g.pending = r :: rs)
    {c : P.cache.Carrier}
    (hcon : P.cache.contents c = ⟨(point r.after).cache, rs.filterMap BatchRec.cacheBatch, []⟩)
    (hs : n'.stores = ⟨P.state.commit n.stores.tokenState (point r.after).head, c⟩)
    (ht : n'.tokenLedger = (P.ledger.commitTxns n.tokenLedger r.newTxns.length).2) :
    point n' = point n ∧ committedPoint n' = point r.after := by
  obtain ⟨hbefore, hok, hq⟩ := queue_after h hp
  have hstart := (h.start ho).1
  constructor
  · refine Point.ext ?_ ?_ ?_
    · show P.state.headHash n'.stores.tokenState = _
      rw [hs]
      exact P.state.head_commit _ _
    · show (P.ledger.contents n'.tokenLedger).all = _
      rw [ht, P.ledger.contents_commit, Log.all_commit]
      rfl
    · show (P.cache.contents n'.stores.utxoCache).read = _
      rw [hs, hcon, ← hstart, ← hq.cache]
      rfl
  · refine Point.ext ?_ ?_ ?_
    · show P.state.committedHeadHash n'.stores.tokenState = _
      rw [hs]
      exact P.state.committed_commit _ _
    · show (P.ledger.contents n'.tokenLedger).committed = _
      rw [ht, P.ledger.contents_commit, Log.commit, uncommitted_eq h ho hp, List.take_left]
      show (committedPoint n).txns ++ _ = _
      rw [← hbefore]
      exact hok.txns.symm
    · show (P.cache.contents n'.stores.utxoCache).store = _
      rw [hs, hcon]

/-! ### Token batches -/

/-- The root test of the first batch. -/
theorem treeRoot_commit (h : Inv Q n g) (ho : n.openBatch = none) (hp : g.pending = r :: rs) :
    P.ledger.treeRoot ((P.ledger.contents n.tokenLedger).commit r.newTxns.length).committed =
      P.ledger.treeRoot (tokenTxns r.after) := by
  obtain ⟨hbefore, hok, -⟩ := queue_after h hp
  rw [Log.commit, uncommitted_eq h ho hp, List.take_left]
  congr 1
  show (committedPoint n).txns ++ _ = _
  rw [← hbefore]
  exact hok.txns.symm

/-- A token batch is committed. -/
theorem exists_commitStep_token (h : Inv Q n g) (ho : n.openBatch = none) (hp : g.pending = r :: rs)
    (hl : r.ledgerId = .token) :
    ∃ n', Returns commitStep n [] n' ∧ point n' = point n ∧ committedPoint n' = point r.after ∧
      Committed n n' r rs ∧ Inv Q n' (g.next n n' .commit) := by
  obtain ⟨hidr, c, hc, hcon⟩ := exists_commitBatch_of_touched h ho hp (Or.inl hl)
  have htrack := commit_tracker h hp
  have hhead : n.batches.head? = some r.plenumBatch := by rw [h.batches, hp]; rfl
  have hplen : r.plenumBatch = .token (point r.before).head
      ⟨(point r.after).head, P.ledger.treeRoot (tokenTxns r.after), r.newTxns.length⟩ := by
    rw [BatchRec.plenumBatch, hl]; rfl
  let n' : Node P := { n with
    stores := ⟨P.state.commit n.stores.tokenState (point r.after).head, c⟩
    tokenLedger := (P.ledger.commitTxns n.tokenLedger r.newTxns.length).2
    tokenTracker := (P.tracker.commitBatch n.tokenTracker).2
    batches := n.batches.tail }
  have hret : Returns commitStep n [] n' := by
    unfold commitStep commitBatch tokenCommitBatch
    simp only [returns_bind, returns_get, returns_orRaise, returns_modify, returns_pure]
    refine ⟨n, n, ⟨rfl, rfl⟩, _, n, ⟨hhead, rfl⟩, [], { n' with batches := n.batches }, ?_, (), _, rfl,
      rfl, rfl⟩
    rw [hplen]
    simp only [returns_bind, returns_pure, returns_commitTokenTxns, returns_commitToUtxoCache,
      returns_commitTrackerBatch]
    exact ⟨(), _, ⟨_, _, ⟨treeRoot_commit h ho hp, rfl, rfl⟩, (), _, ⟨hidr, c, hc, rfl⟩, _, _,
      ⟨congrArg Prod.fst htrack, rfl⟩, trivial, rfl⟩, trivial, rfl⟩
  obtain ⟨hpoint, hcom⟩ : point n' = point n ∧ committedPoint n' = point r.after :=
    points_committed h ho hp hcon rfl rfl
  have hcommitted : Committed n n' r rs := by
    refine ⟨?_, rfl, rfl, ?_, ho⟩
    · rw [(queue_after h hp).2.1.token hl]
      simp [n', Log.commit]
    · show n.batches.tail = _
      rw [h.batches, hp]
      rfl
  refine ⟨n', hret, hpoint, hcom, hcommitted, inv_committed h ho hp hpoint hcom hcommitted ?_
    (congrArg Overlay.batches hcon) (congrArg Overlay.ops hcon)⟩
  show P.tracker.contents (P.tracker.commitBatch n.tokenTracker).2 = _
  rw [P.tracker.contents_commit, htrack]

/-! ### Domain batches -/

/-- A transaction as it is replied: with the FEES transaction it paid, if it paid one. -/
def reply (d : DomainTxn × Option TokenTxn) : DomainTxn :=
  match d.2 with
  | some t => { d.1 with fees := some t }
  | none => d.1

/-- No transaction of the batch that paid nothing is marked as having paid. -/
def Unmarked (t : BatchFeesTracker) (r : BatchRec P) : Prop :=
  ∀ d ∈ r.domain, d.2 = none → hasDeductedFees t d.1.type d.1.seqNo = false

instance (t : BatchFeesTracker) (r : BatchRec P) : Decidable (Unmarked t r) :=
  inferInstanceAs (Decidable (∀ _ ∈ _, _))

/-- The transactions of the domain ledger are numbered one after the other. -/
theorem nodup_seqNo_domainTxns (h : Inv Q n g) : ((domainTxns n).map DomainTxn.seqNo).Nodup := by
  have hrange : (domainTxns n).map DomainTxn.seqNo = (List.range (domainTxns n).length).map (· + 1) := by
    refine List.ext_getElem? fun i => ?_
    rw [List.getElem?_map, List.getElem?_map]
    rcases ht : (domainTxns n)[i]? with _ | txn
    · have := List.getElem?_eq_none_iff.mp ht
      simp [this]
    · have := (List.getElem?_eq_some_iff.mp ht).1
      simp [this, h.domain.seqNo i txn ht]
  rw [hrange]
  exact List.nodup_range.map fun a b hab => by omega

/-- No two transactions of a batch have one number. -/
theorem nodup_seqNo (h : Inv Q n g) (ho : n.openBatch = none) (hp : g.pending = r :: rs) :
    (r.domain.map fun d => d.1.seqNo).Nodup := by
  have hsub : List.Sublist (r.domain.map Prod.fst) (domainTxns n) := by
    rw [domainTxns, Log.all, uncommitted_domain_eq h ho hp]
    exact ((List.sublist_append_left _ _).trans (List.sublist_append_right _ _))
  have := (nodup_seqNo_domainTxns h).sublist (hsub.map DomainTxn.seqNo)
  rwa [List.map_map] at this

theorem length_filter_isSome {α β : Type} (ds : List (α × Option β)) :
    (ds.filter fun d => d.2.isSome).length = (ds.filterMap Prod.snd).length := by
  induction ds with
  | nil => rfl
  | cons d ds ih =>
    obtain ⟨a, _ | b⟩ := d <;> simp [ih]

/-- Each transaction on the list gets the next of the FEES transactions. -/
theorem setFeesOnReplies_eq {withFees : List ℕ} {feesTxns : List TokenTxn}
    {ds : List (DomainTxn × Option TokenTxn)} {i : ℕ}
    (hw : ∀ d ∈ ds, d.1.seqNo ∈ withFees ↔ d.2.isSome)
    (hf : feesTxns.drop i = ds.filterMap Prod.snd) :
    setFeesOnReplies withFees feesTxns (ds.map Prod.fst) i = .ok (ds.map reply) := by
  induction ds generalizing i with
  | nil => rfl
  | cons d ds ih =>
    have hd := hw d List.mem_cons_self
    have hds := fun e he => hw e (List.mem_cons_of_mem _ he)
    obtain ⟨txn, _ | t⟩ := d
    · have hn : txn.seqNo ∉ withFees := fun hin => by simpa using hd.mp hin
      simp only [List.map_cons, setFeesOnReplies, if_neg hn, ih hds hf]
      rfl
    · have hin : txn.seqNo ∈ withFees := hd.mpr rfl
      replace hf : feesTxns.drop i = t :: ds.filterMap Prod.snd := hf
      have hi : feesTxns[i]? = some t := by
        have := congrArg List.head? hf
        rwa [List.head?_drop] at this
      have htail : feesTxns.drop (i + 1) = ds.filterMap Prod.snd := by
        have := congrArg List.tail hf
        rwa [List.tail_drop] at this
      simp only [List.map_cons, setFeesOnReplies, if_pos hin, hi, ih hds htail]
      rfl

/-- The loop needs a FEES transaction for each transaction on the list. -/
theorem length_le_of_setFeesOnReplies {withFees : List ℕ} {feesTxns : List TokenTxn}
    {txns replies : List DomainTxn} {i : ℕ} (hi : i ≤ feesTxns.length)
    (h : setFeesOnReplies withFees feesTxns txns i = .ok replies) :
    i + (txns.filter fun txn => txn.seqNo ∈ withFees).length ≤ feesTxns.length := by
  induction txns generalizing i replies with
  | nil => simpa using hi
  | cons txn txns ih =>
    unfold setFeesOnReplies at h
    by_cases hw : txn.seqNo ∈ withFees
    · rw [if_pos hw] at h
      rcases ht : feesTxns[i]? with _ | t
      · simp [ht] at h
      · simp only [ht, bind, Except.bind] at h
        rcases hrest : setFeesOnReplies withFees feesTxns txns (i + 1) with e | rest
        · rw [hrest] at h; cases h
        · have := ih (List.getElem?_eq_some_iff.mp ht).1 hrest
          rw [List.filter_cons_of_pos (by simpa using hw), List.length_cons]
          omega
    · rw [if_neg hw] at h
      simp only [bind, Except.bind] at h
      rcases hrest : setFeesOnReplies withFees feesTxns txns i with e | rest
      · rw [hrest] at h; cases h
      · rw [List.filter_cons_of_neg (by simpa using hw)]
        exact ih hi hrest

/-- The transactions that paid are marked. -/
theorem marked_of_paid (h : Inv Q n g) (hp : g.pending = r :: rs) {d : DomainTxn × Option TokenTxn}
    (hd : d ∈ r.domain) (hs : d.2.isSome) : hasDeductedFees n.feesTracker d.1.type d.1.seqNo :=
  h.domain.marks d (by simp [hp, hd]) hs

/-- The transactions that are marked are those that paid. -/
theorem marked_iff (h : Inv Q n g) (hp : g.pending = r :: rs) (hu : Unmarked n.feesTracker r)
    {d : DomainTxn × Option TokenTxn} (hd : d ∈ r.domain) :
    hasDeductedFees n.feesTracker d.1.type d.1.seqNo = d.2.isSome := by
  rcases hs : d.2 with _ | t
  · exact hu d hd hs
  · exact marked_of_paid h hp hd (by rw [hs]; rfl)

theorem seqNosWithFees_eq (h : Inv Q n g) (hp : g.pending = r :: rs) (hu : Unmarked n.feesTracker r) :
    seqNosWithFees n.feesTracker (r.domain.map Prod.fst) =
      (r.domain.filter fun d => d.2.isSome).map fun d => d.1.seqNo := by
  unfold seqNosWithFees
  rw [List.filter_map, List.map_map]
  congr 1
  exact List.filter_congr fun d hd => marked_iff h hp hu hd

theorem mem_seqNosWithFees (h : Inv Q n g) (ho : n.openBatch = none) (hp : g.pending = r :: rs)
    (hu : Unmarked n.feesTracker r) {d : DomainTxn × Option TokenTxn} (hd : d ∈ r.domain) :
    d.1.seqNo ∈ seqNosWithFees n.feesTracker (r.domain.map Prod.fst) ↔ d.2.isSome := by
  rw [seqNosWithFees_eq h hp hu, List.mem_map]
  constructor
  · rintro ⟨e, he, hs⟩
    obtain ⟨he, hsome⟩ := List.mem_filter.mp he
    exact List.inj_on_of_nodup_map (nodup_seqNo h ho hp) he hd hs ▸ hsome
  · exact fun hs => ⟨d, List.mem_filter.mpr ⟨hd, hs⟩, rfl⟩

/-- The node while the handlers of a domain batch commit it: plenum has committed its transactions and
the tracker has lost it. -/
def committingDomain (n : Node P) (r : BatchRec P) : Node P :=
  { n with
    domainLedger := (P.domainLedger.commitTxns n.domainLedger r.domain.length).2
    tokenTracker := (P.tracker.commitBatch n.tokenTracker).2 }

/-- What is left of the step, in terms of the batch. -/
theorem returns_commitStep_domain (h : Inv Q n g) (ho : n.openBatch = none) (hp : g.pending = r :: rs)
    (hl : r.ledgerId = .domain) {replies : List DomainTxn} :
    Returns commitStep n replies n' ↔ ∃ m, Returns
      (let withFees := seqNosWithFees n.feesTracker (r.domain.map Prod.fst)
      if withFees.length > 0 then do
        let feesTxns ← commitTokenTxns
          ⟨(point r.after).head, P.ledger.treeRoot (tokenTxns r.after), withFees.length⟩
        commitToUtxoCache (point r.after).head
        let replies ← ofExcept (setFeesOnReplies withFees feesTxns (r.domain.map Prod.fst) 0)
        onFeesTracker fun t => { t with feesInCurrentBatch := 0 }
        pure replies
      else pure (r.domain.map Prod.fst)) (committingDomain n r) replies m ∧
      n' = { m with batches := m.batches.tail } := by
  have htrack := commit_tracker h hp
  have hhead : n.batches.head? = some r.plenumBatch := by rw [h.batches, hp]; rfl
  have hplen : r.plenumBatch = .domain r.domain.length := by rw [BatchRec.plenumBatch, hl]
  have htxns : (P.domainLedger.commitTxns n.domainLedger r.domain.length).1 = r.domain.map Prod.fst := by
    rw [P.domainLedger.commit_fst, uncommitted_domain_eq h ho hp, List.take_left' (List.length_map _)]
  unfold commitStep
  simp only [returns_bind, returns_get, returns_orRaise, returns_modify, returns_pure]
  constructor
  · rintro ⟨_, _, ⟨rfl, rfl⟩, _, _, ⟨hb, rfl⟩, _, m, hc, _, _, rfl, rfl, rfl⟩
    rw [hhead] at hb
    obtain rfl := Option.some.inj hb
    refine ⟨m, ?_, rfl⟩
    unfold commitBatch domainCommitBatch at hc
    rw [hplen] at hc
    simp only [returns_bind, returns_get, returns_modify, returns_commitTrackerBatch] at hc
    obtain ⟨_, _, ⟨rfl, rfl⟩, _, _, rfl, x, _, ⟨hx, rfl⟩, _, _, ⟨rfl, rfl⟩, hc⟩ := hc
    have hx' := hx.symm.trans (congrArg Prod.fst htrack)
    obtain rfl := Option.some.inj hx'
    simp only [htxns] at hc
    exact hc
  · rintro ⟨m, hc, rfl⟩
    refine ⟨n, n, ⟨rfl, rfl⟩, _, n, ⟨hhead, rfl⟩, replies, m, ?_, (), _, rfl, rfl, rfl⟩
    unfold commitBatch domainCommitBatch
    rw [hplen]
    simp only [returns_bind, returns_get, returns_modify, returns_commitTrackerBatch]
    refine ⟨n, n, ⟨rfl, rfl⟩, (), _, rfl, _, _, ⟨congrArg Prod.fst htrack, rfl⟩, _, _, ⟨rfl, rfl⟩, ?_⟩
    simp only [htxns]
    exact hc

theorem feesTracker_eq (h : Inv Q n g) (ho : n.openBatch = none) :
    { n.feesTracker with feesInCurrentBatch := 0 } = n.feesTracker := by
  have h0 : n.feesTracker.feesInCurrentBatch = 0 := by rw [h.domain.counter, (h.start ho).2.1]; rfl
  rw [← h0]

/-- A batch with fees, none of whose other transactions is marked. -/
theorem exists_commitStep_paid (h : Inv Q n g) (ho : n.openBatch = none) (hp : g.pending = r :: rs)
    (hl : r.ledgerId = .domain) (hu : Unmarked n.feesTracker r) (ht : r.feeTxns ≠ []) :
    ∃ n', Returns commitStep n (r.domain.map reply) n' ∧ point n' = point n ∧
      committedPoint n' = point r.after ∧ Committed n n' r rs ∧
      Inv Q n' (g.next n n' .commit) := by
  obtain ⟨hidr, c, hc, hcon⟩ := exists_commitBatch_of_touched h ho hp (Or.inr ht)
  have htrack := commit_tracker h hp
  have hnew : r.newTxns = r.feeTxns := (queue_after h hp).2.1.domain hl
  have hlen : (seqNosWithFees n.feesTracker (r.domain.map Prod.fst)).length = r.newTxns.length := by
    rw [seqNosWithFees_eq h hp hu, List.length_map, length_filter_isSome, hnew]
    rfl
  have hpos : 0 < r.newTxns.length := by rw [hnew]; exact List.length_pos_of_ne_nil ht
  have htake : (P.ledger.contents n.tokenLedger).uncommitted.take r.newTxns.length = r.feeTxns := by
    rw [uncommitted_eq h ho hp, List.take_left, hnew]
  have hset : setFeesOnReplies _ r.feeTxns (r.domain.map Prod.fst) 0 = .ok (r.domain.map reply) :=
    setFeesOnReplies_eq (fun d hd => mem_seqNosWithFees h ho hp hu hd) rfl
  have hroot := treeRoot_commit h ho hp
  let n' : Node P := { n with
    stores := ⟨P.state.commit n.stores.tokenState (point r.after).head, c⟩
    tokenLedger := (P.ledger.commitTxns n.tokenLedger r.newTxns.length).2
    domainLedger := (P.domainLedger.commitTxns n.domainLedger r.domain.length).2
    tokenTracker := (P.tracker.commitBatch n.tokenTracker).2
    feesTracker := { n.feesTracker with feesInCurrentBatch := 0 }
    batches := n.batches.tail }
  have hret : Returns commitStep n (r.domain.map reply) n' := by
    refine (returns_commitStep_domain h ho hp hl).mpr ⟨{ n' with batches := n.batches }, ?_, rfl⟩
    simp only [hlen, if_pos hpos, returns_bind, returns_pure, returns_ofExcept, onFeesTracker,
      returns_modify, returns_commitTokenTxns, returns_commitToUtxoCache]
    refine ⟨_, _, ⟨hroot, rfl, rfl⟩, (), _, ⟨hidr, c, hc, rfl⟩, _, _,
      ⟨?_, rfl⟩, (), _, rfl, rfl, rfl⟩
    rw [← hset]
    exact congrArg (setFeesOnReplies _ · _ _) htake
  obtain ⟨hpoint, hcom⟩ : point n' = point n ∧ committedPoint n' = point r.after :=
    points_committed h ho hp hcon rfl rfl
  have hcommitted : Committed n n' r rs := by
    refine ⟨P.domainLedger.contents_commit _ _, rfl, feesTracker_eq h ho, ?_, ho⟩
    show n.batches.tail = _
    rw [h.batches, hp]
    rfl
  refine ⟨n', hret, hpoint, hcom, hcommitted, inv_committed h ho hp hpoint hcom hcommitted ?_
    (congrArg Overlay.batches hcon) (congrArg Overlay.ops hcon)⟩
  show P.tracker.contents (P.tracker.commitBatch n.tokenTracker).2 = _
  rw [P.tracker.contents_commit, htrack]

/-- A batch without fees, none of whose transactions is marked. -/
theorem exists_commitStep_free (h : Inv Q n g) (ho : n.openBatch = none) (hp : g.pending = r :: rs)
    (hl : r.ledgerId = .domain) (hu : Unmarked n.feesTracker r) (ht : r.feeTxns = []) :
    ∃ n', Returns commitStep n (r.domain.map reply) n' ∧ point n' = point n ∧
      committedPoint n' = point r.after ∧ Committed n n' r rs ∧
      Inv Q n' (g.next n n' .commit) := by
  have htrack := commit_tracker h hp
  obtain ⟨hbefore, hok, -⟩ := queue_after h hp
  have htouched : ¬r.Touched := by
    rintro (he | hne)
    · rw [hl] at he; cases he
    · exact hne ht
  have hlen : (seqNosWithFees n.feesTracker (r.domain.map Prod.fst)).length = 0 := by
    rw [seqNosWithFees_eq h hp hu, List.length_map, length_filter_isSome]
    exact congrArg List.length ht
  have hset : r.domain.map Prod.fst = r.domain.map reply := by
    refine List.map_congr_left fun d hd => ?_
    obtain ⟨txn, _ | t⟩ := d
    · rfl
    · have : t ∈ r.feeTxns := List.mem_filterMap.mpr ⟨_, hd, rfl⟩
      rw [ht] at this
      cases this
  let n' : Node P := { committingDomain n r with batches := n.batches.tail }
  have hret : Returns commitStep n (r.domain.map reply) n' := by
    refine (returns_commitStep_domain h ho hp hl).mpr ⟨committingDomain n r, ?_, rfl⟩
    simp only [hlen, gt_iff_lt, lt_irrefl, if_false]
    exact returns_pure.mpr ⟨hset, rfl⟩
  have hcom : committedPoint n' = point r.after := by
    show committedPoint n = _
    rw [hok.untouched htouched, hbefore]
  have hcommitted : Committed n n' r rs := by
    refine ⟨P.domainLedger.contents_commit _ _, rfl, rfl, ?_, ho⟩
    show n.batches.tail = _
    rw [h.batches, hp]
    rfl
  refine ⟨n', hret, rfl, hcom, hcommitted, inv_committed h ho hp rfl hcom hcommitted ?_ ?_
    (h.start ho).2.2⟩
  · show P.tracker.contents (P.tracker.commitBatch n.tokenTracker).2 = _
    rw [P.tracker.contents_commit, htrack]
  · show (P.cache.contents n.stores.utxoCache).batches = _
    rw [h.cache, hp, List.filterMap_cons, BatchRec.cacheBatch, if_neg htouched]

/-- **A domain batch whose unpaid transactions are unmarked is committed.** -/
theorem exists_commitStep_domain (h : Inv Q n g) (ho : n.openBatch = none) (hp : g.pending = r :: rs)
    (hl : r.ledgerId = .domain) (hu : Unmarked n.feesTracker r) :
    ∃ n', Returns commitStep n (r.domain.map reply) n' ∧ point n' = point n ∧
      committedPoint n' = point r.after ∧ Committed n n' r rs ∧
      Inv Q n' (g.next n n' .commit) := by
  by_cases ht : r.feeTxns = []
  · exact exists_commitStep_free h ho hp hl hu ht
  · exact exists_commitStep_paid h ho hp hl hu ht

/-- More transactions are marked than have paid. -/
theorem lt_length_seqNosWithFees (h : Inv Q n g) (hp : g.pending = r :: rs)
    (hu : ¬Unmarked n.feesTracker r) :
    r.feeTxns.length < (seqNosWithFees n.feesTracker (r.domain.map Prod.fst)).length := by
  unfold Unmarked at hu
  push Not at hu
  obtain ⟨d, hd, hnone, hm⟩ := hu
  have hm : hasDeductedFees n.feesTracker d.1.type d.1.seqNo = true := by simpa using hm
  have hsub : (r.domain.filter fun d => d.2.isSome).length <
      (r.domain.filter fun d => hasDeductedFees n.feesTracker d.1.type d.1.seqNo).length := by
    have hpaid : (r.domain.filter fun d => d.2.isSome) =
        (r.domain.filter fun d => hasDeductedFees n.feesTracker d.1.type d.1.seqNo).filter
          fun d => d.2.isSome := by
      rw [List.filter_filter]
      refine List.filter_congr fun e he => ?_
      cases hs : e.2.isSome with
      | false => simp
      | true => simp [marked_of_paid h hp he hs]
    rw [hpaid, List.length_filter_lt_length_iff_exists]
    exact ⟨d, List.mem_filter.mpr ⟨hd, hm⟩, by simp [hnone]⟩
  have heq : (seqNosWithFees n.feesTracker (r.domain.map Prod.fst)).length =
      (r.domain.filter fun d => hasDeductedFees n.feesTracker d.1.type d.1.seqNo).length := by
    unfold seqNosWithFees
    rw [List.filter_map, List.length_map, List.length_map]
    rfl
  rw [heq, BatchRec.feeTxns, ← length_filter_isSome]
  exact hsub

/-- **A domain batch with a marked transaction that did not pay cannot be committed.** -/
theorem not_returns_commitStep (h : Inv Q n g) (ho : n.openBatch = none) (hp : g.pending = r :: rs)
    (hl : r.ledgerId = .domain) (hu : ¬Unmarked n.feesTracker r) {replies : List DomainTxn} :
    ¬Returns commitStep n replies n' := by
  intro hs
  obtain ⟨hbefore, hok, -⟩ := queue_after h hp
  have hlt := lt_length_seqNosWithFees h hp hu
  obtain ⟨m, hm, -⟩ := (returns_commitStep_domain h ho hp hl).mp hs
  have hpos : 0 < (seqNosWithFees n.feesTracker (r.domain.map Prod.fst)).length := by omega
  simp only [gt_iff_lt, if_pos hpos, returns_bind, returns_pure, returns_ofExcept,
    returns_commitTokenTxns] at hm
  obtain ⟨_, _, ⟨hroot, rfl, rfl⟩, _, _, -, _, _, ⟨hset, rfl⟩, -⟩ := hm
  -- the root of the batch is that of the transactions that were paid, so too few were taken
  have htake : (P.ledger.contents n.tokenLedger).uncommitted.take
      (seqNosWithFees n.feesTracker (r.domain.map Prod.fst)).length = r.feeTxns := by
    have htxns := P.ledger.treeRoot_injective hroot
    have hafter : tokenTxns r.after = (committedPoint n).txns ++ r.feeTxns := by
      rw [← hbefore, ← hok.domain hl]
      exact hok.txns
    rw [hafter] at htxns
    exact List.append_cancel_left htxns
  rw [show (P.ledger.contents (committingDomain n r).tokenLedger).uncommitted.take _ = r.feeTxns
    from htake] at hset
  have hle := length_le_of_setFeesOnReplies (Nat.zero_le _) hset
  have hmem : (seqNosWithFees n.feesTracker (r.domain.map Prod.fst)).length ≤
      ((r.domain.map Prod.fst).filter fun txn =>
        txn.seqNo ∈ seqNosWithFees n.feesTracker (r.domain.map Prod.fst)).length := by
    conv_lhs => rw [seqNosWithFees, List.length_map]
    rw [← List.countP_eq_length_filter, ← List.countP_eq_length_filter]
    refine List.countP_mono_left fun txn htxn hm => ?_
    simp only [decide_eq_true_eq]
    exact List.mem_map.mpr ⟨txn, List.mem_filter.mpr ⟨htxn, hm⟩, rfl⟩
  omega

/-- What a commit that returns has done. -/
theorem committed_of_returns (h : Inv Q n g) (ho : n.openBatch = none) {replies : List DomainTxn}
    (hs : Returns commitStep n replies n') : ∃ r rs, g.pending = r :: rs ∧ point n' = point n ∧
      committedPoint n' = point r.after ∧ Committed n n' r rs ∧ Inv Q n' (g.next n n' .commit) := by
  cases hp : g.pending with
  | nil =>
    unfold commitStep at hs
    simp only [returns_bind, returns_get, returns_orRaise] at hs
    obtain ⟨_, _, ⟨rfl, rfl⟩, _, _, ⟨hhead, -⟩, -⟩ := hs
    rw [h.batches, hp] at hhead
    cases hhead
  | cons r rs =>
    refine ⟨r, rs, rfl, ?_⟩
    cases hl : r.ledgerId with
    | token =>
      obtain ⟨m, hm, hrest⟩ := exists_commitStep_token h ho hp hl
      rwa [(hs.unique hm).2]
    | domain =>
      by_cases hu : Unmarked n.feesTracker r
      · obtain ⟨m, hm, hrest⟩ := exists_commitStep_domain h ho hp hl hu
        rwa [(hs.unique hm).2]
      · exact absurd hs (not_returns_commitStep h ho hp hl hu)

/-- **Committing the oldest batch keeps the invariant.** -/
theorem inv_commit (h : Inv Q n g) (ho : n.openBatch = none) {replies : List DomainTxn}
    (hs : Returns commitStep n replies n') : Inv Q n' (g.next n n' .commit) := by
  obtain ⟨_, _, _, _, _, _, hinv⟩ := committed_of_returns h ho hs
  exact hinv

end TokenPlugin.Committing
