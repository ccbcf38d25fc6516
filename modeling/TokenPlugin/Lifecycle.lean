import TokenPlugin.Properties.CatchUp

/-! # Nodes that stop and catch up

A node may stop between two steps and be started again on what it has on disk, and a node with nothing
uncommitted may be given the transactions that another node has committed. `Lived` is the node after
any number of steps, restarts and catch-ups, in any order; the nodes that it catches up from have lived
in the same way. Every such node satisfies the invariant of a run. -/

namespace TokenPlugin.Lifecycle

open Python Token.Types Token.Handlers Token.Views Token.History Database Node Steps Effects Invariant
open Applying Runs Replay Properties.CatchUp Lib.Program Lib.Staged Reference
open Lib.Program.Prog (modify)

/-! ### The storage -/

/-- What the storage of a node does beyond its runs: each part is opened again with what is committed,
and a transaction that another node has committed is added. -/
structure Storage (P : Platform) where
  openState : P.state.Carrier → P.state.Carrier
  openCache : P.cache.Carrier → P.cache.Carrier
  openLedger : P.ledger.Carrier → P.ledger.Carrier
  openDomainLedger : P.domainLedger.Carrier → P.domainLedger.Carrier
  /-- `Ledger.add`. -/
  add : P.ledger.Carrier → TokenTxn → P.ledger.Carrier
  addDomain : P.domainLedger.Carrier → DomainTxn → P.domainLedger.Carrier
  /-- `Ledger.size`. -/
  size : P.ledger.Carrier → ℕ
  /-- `LedgerUncommittedTracker.set_last_committed`. -/
  setLastCommitted : P.tracker.Carrier → P.state.Root → P.ledger.Hash → ℕ → P.tracker.Carrier
  head_open : ∀ s, P.state.headHash (openState s) = P.state.committedHeadHash s
  committed_open : ∀ s, P.state.committedHeadHash (openState s) = P.state.committedHeadHash s
  contents_openCache : ∀ c, P.cache.contents (openCache c) = ⟨(P.cache.contents c).store, [], []⟩
  contents_openLedger : ∀ l, P.ledger.contents (openLedger l) = ⟨(P.ledger.contents l).committed, []⟩
  contents_openDomainLedger : ∀ l, P.domainLedger.contents (openDomainLedger l) =
    ⟨(P.domainLedger.contents l).committed, []⟩
  contents_add : ∀ l t, (P.ledger.contents l).uncommitted = [] →
    P.ledger.contents (add l t) = ⟨(P.ledger.contents l).committed ++ [t], []⟩
  contents_addDomain : ∀ l t, (P.domainLedger.contents l).uncommitted = [] →
    P.domainLedger.contents (addDomain l t) = ⟨(P.domainLedger.contents l).committed ++ [t], []⟩
  size_eq : ∀ l, size l = (P.ledger.contents l).committed.length
  contents_setLastCommitted : ∀ t r h n, P.tracker.contents (setLastCommitted t r h n) =
    { P.tracker.contents t with last := ⟨r, h, n⟩ }

attribute [simp] Storage.head_open Storage.committed_open Storage.contents_openCache
  Storage.contents_openLedger Storage.contents_openDomainLedger Storage.size_eq
  Storage.contents_setLastCommitted

variable {P : Platform} (S : Storage P)

/-- A node that is started again. `init_storages` opens what is on disk, `register_trackers` makes new
trackers for it; `fees` is the fees map of the config state that is opened. -/
def Storage.restart (fees : FeesMap) (n : Node P) : Node P :=
  let tokenState := S.openState n.stores.tokenState
  let tokenLedger := S.openLedger n.tokenLedger
  { stores := ⟨tokenState, S.openCache n.stores.utxoCache⟩
    tokenLedger := tokenLedger
    domainLedger := S.openDomainLedger n.domainLedger
    tokenTracker := P.tracker.new (P.state.committedHeadHash tokenState)
      (P.ledger.uncommittedRootHash tokenLedger) (S.size tokenLedger)
    feesTracker := ⟨0, []⟩
    configFees := fees
    batches := []
    openBatch := none }

/-- A transaction of the token ledger that is caught up: it is added to the ledger, `restore_state`
applies it and commits the state. -/
def Storage.catchUpTxn (txn : TokenTxn) : Py (Node P) Unit := do
  modify fun n => n.setTokenLedger (S.add n.tokenLedger txn)
  onStores (replayTxn P true txn)
  modify fun n => n.setTokenState (P.state.commit n.stores.tokenState
    (P.state.headHash n.stores.tokenState))

/-- A transaction of the domain ledger that is caught up; `DomainFeeHandler.update_state` does
nothing. -/
def Storage.catchUpDomainTxn (txn : DomainTxn) : Py (Node P) Unit :=
  modify fun n => { n with domainLedger := S.addDomain n.domainLedger txn }

/-- `postCatchupCompleteClbk`. -/
def Storage.postCatchupComplete : Py (Node P) Unit :=
  modify fun n => n.setTokenTracker (S.setLastCommitted n.tokenTracker
    (P.state.committedHeadHash n.stores.tokenState) (P.ledger.uncommittedRootHash n.tokenLedger)
    (S.size n.tokenLedger))

/-- A catch-up: the domain ledger first, then the token ledger. -/
def Storage.catchUp (txns : List TokenTxn) (domainTxns : List DomainTxn) : Py (Node P) Unit := do
  domainTxns.forM S.catchUpDomainTxn
  txns.forM S.catchUpTxn
  S.postCatchupComplete

/-! ### Lives -/

/-- plenum takes back every uncommitted batch before it catches up. -/
def Idle (n : Node P) : Prop := n.batches = [] ∧ n.openBatch = none

/-- The committed transactions of the domain ledger. -/
def domainLedgerTxns (n : Node P) : List DomainTxn := (P.domainLedger.contents n.domainLedger).committed

/-- The record of a node with nothing uncommitted. -/
def idleTrace (n : Node P) (labels : List Label) : Trace P := ⟨[], n, [], labels⟩

/-- The nodes that are reached by steps that `ok` allows, by restarts, and by catching up with nodes
that are reached in this way and have committed more. -/
inductive Lived (ok : Action → Prop) : Node P → Trace P → Prop
  | new : Lived ok .new .new
  | step {n n' : Node P} {g : Trace P} {a : Action} (h : Lived ok n g) (ha : ok a)
      (he : Enabled n a) (hs : Returns (step a) n () n') : Lived ok n' (g.next n n' a)
  | restart {n : Node P} {g : Trace P} (fees : FeesMap) (h : Lived ok n g) :
      Lived ok (S.restart fees n) (idleTrace (S.restart fees n) (g.labels.take (ledgerTxns n).length))
  | catchUp {n n' d : Node P} {g gd : Trace P} {txns : List TokenTxn} {dtxns : List DomainTxn}
      (h : Lived ok n g) (hd : Lived ok d gd) (hi : Idle n)
      (ht : ledgerTxns d = ledgerTxns n ++ txns)
      (hdt : domainLedgerTxns d = domainLedgerTxns n ++ dtxns)
      (hs : Returns (S.catchUp txns dtxns) n () n') :
      Lived ok n' (idleTrace n' (gd.labels.take (ledgerTxns d).length))

variable {S} {Q : Entry → View → Prop} {n n' d : Node P} {g gd : Trace P} {ok : Action → Prop}
  {txns : List TokenTxn} {dtxns : List DomainTxn}

/-- A run is a life without restarts and catch-ups. -/
theorem lived_of_reach (h : Reach ok n g) : Lived S ok n g := by
  induction h with
  | new => exact .new
  | step _ ha he hs ih => exact .step ih ha he hs

/-! ### Restarts -/

theorem point_restart (fees : FeesMap) : point (S.restart fees n) = committedPoint n ∧
    committedPoint (S.restart fees n) = committedPoint n := by
  constructor <;> refine Point.ext ?_ ?_ ?_
  · exact S.head_open _
  · simp [point, tokenTxns, Storage.restart, committedPoint, Log.all]
  · simp only [point, Storage.restart, S.contents_openCache, committedPoint]
    rfl
  · exact S.committed_open _
  · simp [Storage.restart, committedPoint]
  · simp [Storage.restart, committedPoint]

theorem length_ledgerTxns_le (h : Inv Q n g) : (ledgerTxns n).length ≤ g.labels.length := h.base.length_le

/-- **A node that is started again** satisfies the invariant, with what it had committed. -/
theorem inv_restart (h : Inv Q n g) (fees : FeesMap) : Inv Q (S.restart fees n)
    (idleTrace (S.restart fees n) (g.labels.take (ledgerTxns n).length)) := by
  obtain ⟨hpoint, hcom⟩ := point_restart (S := S) (n := n) fees
  have htxns : tokenTxns (S.restart fees n) = ledgerTxns n := congrArg Point.txns hpoint
  have hcache : P.cache.contents (S.restart fees n).stores.utxoCache =
      ⟨(P.cache.contents n.stores.utxoCache).store, [], []⟩ := S.contents_openCache _
  have hdomain : P.domainLedger.contents (S.restart fees n).domainLedger =
      ⟨domainLedgerTxns n, []⟩ := S.contents_openDomainLedger _
  refine inv_idle (hcom.trans hpoint.symm) ?_ ?_ ?_ (congrArg Overlay.batches hcache)
    (congrArg Overlay.ops hcache) rfl (congrArg Log.uncommitted hdomain) ?_ rfl rfl
  · rw [htxns, List.length_take]
    exact Nat.min_eq_left (length_ledgerTxns_le h)
  · rw [hpoint]
    exact h.base.take le_rfl
  · show P.tracker.contents (P.tracker.new _ _ _) = _
    rw [P.tracker.contents_new, hpoint]
    simp [Point.mark, committedPoint, Log.all]
  · intro i txn hi
    refine h.domain.seqNo i txn ?_
    replace hi : (domainLedgerTxns n)[i]? = some txn := by
      rwa [domainTxns, hdomain, Log.all, List.append_nil] at hi
    rw [domainTxns, Log.all, ← domainLedgerTxns,
      List.getElem?_append_left (List.getElem?_eq_some_iff.mp hi).1, hi]

/-! ### Catching up -/

theorem pending_of_idle (h : Inv Q n g) (hi : Idle n) : g.pending = [] := by
  have := h.batches
  rw [hi.1] at this
  exact List.map_eq_nil_iff.mp this.symm

/-- A node with nothing uncommitted reads what it has committed. -/
theorem point_of_idle (h : Inv Q n g) (hi : Idle n) : committedPoint n = point n := by
  have hq := h.queue
  rw [pending_of_idle h hi, (h.start hi.2).1] at hq
  exact hq.linked

/-- What the transactions of the token ledger that are caught up leave behind. -/
structure CaughtUp (n n' : Node P) (txns : List TokenTxn) : Prop where
  ledger : P.ledger.contents n'.tokenLedger = ⟨ledgerTxns n ++ txns, []⟩
  head : P.state.committedHeadHash n'.stores.tokenState = P.state.headHash n'.stores.tokenState
  pending : pendingPart n'.stores = pendingPart n.stores
  rest : n' = { n with stores := n'.stores, tokenLedger := n'.tokenLedger }

theorem CaughtUp.refl (hl : (P.ledger.contents n.tokenLedger).uncommitted = [])
    (hh : P.state.committedHeadHash n.stores.tokenState = P.state.headHash n.stores.tokenState) :
    CaughtUp n n [] :=
  ⟨by rw [List.append_nil, ledgerTxns, ← hl], hh, rfl, rfl⟩

theorem CaughtUp.trans {m : Node P} {ts us : List TokenTxn} (h : CaughtUp n m ts)
    (h' : CaughtUp m n' us) : CaughtUp n n' (ts ++ us) where
  ledger := by rw [h'.ledger, ledgerTxns, h.ledger, List.append_assoc]
  head := h'.head
  pending := h'.pending.trans h.pending
  rest := by
    have := h'.rest
    rw [h.rest] at this
    exact this

/-- One transaction, on a node with nothing uncommitted. -/
theorem exists_catchUpTxn {txn : TokenTxn} {v : View}
    (hl : (P.ledger.contents n.tokenLedger).uncommitted = [])
    (hr : Returns (replayTxn P true txn) (direct n.stores) () v) :
    ∃ n', Returns (S.catchUpTxn txn) n () n' ∧ CaughtUp n n' [txn] ∧ direct n'.stores = v := by
  obtain ⟨s, hs, hv, hpend⟩ := (sim_replayTxn (rel_direct n.stores true) txn).returns_of ⟨rfl, rfl⟩ hr
  let n' : Node P := { n with
    stores := { s with tokenState := P.state.commit s.tokenState (P.state.headHash s.tokenState) }
    tokenLedger := S.add n.tokenLedger txn }
  have hret : Returns (S.catchUpTxn txn) n () n' := by
    unfold Storage.catchUpTxn
    simp only [returns_bind, returns_modify, returns_onStores]
    exact ⟨(), _, rfl, (), _, ⟨s, hs, rfl⟩, rfl⟩
  refine ⟨n', hret, ⟨S.contents_add _ _ hl, ?_, hpend, rfl⟩, ?_⟩
  · show P.state.committedHeadHash (P.state.commit _ _) = P.state.headHash (P.state.commit _ _)
    rw [P.state.committed_commit, P.state.head_commit]
  · rw [← hv]
    exact View.ext (congrArg P.state.lookup (P.state.head_commit _ _)) rfl

/-- **The transactions that are caught up** have the effect of replaying them. -/
theorem exists_catchUpTxns {v : View} (hl : (P.ledger.contents n.tokenLedger).uncommitted = [])
    (hh : P.state.committedHeadHash n.stores.tokenState = P.state.headHash n.stores.tokenState)
    (hr : Returns (replay P txns true) (direct n.stores) () v) :
    ∃ n', Returns (txns.forM S.catchUpTxn) n () n' ∧ CaughtUp n n' txns ∧ direct n'.stores = v := by
  induction txns generalizing n with
  | nil => exact ⟨n, returns_forM_nil.mpr rfl, .refl hl hh, (returns_forM_nil.mp hr)⟩
  | cons txn txns ih =>
    obtain ⟨u, hu, hr⟩ := returns_forM_cons.mp hr
    obtain ⟨m, hm, hc, rfl⟩ := exists_catchUpTxn (S := S) hl hu
    obtain ⟨n', hn', hc', hv⟩ := ih (congrArg Log.uncommitted hc.ledger) hc.head hr
    exact ⟨n', returns_forM_cons.mpr ⟨m, hm, hn'⟩, hc.trans hc', hv⟩

/-- The transactions of the domain ledger that are caught up. -/
theorem exists_catchUpDomainTxns (dtxns : List DomainTxn)
    (hl : (P.domainLedger.contents n.domainLedger).uncommitted = []) :
    ∃ l, Returns (dtxns.forM S.catchUpDomainTxn) n () { n with domainLedger := l } ∧
      P.domainLedger.contents l = ⟨domainLedgerTxns n ++ dtxns, []⟩ := by
  induction dtxns generalizing n with
  | nil => exact ⟨n.domainLedger, returns_forM_nil.mpr rfl, by rw [List.append_nil, domainLedgerTxns, ← hl]⟩
  | cons txn dtxns ih =>
    have hadd := S.contents_addDomain n.domainLedger txn hl
    obtain ⟨l, hret, hcon⟩ := @ih { n with domainLedger := S.addDomain n.domainLedger txn }
      (congrArg Log.uncommitted hadd)
    refine ⟨l, returns_forM_cons.mpr ⟨_, returns_modify.mpr rfl, hret⟩, ?_⟩
    rw [hcon, domainLedgerTxns, hadd, List.append_assoc]
    rfl

/-- What a catch-up of `n` leads to, in terms of the node `d` that it catches up with. -/
structure UpTo (n n' d : Node P) : Prop where
  ledger : P.ledger.contents n'.tokenLedger = ⟨ledgerTxns d, []⟩
  domainLedger : P.domainLedger.contents n'.domainLedger = ⟨domainLedgerTxns d, []⟩
  point : committedPoint n' = Invariant.point n'
  view : (committedPoint n').view = (committedPoint d).view
  idle : Idle n'
  feesTracker : n'.feesTracker = n.feesTracker
  configFees : n'.configFees = n.configFees

/-- The transactions that a node lacks can be replayed on what it has committed. -/
theorem returns_replay_lacking (h : Inv NotOld n g) (hd : Inv NotOld d gd) (hi : Idle n)
    (ht : ledgerTxns d = ledgerTxns n ++ txns) :
    Returns (replay P txns true) (direct n.stores) () (committedPoint d).view := by
  have hall : Returns (replay P (ledgerTxns d) true) .empty () (committedPoint d).view :=
    returns_replay_builtAt hd.base
  rw [ht] at hall
  obtain ⟨v, hv, hrest⟩ := replay_append.mp hall
  obtain rfl := (hv.unique (returns_replay_builtAt (c := true) h.base)).2
  have hview : direct n.stores = (committedPoint n).view :=
    View.ext (congrArg (fun x : Point P => P.state.lookup x.head) (point_of_idle h hi).symm) rfl
  rwa [hview]

/-- **A catch-up never raises**, and leads to what the other node has committed. -/
theorem exists_catchUp (h : Inv Q n g) (hd : Inv Q d gd) (hQ : ∀ e v, Q e v → NotOld e v)
    (hi : Idle n) (ht : ledgerTxns d = ledgerTxns n ++ txns)
    (hdt : domainLedgerTxns d = domainLedgerTxns n ++ dtxns) :
    ∃ n', Returns (S.catchUp txns dtxns) n () n' ∧ UpTo n n' d ∧
      Inv Q n' (idleTrace n' (gd.labels.take (ledgerTxns d).length)) := by
  have hpoint := point_of_idle h hi
  have hpending := pending_of_idle h hi
  obtain ⟨-, hgd, hops⟩ := h.start hi.2
  have hl : (P.ledger.contents n.tokenLedger).uncommitted = [] := by
    have : (committedPoint n).txns ++ _ = (point n).txns := rfl
    rw [hpoint] at this
    exact List.append_right_eq_self.mp this
  have hdl : (P.domainLedger.contents n.domainLedger).uncommitted = [] := by
    rw [h.domain.uncommitted, hpending, hgd]
    rfl
  obtain ⟨l, hdret, hdcon⟩ := exists_catchUpDomainTxns (S := S) dtxns hdl
  have hreplay := returns_replay_lacking (h.imp hQ) (hd.imp hQ) hi ht
  obtain ⟨m, hm, hc, hv⟩ := exists_catchUpTxns (S := S) (n := { n with domainLedger := l }) hl
    (congrArg Point.head hpoint) hreplay
  obtain ⟨hledger, hhead, hpend, hrest⟩ := hc
  let n' : Node P := m.setTokenTracker (S.setLastCommitted m.tokenTracker
    (P.state.committedHeadHash m.stores.tokenState) (P.ledger.uncommittedRootHash m.tokenLedger)
    (S.size m.tokenLedger))
  have hret : Returns (S.catchUp txns dtxns) n () n' := by
    unfold Storage.catchUp Storage.postCatchupComplete
    simp only [returns_bind, returns_modify]
    exact ⟨(), _, hdret, (), m, hm, rfl⟩
  have hledger : P.ledger.contents n'.tokenLedger = ⟨ledgerTxns d, []⟩ := by rw [ht]; exact hledger
  have hdomain : P.domainLedger.contents n'.domainLedger = ⟨domainLedgerTxns d, []⟩ := by
    rw [hdt, ← hdcon]
    show P.domainLedger.contents m.domainLedger = _
    rw [hrest]
  have hbatches : (P.cache.contents n'.stores.utxoCache).batches = [] := by
    refine (congrArg Prod.fst hpend).trans ?_
    show (P.cache.contents n.stores.utxoCache).batches = []
    rw [h.cache, hpending]
    rfl
  have hops' : (P.cache.contents n'.stores.utxoCache).ops = [] := (congrArg Prod.snd hpend).trans hops
  have hpoint' : committedPoint n' = point n' := by
    refine Point.ext hhead ?_ ?_
    · show (P.ledger.contents n'.tokenLedger).committed = (P.ledger.contents n'.tokenLedger).all
      rw [hledger, Log.all, List.append_nil]
    · show (P.cache.contents n'.stores.utxoCache).store = (P.cache.contents n'.stores.utxoCache).read
      rw [Overlay.read, hbatches, hops']
      rfl
  have hview : (committedPoint n').view = (committedPoint d).view := by
    rw [hpoint', ← hv]
    refine View.ext rfl ?_
    show (P.cache.contents n'.stores.utxoCache).read = (P.cache.contents n'.stores.utxoCache).store
    rw [Overlay.read, hbatches, hops']
    rfl
  have htxns : tokenTxns n' = ledgerTxns d := by rw [tokenTxns, hledger, Log.all, List.append_nil]
  have hidle : Idle n' := by
    refine ⟨?_, ?_⟩
    · show m.batches = []
      rw [hrest]
      exact hi.1
    · show m.openBatch = none
      rw [hrest]
      exact hi.2
  have hfees : n'.feesTracker = n.feesTracker := by
    show m.feesTracker = _
    rw [hrest]
  have hconfig : n'.configFees = n.configFees := by
    show m.configFees = _
    rw [hrest]
  refine ⟨n', hret, ⟨hledger, hdomain, hpoint', hview, hidle, hfees, hconfig⟩,
    inv_idle hpoint' ?_ ?_ ?_ hbatches hops' hidle.1 (congrArg Log.uncommitted hdomain) ?_ ?_ hidle.2⟩
  · rw [htxns, List.length_take]
    exact Nat.min_eq_left (length_ledgerTxns_le hd)
  · have hbase := hd.base.take (k := (ledgerTxns d).length) le_rfl
    rw [← hpoint']
    have htx : (committedPoint n').txns = (committedPoint d).txns := by
      show (P.ledger.contents n'.tokenLedger).committed = _
      rw [hledger]
      rfl
    exact ⟨htx ▸ hbase.length_le, by rw [htx, hview]; exact hbase.built⟩
  · show P.tracker.contents (S.setLastCommitted m.tokenTracker _ _ _) = _
    rw [S.contents_setLastCommitted, show m.tokenTracker = n.tokenTracker by rw [hrest], h.tracker,
      hpending, ← hpoint']
    have hm : P.ledger.contents m.tokenLedger = ⟨ledgerTxns d, []⟩ := hledger
    simp [Point.mark, committedPoint, hm, n', Log.all]
  · intro i txn hi'
    replace hi' : (domainLedgerTxns d)[i]? = some txn := by
      rwa [domainTxns, hdomain, Log.all, List.append_nil] at hi'
    refine hd.domain.seqNo i txn ?_
    rw [domainTxns, Log.all, ← domainLedgerTxns,
      List.getElem?_append_left (List.getElem?_eq_some_iff.mp hi').1, hi']
  · rw [hfees]
    exact h.domain.counter.trans (by rw [hgd]; rfl)

/-- A catch-up that has returned. -/
theorem upTo_of_returns (h : Inv Q n g) (hd : Inv Q d gd) (hQ : ∀ e v, Q e v → NotOld e v)
    (hi : Idle n) (ht : ledgerTxns d = ledgerTxns n ++ txns)
    (hdt : domainLedgerTxns d = domainLedgerTxns n ++ dtxns)
    (hs : Returns (S.catchUp txns dtxns) n () n') :
    UpTo n n' d ∧ Inv Q n' (idleTrace n' (gd.labels.take (ledgerTxns d).length)) := by
  obtain ⟨m, hm, hrest⟩ := exists_catchUp (S := S) h hd hQ hi ht hdt
  rwa [(hs.unique hm).2]

/-! ### Every life -/

/-- **Every life keeps the invariant.** -/
theorem lived_inv (hQ : Admitted P ok Q) (hold : ∀ e v, Q e v → NotOld e v) (h : Lived S ok n g) :
    Inv Q n g := by
  induction h with
  | new => exact inv_new
  | step _ ha he hs ih => exact inv_step hQ ih ha he hs
  | restart fees _ ih => exact inv_restart ih fees
  | catchUp _ _ hi ht hdt hs ihn ihd => exact (upTo_of_returns ihn ihd hold hi ht hdt hs).2

theorem lived_inv_notOld (h : Lived S Current n g) : Inv NotOld n g :=
  lived_inv admitted_notOld (fun _ _ => id) h

/-! ### A storage to live on -/

/-- What is on disk is the committed part of each list. -/
def storage : Storage ref where
  openState s := (s.2, s.2)
  openCache o := { o with batches := [], ops := [] }
  openLedger l := { l with uncommitted := [] }
  openDomainLedger l := { l with uncommitted := [] }
  add l t := { l with committed := l.committed ++ [t] }
  addDomain l t := { l with committed := l.committed ++ [t] }
  size l := l.committed.length
  setLastCommitted t r h n := { t with last := ⟨r, h, n⟩ }
  head_open _ := rfl
  committed_open _ := rfl
  contents_openCache _ := rfl
  contents_openLedger _ := rfl
  contents_openDomainLedger _ := rfl
  contents_add l t hl := congrArg (Log.mk (l.committed ++ [t])) hl
  contents_addDomain l t hl := congrArg (Log.mk (l.committed ++ [t])) hl
  size_eq _ := rfl
  contents_setLastCommitted _ _ _ _ := rfl

theorem lived_sample : Lived storage Current sampleNode sampleTrace :=
  lived_of_reach (reach_sample Current (by decide +kernel))

/-- A new node that has caught up with the node of the sample run. -/
def joinedNode : Node ref := (storage.catchUp (ledgerTxns sampleNode) (domainLedgerTxns sampleNode) .new).2

theorem returns_joinedNode : Returns (storage.catchUp (ledgerTxns sampleNode)
    (domainLedgerTxns sampleNode)) (.new : Node ref) () joinedNode := returns_of_fst (by decide +kernel)

/-- The record of that node. -/
def joinedTrace : Trace ref :=
  idleTrace joinedNode (sampleTrace.labels.take (ledgerTxns sampleNode).length)

theorem lived_joinedNode : Lived storage Current joinedNode joinedTrace :=
  .catchUp .new lived_sample ⟨rfl, rfl⟩ (List.nil_append _).symm (List.nil_append _).symm
    returns_joinedNode

end TokenPlugin.Lifecycle
