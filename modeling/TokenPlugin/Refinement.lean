import TokenPlugin.Lib.StagedLedger
import TokenPlugin.Lifecycle

/-! # A node refines a ledger with batches

What a node is for, as far as tokens go: a ledger of transactions that come in batches, each of which
spends outputs that are unspent when it joins. `staged` reads that ledger off a node: the marks of the
tracker cut the uncommitted transactions into batches. Along the life of a node, every step, restart and
catch-up is the event of the ledger that it should be, and allowed there. -/

namespace TokenPlugin.Refinement

open Python Token.Types Token.Handlers Token.Views Token.Coins Token.Updates Token.History Database Node
open Steps Effects Invariant Applying Closing Rejecting Committing Runs Replay Lifecycle
open Properties.CatchUp Lib.Utxo Lib.Program Lib.Staged Lib.StagedLedger Reference

variable {P : Platform} {S : Storage P} {Q : Entry → View → Prop} {n n' : Node P} {g g' : Trace P}
  {ok : Action → Prop} {a : Action}

/-! ### The ledger of a node -/

/-- The transaction may follow the ledger: it has the next number, pays each address once, and its
inputs name unspent outputs, each of them once. A mint has no inputs. -/
structure MayFollow (L : List TokenTxn) (t : TokenTxn) : Prop where
  seqNo : t.seqNo = L.length + 1
  type : t.type = mintPublic ∧ t.inputs = [] ∨ t.type = xferPublic ∨ t.type = feeTxn
  nodup : (t.outputs.map OutputSpec.address).Nodup
  numbers : ∀ i ∈ t.inputs, ∃ k : ℕ, i.seqNo = .int k
  spends : ∃ U, Spends (unspent (L.map toTx)) (toTx t).ins U

/-- The ledger that a node holds. -/
def staged (n : Node P) : Ledger TokenTxn :=
  let log := P.ledger.contents n.tokenLedger
  let parts := cut log.committed.length ((P.tracker.contents n.tokenTracker).pending.map Mark.size)
    log.uncommitted
  ⟨log.committed, parts.1, parts.2⟩

/-- What a step means for the ledger. -/
def eventOf (n n' : Node P) : Action → Event TokenTxn
  | .apply _ _ _ _ => .append ((tokenTxns n').drop (tokenTxns n).length)
  | .close _ => .close
  | .reject => .reject
  | .commit => .commit
  | .config _ => .append []

variable (S) in
/-- The later life of a node by steps that `ok` allows, with what has happened to its ledger. -/
inductive Onward (ok : Action → Prop) (n : Node P) (g : Trace P) :
    List (Event TokenTxn) → Node P → Trace P → Prop
  | refl : Onward ok n g [] n g
  | step {m n' : Node P} {gm : Trace P} {es : List (Event TokenTxn)} {a : Action}
      (h : Onward ok n g es m gm) (ha : ok a) (he : Enabled m a) (hs : Returns (step a) m () n') :
      Onward ok n g (es ++ [eventOf m n' a]) n' (gm.next m n' a)
  | restart {m : Node P} {gm : Trace P} {es : List (Event TokenTxn)} (fees : FeesMap)
      (h : Onward ok n g es m gm) : Onward ok n g (es ++ [.drop]) (S.restart fees m)
        (idleTrace (S.restart fees m) (gm.labels.take (ledgerTxns m).length))
  | catchUp {m n' d : Node P} {gm gd : Trace P} {es : List (Event TokenTxn)}
      {txns : List TokenTxn} {dtxns : List DomainTxn} (h : Onward ok n g es m gm)
      (hd : Lived S Current d gd) (hi : Idle m) (ht : ledgerTxns d = ledgerTxns m ++ txns)
      (hdt : domainLedgerTxns d = domainLedgerTxns m ++ dtxns)
      (hs : Returns (S.catchUp txns dtxns) m () n') : Onward ok n g (es ++ [.extend txns]) n'
        (idleTrace n' (gd.labels.take (ledgerTxns d).length))

theorem Onward.imp {ok' : Action → Prop} {es : List (Event TokenTxn)} (hok : ∀ a, ok a → ok' a)
    (ho : Onward S ok n g es n' g') : Onward S ok' n g es n' g' := by
  induction ho with
  | refl => exact .refl
  | step _ ha he hs ih => exact .step ih (hok _ ha) he hs
  | restart fees _ ih => exact .restart fees ih
  | catchUp _ hd hi ht hdt hs ih => exact .catchUp ih hd hi ht hdt hs

/-- A step before a later life. -/
theorem Onward.cons {m : Node P} {es : List (Event TokenTxn)} (ha : ok a) (he : Enabled n a)
    (hs : Returns (Steps.step a) n () m) (ho : Onward S ok m (g.next n m a) es n' g') :
    Onward S ok n g (eventOf n m a :: es) n' g' := by
  induction ho with
  | refl => exact .step .refl ha he hs
  | step _ ha he hs ih => exact .step ih ha he hs
  | restart fees _ ih => exact .restart fees ih
  | catchUp _ hd hi ht hdt hs ih => exact .catchUp ih hd hi ht hdt hs

theorem Onward.lived {es : List (Event TokenTxn)} (h : Lived S Current n g)
    (ho : Onward S Current n g es n' g') : Lived S Current n' g' := by
  induction ho with
  | refl => exact h
  | step _ ha he hs ih => exact .step ih ha he hs
  | restart fees _ ih => exact .restart fees ih
  | catchUp _ hd hi ht hdt hs ih => exact .catchUp ih hd hi ht hdt hs

/-- Every life is the later life of a new node. -/
theorem exists_onward (h : Lived S Current n g) : ∃ es, Onward S Current .new .new es n g := by
  induction h with
  | new => exact ⟨[], .refl⟩
  | step _ ha he hs ih =>
    obtain ⟨es, ho⟩ := ih
    exact ⟨_, .step ho ha he hs⟩
  | restart fees _ ih =>
    obtain ⟨es, ho⟩ := ih
    exact ⟨_, .restart fees ho⟩
  | catchUp _ hd hi ht hdt hs ih _ =>
    obtain ⟨es, ho⟩ := ih
    exact ⟨_, .catchUp ho hd hi ht hdt hs⟩

/-! ### What the node holds, in terms of its record -/

theorem txs_zip {xs : List TokenTxn} {labels : List Label} (h : xs.length ≤ labels.length) :
    txs (xs.zip labels) = xs.map toTx := by
  rw [txs, show (fun e : Entry => toTx e.1) = toTx ∘ Prod.fst from rfl, ← List.map_map,
    List.map_fst_zip h]

/-- The transactions of a batch end where its point says. -/
theorem size_eq {x y : Point P} {rs qs : List (BatchRec P)} {r : BatchRec P} (h : Queue x rs y)
    (hp : qs ++ [r] <+: rs) : (point r.after).mark.size =
      x.txns.length + (qs.flatMap BatchRec.newTxns).length + r.newTxns.length := by
  obtain ⟨ss, rfl⟩ := hp
  obtain ⟨m, hq, -⟩ := h.of_append
  obtain ⟨hq, hok, -⟩ := Queue.concat_iff.mp hq
  show (tokenTxns r.after).length = _
  rw [hok.txns, List.length_append, show tokenTxns r.before = (point r.before).txns from rfl, hq.txns,
    List.length_append]

/-- The transactions of the open batch. -/
theorem tokenTxns_eq (h : Inv Q n g) :
    tokenTxns n = tokenTxns g.start ++ (tokenTxns n).drop (tokenTxns g.start).length := by
  have hpre : tokenTxns g.start <+: tokenTxns n := by
    cases hb : n.openBatch with
    | none => rw [(h.start hb).1]
    | some b =>
      obtain ⟨newTxns, ho⟩ := h.opened b hb
      rw [ho.txns]
      exact List.prefix_append _ _
  obtain ⟨ts, hts⟩ := hpre
  rw [← hts, List.drop_left]

/-- **The marks of the tracker are those of the batches.** -/
theorem staged_eq (h : Inv Q n g) : staged n = ⟨ledgerTxns n, g.pending.map BatchRec.newTxns,
    (tokenTxns n).drop (tokenTxns g.start).length⟩ := by
  have htxns : tokenTxns g.start = ledgerTxns n ++ g.pending.flatMap BatchRec.newTxns := h.queue.txns
  have hrest : (P.ledger.contents n.tokenLedger).uncommitted =
      g.pending.flatMap BatchRec.newTxns ++ (tokenTxns n).drop (tokenTxns g.start).length := by
    have hall : ledgerTxns n ++ (P.ledger.contents n.tokenLedger).uncommitted = tokenTxns n := rfl
    rw [tokenTxns_eq h, htxns, List.append_assoc] at hall
    rw [htxns]
    exact List.append_cancel_left hall
  have hcut : cut (committedPoint n).txns.length (g.pending.map fun r => (point r.after).mark.size)
      (g.pending.flatMap BatchRec.newTxns ++ (tokenTxns n).drop (tokenTxns g.start).length) =
      (g.pending.map BatchRec.newTxns, (tokenTxns n).drop (tokenTxns g.start).length) :=
    cut_flatten fun qs r hp => size_eq h.queue hp
  unfold staged
  simp only [h.tracker, List.map_map, hrest]
  rw [show (P.ledger.contents n.tokenLedger).committed.length = (committedPoint n).txns.length from rfl,
    show (Mark.size ∘ fun r : BatchRec P => (point r.after).mark) =
      fun r : BatchRec P => (point r.after).mark.size from rfl, hcut]
  rfl

theorem all_staged (h : Inv Q n g) : (staged n).all = tokenTxns n := by
  rw [staged_eq h, tokenTxns_eq h, show tokenTxns g.start = (point g.start).txns from rfl, h.queue.txns]
  simp [Ledger.all, List.flatMap_def, ledgerTxns, committedPoint]

/-- A ledger that has built stores has grown by transactions that may follow. -/
theorem follows_of_built {L : List Entry} {v : View} (h : Built Q L v) :
    Follows MayFollow [] (L.map Prod.fst) := by
  induction h with
  | nil => trivial
  | @snoc L v v' e h okE _ hr ih =>
    rw [List.map_append, List.map_singleton]
    refine follows_concat.mpr ⟨ih, ?_⟩
    obtain ⟨hints, U', hs, -⟩ := okE.spends h.holds.1 h.holds.2 hr
    have htxs : txs L = (L.map Prod.fst).map toTx := by rw [txs, List.map_map]; rfl
    refine ⟨?_, ?_, okE.nodup, hints, U', ?_⟩
    · simpa using okE.seqNo
    · have htype := okE.type
      cases hu : e.2.updater with
      | mint => exact Or.inl ⟨by rw [htype, hu]; rfl, okE.mint hu⟩
      | xfer | xfer100 => exact Or.inr (Or.inl (by rw [htype, hu]; rfl))
      | fees => exact Or.inr (Or.inr (by rw [htype, hu]; rfl))
    · rw [List.nil_append, ← htxs]
      exact hs

theorem follows_of_builtAt {labels : List Label} {x : Point P} (h : BuiltAt Q labels x) :
    Follows MayFollow [] x.txns := by
  have := follows_of_built h.built
  rwa [List.map_fst_zip h.length_le] at this

/-! ### Each step is an event -/

variable {r : Request} {version : XferVersion} {auths : List AuthConstraint} {time : ℤ}

/-- A request appends to the ledger, and leaves what is committed and the closed batches alone. -/
theorem staged_apply (h : Inv Q n g) (h' : Inv Q n' (g.next n n' (.apply r version auths time)))
    (he : ApplyEffect r version auths time n n') :
    tokenTxns n' = tokenTxns n ++ (tokenTxns n').drop (tokenTxns n).length ∧
      staged n' = (staged n).next (.append ((tokenTxns n').drop (tokenTxns n).length)) := by
  have key : ∀ ts, tokenTxns n' = tokenTxns n ++ ts → ledgerTxns n' = ledgerTxns n →
      tokenTxns (g.next n n' (.apply r version auths time)).start = tokenTxns g.start →
      tokenTxns n' = tokenTxns n ++ (tokenTxns n').drop (tokenTxns n).length ∧
        staged n' = (staged n).next (.append ((tokenTxns n').drop (tokenTxns n).length)) := by
    intro ts ht hl hstart
    have hnew : (tokenTxns n').drop (tokenTxns n).length = ts := by rw [ht, List.drop_left]
    refine ⟨by rw [hnew, ht], ?_⟩
    rw [hnew, staged_eq h, staged_eq h', hl, hstart, ht]
    refine Ledger.ext rfl rfl ?_
    show (tokenTxns n ++ ts).drop _ = (tokenTxns n).drop _ ++ ts
    refine List.drop_append_of_le_length ?_
    rw [tokenTxns_eq h, List.length_append]
    exact Nat.le_add_right _ _
  cases he with
  | mint | xfer =>
    exact key _ (tokenTxns_withToken _ _) (by simp [ledgerTxns, withToken]) rfl
  | domain => exact key [] (by simp) rfl rfl
  | domainFees =>
    exact key _ (tokenTxns_withFees ..) (by simp [ledgerTxns, withFees, withDomain]) rfl
  | config hop fees =>
    refine key [] (by simp [tokenTxns]) rfl ?_
    cases hb : n.openBatch with
    | none =>
      rw [(h.start hb).1]
      simp [Trace.next, tokenTxns]
    | some b => simp [Trace.next]

theorem staged_close {l : LedgerId} (h : Inv Q n g) (h' : Inv Q n' (g.next n n' (.close l)))
    (hs : Returns (closeStep l) n () n') : staged n' = (staged n).next .close := by
  obtain rfl := returns_closeStep.mp hs
  rw [staged_eq h, staged_eq h']
  refine Ledger.ext rfl ?_ (by simp [Trace.next, Ledger.next])
  show (g.pending ++ [_]).map BatchRec.newTxns = g.pending.map BatchRec.newTxns ++ _
  rw [List.map_append]
  rfl

/-- Nothing is open between two batches. -/
theorem opened_eq_nil (h : Inv Q n g) (ho : n.openBatch = none) : (staged n).opened = [] := by
  rw [staged_eq h, (h.start ho).1]
  simp

theorem staged_reject (h : Inv Q n g) (ho : n.openBatch = none) (hs : Returns rejectStep n () n') :
    (staged n).batches ≠ [] ∧ staged n' = (staged n).next .reject := by
  obtain ⟨rs, r, hp, -, hrej, h'⟩ := rejected_of_returns h ho hs
  have hopened := opened_eq_nil h ho
  have hopened' := opened_eq_nil h' hrej.openBatch
  have hpending : (g.next n n' .reject).pending = rs := by simp [Trace.next, hp]
  have hl : ledgerTxns n' = ledgerTxns n := congrArg Point.txns hrej.committed
  have hn : staged n = ⟨ledgerTxns n, (rs ++ [r]).map BatchRec.newTxns, []⟩ := by
    rw [← hopened, staged_eq h, hp]
  have hn' : staged n' = ⟨ledgerTxns n, rs.map BatchRec.newTxns, []⟩ := by
    rw [← hopened', ← hl, staged_eq h', hpending]
  rw [hn, hn']
  exact ⟨by simp, by simp [Ledger.next]⟩

/-- The transactions of the first batch are committed. -/
theorem ledgerTxns_commit {r : BatchRec P} {rs : List (BatchRec P)} (h : Inv Q n g)
    (hp : g.pending = r :: rs) (hcom : committedPoint n' = point r.after) :
    ledgerTxns n' = ledgerTxns n ++ r.newTxns := by
  obtain ⟨hbefore, hok, -⟩ := queue_after h hp
  have htxns : ledgerTxns n' = tokenTxns r.after := congrArg Point.txns hcom
  rw [htxns, hok.txns]
  exact congrArg (· ++ _) (congrArg Point.txns hbefore)

theorem staged_commit {replies : List DomainTxn} (h : Inv Q n g) (ho : n.openBatch = none)
    (hs : Returns commitStep n replies n') :
    (staged n).batches ≠ [] ∧ staged n' = (staged n).next .commit := by
  obtain ⟨r, rs, hp, -, hcom, hc, h'⟩ := committed_of_returns h ho hs
  have hopened := opened_eq_nil h ho
  have hopened' := opened_eq_nil h' hc.openBatch
  have hpending : (g.next n n' .commit).pending = rs := by simp [Trace.next, hp]
  have hl := ledgerTxns_commit h hp hcom
  have hn : staged n = ⟨ledgerTxns n, (r :: rs).map BatchRec.newTxns, []⟩ := by
    rw [← hopened, staged_eq h, hp]
  have hn' : staged n' = ⟨ledgerTxns n ++ r.newTxns, rs.map BatchRec.newTxns, []⟩ := by
    rw [← hopened', ← hl, staged_eq h', hpending]
  rw [hn, hn']
  exact ⟨by simp, by simp [Ledger.next]⟩

/-- **One step is one event.** -/
theorem staged_step (h : Inv Q n g) (h' : Inv Q n' (g.next n n' a)) (he : Enabled n a)
    (hs : Returns (step a) n () n') :
    Allowed MayFollow (staged n) (eventOf n n' a) ∧ staged n' = (staged n).next (eventOf n n' a) := by
  cases a with
  | apply r version auths time =>
    obtain ⟨htxns, hstaged⟩ := staged_apply h h' (applyEffect he.1 hs)
    refine ⟨?_, hstaged⟩
    have hall : Follows MayFollow [] ((staged n).all ++ (tokenTxns n').drop (tokenTxns n).length) := by
      rw [all_staged h, ← htxns]
      exact follows_of_builtAt h'.built
    exact (follows_append.mp hall).2
  | close l => exact ⟨trivial, staged_close h h' hs⟩
  | reject =>
    obtain ⟨hne, hstaged⟩ := staged_reject h he hs
    exact ⟨⟨hne, opened_eq_nil h he⟩, hstaged⟩
  | commit =>
    obtain ⟨replies, m, hc, hm⟩ := returns_bind.mp hs
    obtain ⟨-, rfl⟩ := returns_pure.mp hm
    obtain ⟨hne, hstaged⟩ := staged_commit h he hc
    exact ⟨⟨hne, opened_eq_nil h he⟩, hstaged⟩
  | config fees =>
    obtain rfl := returns_modify.mp hs
    refine ⟨trivial, ?_⟩
    show staged n = (staged n).next (.append [])
    simp [Ledger.next]

/-- A node with nothing uncommitted. -/
theorem staged_of_idle (h : Inv Q n g) (hi : Idle n) : staged n = ⟨ledgerTxns n, [], []⟩ := by
  rw [← opened_eq_nil h hi.2, staged_eq h, pending_of_idle h hi]
  rfl

theorem staged_restart (h : Inv Q n g) (fees : FeesMap) :
    staged (S.restart fees n) = (staged n).next .drop := by
  rw [staged_of_idle (inv_restart (S := S) h fees) ⟨rfl, rfl⟩]
  refine Ledger.ext ?_ rfl rfl
  exact congrArg Point.txns (point_restart (S := S) (n := n) fees).2

theorem staged_catchUp {d : Node P} {gd : Trace P} {txns : List TokenTxn} {dtxns : List DomainTxn}
    (h : Inv Q n g) (hd : Inv Q d gd) (hQ : ∀ e v, Q e v → NotOld e v) (hi : Idle n)
    (ht : ledgerTxns d = ledgerTxns n ++ txns) (hdt : domainLedgerTxns d = domainLedgerTxns n ++ dtxns)
    (hs : Returns (S.catchUp txns dtxns) n () n') :
    Allowed MayFollow (staged n) (.extend txns) ∧ staged n' = (staged n).next (.extend txns) := by
  obtain ⟨hup, h'⟩ := upTo_of_returns h hd hQ hi ht hdt hs
  have hall := follows_of_builtAt hd.base
  rw [show (committedPoint d).txns = ledgerTxns d from rfl, ht] at hall
  rw [staged_of_idle h' hup.idle, staged_of_idle h hi]
  refine ⟨⟨rfl, rfl, (follows_append.mp hall).2⟩, Ledger.ext ?_ rfl rfl⟩
  show ledgerTxns n' = ledgerTxns n ++ txns
  rw [← ht, ledgerTxns, hup.ledger]

/-! ### Whole lives -/

theorem staged_new : staged (.new : Node P) = .empty := by
  rw [staged_of_idle (Q := fun _ _ => True) inv_new ⟨rfl, rfl⟩]
  refine Ledger.ext ?_ rfl rfl
  show (P.ledger.contents P.ledger.new).committed = []
  rw [P.ledger.contents_new]

/-- **The life of a node is a run of its ledger.** -/
theorem run_staged {es : List (Event TokenTxn)} (h : Lived S Current n g)
    (ho : Onward S Current n g es n' g') : Run MayFollow (staged n) es (staged n') := by
  induction ho with
  | refl => rfl
  | step hm ha he hs ih =>
    have hinv := lived_inv_notOld (hm.lived h)
    obtain ⟨hal, hnext⟩ := staged_step hinv (inv_step admitted_notOld hinv ha he hs) he hs
    exact run_concat.mpr ⟨_, ih, hal, hnext⟩
  | restart fees hm ih =>
    exact run_concat.mpr ⟨_, ih, trivial, staged_restart (lived_inv_notOld (hm.lived h)) fees⟩
  | catchUp hm hd hi ht hdt hs ih =>
    obtain ⟨hal, hnext⟩ := staged_catchUp (lived_inv_notOld (hm.lived h)) (lived_inv_notOld hd)
      (fun _ _ => id) hi ht hdt hs
    exact run_concat.mpr ⟨_, ih, hal, hnext⟩

/-- So each node that has lived is at the end of a run from the empty ledger. -/
theorem exists_run (h : Lived S Current n g) : ∃ es, Run MayFollow .empty es (staged n) := by
  obtain ⟨es, ho⟩ := exists_onward h
  have hrun := run_staged .new ho
  rw [staged_new] at hrun
  exact ⟨es, hrun⟩

/-- **Every transaction of a node has joined validly.** -/
theorem follows_of_lived (h : Lived S Current n g) : Follows MayFollow [] (tokenTxns n) := by
  obtain ⟨es, hrun⟩ := exists_run h
  rw [← all_staged (lived_inv_notOld h)]
  exact hrun.follows trivial

/-! ### What the node shows -/

/-- The coins that a ledger leaves unspent. -/
def coinsOf (L : List TokenTxn) : List Coin := unspent (L.map toTx)

theorem holds_of_builtAt {labels : List Label} {x : Point P} (h : BuiltAt Q labels x) :
    Chain (x.txns.map toTx) (coinsOf x.txns) ∧ Holds x.view (coinsOf x.txns) (coinsOf x.txns) := by
  have := h.built.holds
  rwa [txs_zip h.length_le] at this

theorem holds_uncommitted (h : Inv Q n g) :
    Holds (uncommitted n.stores) (coinsOf (tokenTxns n)) (coinsOf (tokenTxns n)) :=
  (holds_of_builtAt h.built).2

theorem holds_committed (h : Inv Q n g) :
    Holds (committed n.stores) (coinsOf (ledgerTxns n)) (coinsOf (ledgerTxns n)) :=
  (holds_of_builtAt h.base).2

/-! ### A later life -/

/-- The steps of a run, after a node has lived. -/
theorem exists_onward_run {actions : List Action} {s s' : Node P × Trace P}
    (h : actions.foldlM runStep s = some s') (hok : ∀ a ∈ actions, ok a) :
    ∃ es, Onward S ok s.1 s.2 es s'.1 s'.2 := by
  induction actions generalizing s with
  | nil =>
    obtain rfl : s = s' := by simpa using h
    exact ⟨[], .refl⟩
  | cons a actions ih =>
    rw [List.foldlM_cons] at h
    obtain ⟨m, hm, h⟩ := Option.bind_eq_some_iff.mp h
    obtain ⟨es, ho⟩ := ih h fun b hb => hok b (List.mem_cons_of_mem _ hb)
    unfold runStep at hm
    split_ifs at hm with he
    split at hm
    · next n' hn =>
      obtain rfl := Option.some.inj hm
      exact ⟨_, ho.cons (hok a List.mem_cons_self) he hn⟩
    · cases hm

/-- The node that has caught up has passed an output on. -/
def passedNode : Node ref := (step (pass bob alice 2 90) joinedNode).2

theorem returns_passedNode : Returns (step (pass bob alice 2 90)) joinedNode () passedNode :=
  returns_of_fst (by decide +kernel)

/-- It was started again before that was committed. -/
theorem onward_joinedNode : Onward storage Current joinedNode joinedTrace
    [eventOf joinedNode passedNode (pass bob alice 2 90), .drop] (storage.restart [] passedNode)
    (idleTrace (storage.restart [] passedNode)
      ((joinedTrace.next joinedNode passedNode (pass bob alice 2 90)).labels.take
        (ledgerTxns passedNode).length)) :=
  .restart [] (.step .refl (by decide +kernel) (by decide +kernel) returns_passedNode)

end TokenPlugin.Refinement
