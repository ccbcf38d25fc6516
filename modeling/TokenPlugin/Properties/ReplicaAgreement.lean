import TokenPlugin.Properties.ViewChange
import TokenPlugin.Replicas

/-! # Replicas agree

Nodes with the same ledgers, divided into batches in the same way, and with the same fees, may have come
to them differently. From there on every step does the same to them, and they raise the same exceptions;
only a commit may fail on one of them alone, because of marks that outlive a rejected batch. -/

namespace TokenPlugin.Properties.ReplicaAgreement

open Python Token.Types Token.Views Token.History Database Node Steps Effects Invariant Applying Closing
open Rejecting Committing Runs Replay Lifecycle Refinement Replicas Properties.CatchUp
open Properties.ViewChange
open Lib.Program Lib.Staged Lib.StagedLedger Reference

variable {P : Platform} {S S' : Storage P} {Q : Entry → View → Prop} {n n' m m' : Node P}
  {g g' k k' : Trace P} {a : Action}

/-! ### The same ledgers -/

/-- The ledger of a batch and the number of its transactions. -/
def shape : PlenumBatch P → LedgerId × ℕ
  | .token _ batch => (.token, batch.validDigests)
  | .domain count => (.domain, count)

/-- The ledger of the open batch and how many requests it has. -/
def openShape (b : OpenBatch P) : LedgerId × ℕ := (b.ledgerId, b.count)

/-- The nodes hold the same ledgers, in the same batches, and ask for the same fees. -/
structure SameLedgers (n m : Node P) : Prop where
  token : staged n = staged m
  domain : P.domainLedger.contents n.domainLedger = P.domainLedger.contents m.domainLedger
  batches : n.batches.map shape = m.batches.map shape
  openBatch : n.openBatch.map openShape = m.openBatch.map openShape
  configFees : n.configFees = m.configFees

/-- The nodes read the same, committed and uncommitted. -/
structure SameReads (n m : Node P) : Prop where
  uncommitted : uncommitted n.stores = uncommitted m.stores
  committed : committed n.stores = committed m.stores

/-- Points with the same transactions have the same stores. -/
theorem view_eq {labels labels' : List Label} {x y : Point P} (h : BuiltAt NotOld labels x)
    (h' : BuiltAt NotOld labels' y) (ht : x.txns = y.txns) : x.view = y.view := by
  have hx := returns_replay_builtAt (c := true) h
  rw [ht] at hx
  exact (hx.unique (returns_replay_builtAt h')).2

/-- **The ledgers determine what is read.** -/
theorem sameReads_of_same (h : Inv NotOld n g) (h' : Inv NotOld m k) (hs : SameLedgers n m) :
    SameReads n m := by
  refine ⟨view_eq h.built h'.built ?_, view_eq h.base h'.base ?_⟩
  · show tokenTxns n = tokenTxns m
    rw [← all_staged h, ← all_staged h', hs.token]
  · show ledgerTxns n = ledgerTxns m
    have := congrArg Ledger.committed hs.token
    rwa [staged_eq h, staged_eq h'] at this

theorem alike_of_same (h : Inv NotOld n g) (h' : Inv NotOld m k) (hs : SameLedgers n m) : Alike n m where
  stores := (sameReads_of_same h h' hs).uncommitted
  token := by rw [← all_staged h, ← all_staged h', hs.token]
  domain := congrArg Log.all hs.domain
  configFees := hs.configFees

theorem openFor_of_same (hs : n.openBatch.map openShape = m.openBatch.map openShape) {l : Option LedgerId}
    (h : OpenFor n l) : OpenFor m l := by
  intro b hb
  rw [Option.mem_def] at hb
  rw [hb] at hs
  obtain ⟨c, hc, hcb⟩ := Option.map_eq_some_iff.mp hs
  rw [← h c hc, show b.ledgerId = c.ledgerId from (congrArg Prod.fst hcb).symm]

theorem openBatch_of_same (hs : n.openBatch.map openShape = m.openBatch.map openShape)
    (h : n.openBatch = none) : m.openBatch = none := by
  rw [h] at hs
  exact Option.map_eq_none_iff.mp hs.symm

/-- Where one node can take a step, the other can. -/
theorem enabled_of_same (hs : SameLedgers n m) (he : Enabled n a) : Enabled m a := by
  cases a with
  | apply r version auths time => exact ⟨he.1, openFor_of_same hs.openBatch he.2⟩
  | close l => exact openFor_of_same hs.openBatch he
  | reject | commit | config => exact openBatch_of_same hs.openBatch he

/-! ### Requests -/

variable {r : Request} {version : XferVersion} {auths : List AuthConstraint} {time : ℤ} {l : LedgerId}

/-- What applying a request leaves as it was, and the batch that it joins. -/
theorem rest_apply (he : ApplyEffect r version auths time n n') :
    domainLedgerTxns n' = domainLedgerTxns n ∧ n'.batches = n.batches ∧
      n'.openBatch = (entered n (ledgerOf r.operation)).openBatch := by
  cases he with
  | mint hop | xfer hop => exact ⟨rfl, rfl, by rw [hop]; rfl⟩
  | domain hop | domainFees hop =>
    refine ⟨?_, rfl, by rw [hop]; rfl⟩
    simp [domainLedgerTxns, withDomain, withFees]
  | config hop => exact ⟨rfl, rfl, by rw [hop]; rfl⟩

theorem openShape_entered (hs : n.openBatch.map openShape = m.openBatch.map openShape)
    (l : Option LedgerId) :
    (entered n l).openBatch.map openShape = (entered m l).openBatch.map openShape := by
  cases l with
  | none => exact hs
  | some l =>
    unfold entered joined
    rcases hn : n.openBatch with _ | b <;> rcases hm : m.openBatch with _ | c <;> rw [hn, hm] at hs
    · rfl
    · cases hs
    · cases hs
    · have hbc : openShape b = openShape c := Option.some.inj hs
      exact congrArg (fun x => some (x.1, x.2 + 1)) hbc

theorem log_eq {T : Type} {x y : Log T} (hc : x.committed = y.committed) (ha : x.all = y.all) : x = y := by
  obtain ⟨xc, xu⟩ := x
  obtain ⟨yc, yu⟩ := y
  obtain rfl : xc = yc := hc
  rw [show xu = yu from List.append_cancel_left ha]

/-- A request leads from the same ledgers to the same. -/
theorem same_apply (h : Inv NotOld n g) (h' : Inv NotOld m k) (hs : SameLedgers n m)
    (hn : Inv NotOld n' (g.next n n' (.apply r version auths time)))
    (hm : Inv NotOld m' (k.next m m' (.apply r version auths time)))
    (he : ApplyEffect r version auths time n n') (he' : ApplyEffect r version auths time m m')
    (ha : Alike n' m') : SameLedgers n' m' := by
  obtain ⟨hd, hb, ho⟩ := rest_apply he
  obtain ⟨hd', hb', ho'⟩ := rest_apply he'
  have htoken := (alike_of_same h h' hs).token
  refine ⟨?_, log_eq ?_ ha.domain, ?_, ?_, ha.configFees⟩
  · rw [(staged_apply h hn he).2, (staged_apply h' hm he').2, hs.token, htoken, ha.token]
  · exact hd.trans ((congrArg Log.committed hs.domain).trans hd'.symm)
  · rw [hb, hb', hs.batches]
  · rw [ho, ho']
    exact openShape_entered hs.openBatch _

/-! ### Batches -/

theorem shape_closedBatch (hs : n.openBatch.map openShape = m.openBatch.map openShape) (l : LedgerId) :
    shape (closedBatch n l) = shape (closedBatch m l) := by
  have hcount : (current n l).count = (current m l).count := by
    unfold current
    rcases hn : n.openBatch with _ | b <;> rcases hm : m.openBatch with _ | c <;> rw [hn, hm] at hs
    · rfl
    · cases hs
    · cases hs
    · exact congrArg Prod.snd (Option.some.inj hs)
  cases l with
  | token => exact congrArg (Prod.mk LedgerId.token) hcount
  | domain => exact congrArg (Prod.mk LedgerId.domain) hcount

theorem same_close (h : Inv NotOld n g) (h' : Inv NotOld m k) (hs : SameLedgers n m)
    (hn : Inv NotOld n' (g.next n n' (.close l))) (hm : Inv NotOld m' (k.next m m' (.close l)))
    (hr : Returns (closeStep l) n () n') (hr' : Returns (closeStep l) m () m') : SameLedgers n' m' := by
  have htoken : staged n' = staged m' := by
    rw [staged_close h hn hr, staged_close h' hm hr', hs.token]
  obtain rfl := returns_closeStep.mp hr
  obtain rfl := returns_closeStep.mp hr'
  refine ⟨htoken, hs.domain, ?_, rfl, hs.configFees⟩
  show (n.batches ++ [closedBatch n l]).map shape = (m.batches ++ [closedBatch m l]).map shape
  rw [List.map_append, List.map_append, hs.batches, List.map_singleton, List.map_singleton,
    shape_closedBatch hs.openBatch]

/-- The number of domain transactions of a batch. -/
def domainCount : LedgerId × ℕ → ℕ
  | (.token, _) => 0
  | (.domain, count) => count

theorem domainCount_shape {b : BatchRec P} (h : RecOk b) :
    domainCount (shape b.plenumBatch) = b.domain.length := by
  unfold BatchRec.plenumBatch
  cases hl : b.ledgerId with
  | token => rw [h.token hl]; rfl
  | domain => rfl

theorem same_reject (h : Inv NotOld n g) (h' : Inv NotOld m k) (hs : SameLedgers n m)
    (ho : n.openBatch = none) (hr : Returns rejectStep n () n') (hr' : Returns rejectStep m () m') :
    SameLedgers n' m' := by
  have ho' := openBatch_of_same hs.openBatch ho
  obtain ⟨rs, b, hp, -, hrej, -⟩ := rejected_of_returns h ho hr
  obtain ⟨qs, c, hq, -, hrej', -⟩ := rejected_of_returns h' ho' hr'
  have hshapes : (rs.map BatchRec.plenumBatch).map shape = (qs.map BatchRec.plenumBatch).map shape ∧
      shape b.plenumBatch = shape c.plenumBatch := by
    have := hs.batches
    rw [h.batches, h'.batches, hp, hq, List.map_append, List.map_append, List.map_append,
      List.map_append] at this
    obtain ⟨h₁, h₂⟩ := List.append_inj' this rfl
    exact ⟨h₁, List.head_eq_of_cons_eq h₂⟩
  have hdomain : (rs.flatMap BatchRec.domain).map Prod.fst = (qs.flatMap BatchRec.domain).map Prod.fst := by
    have hall := congrArg Log.uncommitted hs.domain
    rw [h.domain.uncommitted, h'.domain.uncommitted, (h.start ho).2.1, (h'.start ho').2.1, hp, hq] at hall
    simp only [List.flatMap_append, List.flatMap_cons, List.flatMap_nil, List.append_nil,
      List.map_append] at hall
    refine (List.append_inj' hall ?_).1
    rw [List.length_map, List.length_map,
      ← domainCount_shape (h.queue.ok b (by rw [hp]; exact List.mem_append_right _ (List.mem_singleton_self b))),
      ← domainCount_shape (h'.queue.ok c (by rw [hq]; exact List.mem_append_right _ (List.mem_singleton_self c))),
      hshapes.2]
  refine ⟨?_, ?_, ?_, ?_, ?_⟩
  · rw [(staged_reject h ho hr).2, (staged_reject h' ho' hr').2, hs.token]
  · rw [hrej.domain, hrej'.domain, hdomain, hs.domain]
  · rw [hrej.batches, hrej'.batches, hshapes.1]
  · rw [hrej.openBatch, hrej'.openBatch]
  · rw [hrej.configFees, hrej'.configFees, hs.configFees]

theorem same_commit (h : Inv NotOld n g) (h' : Inv NotOld m k) (hs : SameLedgers n m)
    (ho : n.openBatch = none) {replies replies' : List DomainTxn} (hr : Returns commitStep n replies n')
    (hr' : Returns commitStep m replies' m') : SameLedgers n' m' := by
  have ho' := openBatch_of_same hs.openBatch ho
  obtain ⟨b, rs, hp, -, -, hcom, -⟩ := committed_of_returns h ho hr
  obtain ⟨c, qs, hq, -, -, hcom', -⟩ := committed_of_returns h' ho' hr'
  have hshapes : shape b.plenumBatch = shape c.plenumBatch ∧
      (rs.map BatchRec.plenumBatch).map shape = (qs.map BatchRec.plenumBatch).map shape := by
    have := hs.batches
    rw [h.batches, h'.batches, hp, hq] at this
    exact List.cons.inj this
  have hlength : b.domain.length = c.domain.length := by
    rw [← domainCount_shape (h.queue.ok b (by rw [hp]; exact List.mem_cons_self)),
      ← domainCount_shape (h'.queue.ok c (by rw [hq]; exact List.mem_cons_self)), hshapes.1]
  refine ⟨?_, ?_, ?_, ?_, ?_⟩
  · rw [(staged_commit h ho hr).2, (staged_commit h' ho' hr').2, hs.token]
  · rw [hcom.domain, hcom'.domain, hs.domain, hlength]
  · rw [hcom.batches, hcom'.batches, hshapes.2]
  · rw [hcom.openBatch, hcom'.openBatch]
  · rw [hcom.configFees, hcom'.configFees, hs.configFees]

/-! ### Steps and runs -/

/-- **A step leads from the same ledgers to the same**, where it returns on both nodes. -/
theorem same_step (h : Inv NotOld n g) (h' : Inv NotOld m k) (hs : SameLedgers n m)
    (hn : Inv NotOld n' (g.next n n' a)) (hm : Inv NotOld m' (k.next m m' a)) (he : Enabled n a)
    (hr : Returns (step a) n () n') (hr' : Returns (step a) m () m') : SameLedgers n' m' := by
  cases a with
  | apply r version auths time =>
    obtain ⟨q, hq, halike⟩ := (sim_applyStep r version auths time).returns (alike_of_same h h' hs) hr
    obtain rfl := (hq.unique hr').2
    exact same_apply h h' hs hn hm (applyEffect he.1 hr) (applyEffect he.1 hr') halike
  | close l => exact same_close h h' hs hn hm hr hr'
  | reject => exact same_reject h h' hs he hr hr'
  | commit =>
    obtain ⟨replies, p, hc, hp⟩ := returns_bind.mp hr
    obtain ⟨-, rfl⟩ := returns_pure.mp hp
    obtain ⟨replies', p', hc', hp'⟩ := returns_bind.mp hr'
    obtain ⟨-, rfl⟩ := returns_pure.mp hp'
    exact same_commit h h' hs he hc hc'
  | config fees =>
    obtain rfl := returns_modify.mp hr
    obtain rfl := returns_modify.mp hr'
    exact ⟨hs.token, hs.domain, hs.batches, hs.openBatch, rfl⟩

/-- Without a batch there is none to reject. -/
theorem reject_of_nil (h : n.batches = []) :
    (step .reject n).1 = .error ⟨.logicError, "no batch to reject"⟩ := by
  show (rejectStep n).1 = _
  unfold rejectStep
  simp only [bind, Prog.andThen, Prog.get, h]
  rfl

theorem outcome_reject (h : Inv NotOld n g) (h' : Inv NotOld m k) (hs : SameLedgers n m)
    (ho : n.openBatch = none) : (step .reject n).1 = (step .reject m).1 := by
  have hlen : n.batches.length = m.batches.length := by
    have := congrArg List.length hs.batches
    rwa [List.length_map, List.length_map] at this
  rcases List.eq_nil_or_concat' g.pending with hnil | ⟨rs, b, hp⟩
  · have hn : n.batches = [] := by rw [h.batches, hnil]; rfl
    have hm : m.batches = [] := List.length_eq_zero_iff.mp (by rw [← hlen, hn]; rfl)
    rw [reject_of_nil hn, reject_of_nil hm]
  · obtain ⟨qs, c, hq⟩ : ∃ qs c, k.pending = qs ++ [c] := by
      refine (List.eq_nil_or_concat' k.pending).resolve_left fun hnil => ?_
      rw [h.batches, h'.batches, hp, hnil, List.length_map, List.length_append] at hlen
      cases hlen
    obtain ⟨n', hn', -⟩ := exists_rejectStep h ho hp
    obtain ⟨m', hm', -⟩ := exists_rejectStep h' (openBatch_of_same hs.openBatch ho) hq
    exact (congrArg Prod.fst hn').trans (congrArg Prod.fst hm').symm

/-- **A step that is no commit has the same outcome** on both nodes. -/
theorem outcome_step (h : Inv NotOld n g) (h' : Inv NotOld m k) (hs : SameLedgers n m)
    (he : Enabled n a) (ha : a ≠ .commit) : (step a n).1 = (step a m).1 := by
  cases a with
  | apply r version auths time =>
    exact ((sim_applyStep r version auths time) n m (alike_of_same h h' hs)).1.symm
  | close l =>
    have hret : ∀ n : Node P, (step (.close l) n).1 = .ok () := fun n =>
      congrArg Prod.fst (returns_closeStep.mpr rfl : Returns (closeStep l) n () _)
    rw [hret, hret]
  | reject => exact outcome_reject h h' hs he
  | commit => exact absurd rfl ha
  | config fees => rfl

/-- The actions come in the order in which plenum takes steps. -/
def Plays : List Action → Node P → Prop
  | [], _ => True
  | a :: as, n => Enabled n a ∧ ∀ n', Returns (step a) n () n' → Plays as n'

/-- What the further steps do to nodes with the same ledgers. -/
structure Agreed (as : List Action) (n m : Node P) : Prop where
  reads : SameReads n m
  returns : ∀ n' m', Returns (as.forM step) n () n' → Returns (as.forM step) m () m' →
    SameLedgers n' m' ∧ SameReads n' m'
  outcome : .commit ∉ as → (as.forM step n).1 = (as.forM step m).1

/-- The outcome of some steps, when the first of them has the same outcome on both nodes. -/
theorem outcome_cons {as : List Action} (hout : (step a n).1 = (step a m).1)
    (hrest : ∀ q q', Returns (step a) n () q → Returns (step a) m () q' →
      (as.forM step q).1 = (as.forM step q').1) :
    ((a :: as).forM step n).1 = ((a :: as).forM step m).1 := by
  show (Prog.andThen (step a) (fun _ => as.forM step) n).1 =
    (Prog.andThen (step a) (fun _ => as.forM step) m).1
  unfold Prog.andThen
  rcases hq : step a n with ⟨e | ⟨⟩, q⟩ <;> rcases hq' : step a m with ⟨e' | ⟨⟩, q'⟩ <;>
    simp only [hq, hq', reduceCtorEq, Except.error.injEq] at hout
  · exact congrArg Except.error hout
  · exact hrest q q' hq hq'

/-- **Any further steps** keep nodes with the same ledgers together. -/
theorem agreed_of_same {as : List Action} (h : Inv NotOld n g) (h' : Inv NotOld m k)
    (hs : SameLedgers n m) (hc : ∀ a ∈ as, Current a) (hp : Plays as n) : Agreed as n m := by
  have hreads := sameReads_of_same h h' hs
  induction as generalizing n m g k with
  | nil =>
    refine ⟨hreads, fun n' m' hn hm => ?_, fun _ => rfl⟩
    obtain rfl := returns_forM_nil.mp hn
    obtain rfl := returns_forM_nil.mp hm
    exact ⟨hs, hreads⟩
  | cons a as ih =>
    obtain ⟨ha, has⟩ := List.forall_mem_cons.mp hc
    obtain ⟨he, hp⟩ := hp
    have hnext : ∀ q q', Returns (step a) n () q → Returns (step a) m () q' → Agreed as q q' := by
      intro q q' hq hq'
      have hi := inv_step admitted_notOld h ha he hq
      have hi' := inv_step admitted_notOld h' ha (enabled_of_same hs he) hq'
      have hsame := same_step h h' hs hi hi' he hq hq'
      exact ih hi hi' hsame has (hp q hq) (sameReads_of_same hi hi' hsame)
    refine ⟨hreads, fun n' m' hn hm => ?_, fun hno => ?_⟩
    · obtain ⟨q, hq, hn⟩ := returns_forM_cons.mp hn
      obtain ⟨q', hq', hm⟩ := returns_forM_cons.mp hm
      exact (hnext q q' hq hq').returns n' m' hn hm
    · refine outcome_cons ?_ fun q q' hq hq' => ?_
      · exact outcome_step h h' hs he fun hcom => hno (hcom ▸ List.mem_cons_self)
      · exact (hnext q q' hq hq').outcome fun hmem => hno (List.mem_cons_of_mem _ hmem)

/-- **Replicas agree.** Let two nodes have lived in whatever way, and have the same ledgers, batches and
fees. They read the same. Any further steps that return on both lead to the same ledgers and reads
again; where no batch is committed, they return on both or raise the same exception on both. -/
theorem agrees {as : List Action} (h : Lived S Current n g) (h' : Lived S' Current m k)
    (hs : SameLedgers n m) (hc : ∀ a ∈ as, Current a) (hp : Plays as n) : Agreed as n m :=
  agreed_of_same (lived_inv_notOld h) (lived_inv_notOld h') hs hc hp

/-- A node that has joined and one that was started again. -/
theorem sameLedgers_joinedNode : SameLedgers joinedNode (storage.restart [] sampleNode) where
  token := Ledger.ext (by decide +kernel) (by decide +kernel) (by decide +kernel)
  domain := log_eq (by decide +kernel) (by decide +kernel)
  batches := by decide +kernel
  openBatch := by decide +kernel
  configFees := by decide +kernel

theorem plays_joinedNode : Plays [pass bob alice 2 90, .close .token] joinedNode := by
  refine ⟨by decide +kernel, fun n' hn' => ?_⟩
  rw [(hn'.unique returns_passedNode).2]
  exact ⟨by decide +kernel, fun _ _ => trivial⟩

theorem agrees_joinedNode :
    Agreed [pass bob alice 2 90, .close .token] joinedNode (storage.restart [] sampleNode) :=
  agrees lived_joinedNode (.restart [] lived_sample) sameLedgers_joinedNode (by decide +kernel)
    plays_joinedNode

/-! ### After a view change -/

/-- A node that has taken everything back is between two batches and has none. -/
theorem staged_of_takenBack (h : Inv Q n' g') (ht : TakenBack n n') : staged n' = ⟨ledgerTxns n, [], []⟩ := by
  rw [staged_of_idle h ht.idle]
  exact Ledger.ext (congrArg Point.txns ht.committed) rfl rfl

theorem domain_of_takenBack (h : Inv Q n' g') (ht : TakenBack n n') :
    P.domainLedger.contents n'.domainLedger = ⟨domainLedgerTxns n, []⟩ := by
  have hun : (P.domainLedger.contents n'.domainLedger).uncommitted = [] := by
    rw [h.domain.uncommitted, pending_of_idle h ht.idle, (h.start ht.idle.2).2.1]
    rfl
  have hall : (P.domainLedger.contents n'.domainLedger).all = domainLedgerTxns n := ht.domainLedger
  rw [Log.all, hun, List.append_nil] at hall
  exact log_eq hall (by rw [Log.all, Log.all, hall, hun])

/-- Nodes that have committed the same and have taken the rest back. -/
theorem same_of_takenBack (h : Inv Q n' g') (h' : Inv Q m' k') (ht : TakenBack n n')
    (ht' : TakenBack m m') (hl : ledgerTxns n = ledgerTxns m)
    (hd : domainLedgerTxns n = domainLedgerTxns m) (hf : n.configFees = m.configFees) :
    SameLedgers n' m' where
  token := by rw [staged_of_takenBack h ht, staged_of_takenBack h' ht', hl]
  domain := by rw [domain_of_takenBack h ht, domain_of_takenBack h' ht', hd]
  batches := by rw [ht.idle.1, ht'.idle.1]
  openBatch := by rw [ht.idle.2, ht'.idle.2]
  configFees := by rw [ht.configFees, ht'.configFees, hf]

/-- The nodes have committed the same, as far as their Merkle roots and their fees tell. -/
structure SameRoots (n m : Node P) : Prop where
  token : P.ledger.rootHash n.tokenLedger = P.ledger.rootHash m.tokenLedger
  domain : P.domainLedger.rootHash n.domainLedger = P.domainLedger.rootHash m.domainLedger
  configFees : n.configFees = m.configFees

/-- **A view change brings replicas together.** Let two nodes between two batches have the same roots of
what they have committed, whatever else they have applied. Each can take back all of its batches, and
then they agree on any further steps. -/
theorem reconciles (h : Lived S Current n g) (h' : Lived S' Current m k) (ho : n.openBatch = none)
    (ho' : m.openBatch = none) (hs : SameRoots n m) :
    ∃ n' g' m' k', Onward S Current n g (List.replicate n.batches.length .reject) n' g' ∧
      Onward S' Current m k (List.replicate m.batches.length .reject) m' k' ∧ SameLedgers n' m' ∧
      ∀ as, (∀ a ∈ as, Current a) → Plays as n' → Agreed as n' m' := by
  have hl : ledgerTxns n = ledgerTxns m := by
    have := hs.token
    rw [P.ledger.rootHash_eq, P.ledger.rootHash_eq] at this
    exact P.ledger.treeRoot_injective this
  have hd : domainLedgerTxns n = domainLedgerTxns m := by
    have := hs.domain
    rw [P.domainLedger.rootHash_eq, P.domainLedger.rootHash_eq] at this
    exact P.domainLedger.treeRoot_injective this
  obtain ⟨n', g', hon, ht⟩ := exists_takenBack h ho (length_batches (lived_inv_notOld h))
  obtain ⟨m', k', hom, ht'⟩ := exists_takenBack h' ho' (length_batches (lived_inv_notOld h'))
  have hn := lived_inv_notOld (hon.lived h)
  have hm := lived_inv_notOld (hom.lived h')
  have hsame := same_of_takenBack hn hm ht ht' hl hd hs.configFees
  exact ⟨n', g', m', k', hon, hom, hsame, fun as hc hp => agreed_of_same hn hm hsame hc hp⟩

/-- A node of the sample run has applied a batch that was lost when another was started again. -/
theorem reconciles_sample : ∃ n' g' m' k',
    Onward storage Current sampleNode sampleTrace (List.replicate sampleNode.batches.length .reject) n' g' ∧
      Onward storage Current (storage.restart [("nym", 10)] sampleNode)
        (idleTrace (storage.restart [("nym", 10)] sampleNode)
          (sampleTrace.labels.take (ledgerTxns sampleNode).length))
        (List.replicate (storage.restart [("nym", 10)] sampleNode).batches.length .reject) m' k' ∧
      SameLedgers n' m' ∧ ∀ as, (∀ a ∈ as, Current a) → Plays as n' → Agreed as n' m' :=
  reconciles lived_sample (.restart [("nym", 10)] lived_sample) (by decide +kernel) rfl
    ⟨by decide +kernel, by decide +kernel, by decide +kernel⟩

end TokenPlugin.Properties.ReplicaAgreement
