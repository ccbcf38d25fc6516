import TokenPlugin.Refinement

/-! # Committing every batch

The marks of the fees tracker outlive the batches they were made for, which is why a commit can fail
after a rejection. While no batch is rejected they are right: no transaction that paid nothing is
marked, and no mark is ahead of the domain ledger. A restart forgets them all. -/

namespace TokenPlugin.Properties.Draining

open Python Token.Types Token.Views Token.History Database Node Steps Effects Invariant Applying Closing
open Rejecting Committing Runs Replay Lifecycle Refinement Properties.CatchUp Fees.DomainFeeHandler
open Lib.Text Lib.Program Lib.Staged Lib.StagedLedger Reference

variable {P : Platform} {S : Storage P} {Q : Entry → View → Prop} {n n' : Node P} {g g' : Trace P}
  {a : Action}

/-! ### The marks -/

/-- The transactions of the uncommitted batches, with what they paid. -/
def pendingDomain (g : Trace P) : List (DomainTxn × Option TokenTxn) :=
  g.pending.flatMap BatchRec.domain ++ g.domain

/-- The marks are those of transactions that have paid. -/
structure MarksOk (n : Node P) (g : Trace P) : Prop where
  le : ∀ typ k, hasDeductedFees n.feesTracker typ k → k ≤ (domainTxns n).length
  unpaid : ∀ d ∈ pendingDomain g, d.2 = none → hasDeductedFees n.feesTracker d.1.type d.1.seqNo = false

theorem feesKey_injective {typ typ' : Str} {k k' : ℕ} (h : feesKey typ k = feesKey typ' k') :
    typ = typ' ∧ k = k' := by
  obtain ⟨ht, hk⟩ := append_delim_inj (notMem_intText (by decide) (by decide))
    (notMem_intText (by decide) (by decide)) h
  exact ⟨ht, Int.ofNat_inj.mp (intText_injective hk)⟩

/-- An uncommitted transaction has a number up to the length of the ledger. -/
theorem seqNo_le (h : Inv Q n g) {d : DomainTxn × Option TokenTxn} (hd : d ∈ pendingDomain g) :
    d.1.seqNo ≤ (domainTxns n).length := by
  have hmem : d.1 ∈ domainTxns n := by
    rw [domainTxns, Log.all, h.domain.uncommitted]
    exact List.mem_append_right _ (List.mem_map_of_mem hd)
  obtain ⟨i, hi⟩ := List.getElem?_of_mem hmem
  have hlt := (List.getElem?_eq_some_iff.mp hi).1
  rw [h.domain.seqNo i _ hi]
  omega

/-- The marks stay right as long as the ledger does not shrink and no new transaction is uncommitted. -/
theorem MarksOk.of_subset (h : MarksOk n g) (hf : n'.feesTracker.deductedFees = n.feesTracker.deductedFees)
    (hl : (domainTxns n).length ≤ (domainTxns n').length) (hp : pendingDomain g' ⊆ pendingDomain g) :
    MarksOk n' g' := by
  have hmarks : ∀ typ k, hasDeductedFees n'.feesTracker typ k = hasDeductedFees n.feesTracker typ k :=
    fun typ k => by rw [hasDeductedFees, hf]; rfl
  exact ⟨fun typ k hk => (h.le typ k (hmarks typ k ▸ hk)).trans hl,
    fun d hd hn => (hmarks _ _).trans (h.unpaid d (hp hd) hn)⟩

theorem MarksOk.withDomain (h : MarksOk n g) {txn : DomainTxn}
    (hseq : txn.seqNo = (domainTxns n).length + 1)
    (hp : pendingDomain g' = pendingDomain g ++ [(txn, none)]) : MarksOk (withDomain n txn) g' where
  le typ k hk := by
    rw [domainTxns_withDomain, List.length_append]
    exact (h.le typ k hk).trans (Nat.le_add_right _ _)
  unpaid d hd hn := by
    rw [hp] at hd
    rcases List.mem_append.mp hd with hd | hd
    · exact h.unpaid d hd hn
    · obtain rfl := List.mem_singleton.mp hd
      by_contra hm
      have := h.le txn.type txn.seqNo (by simpa [Effects.withDomain] using hm)
      omega

theorem MarksOk.withFees (hinv : Inv Q n g) (h : MarksOk n g) {txn : DomainTxn} {fee : TokenTxn}
    {fees : ℤ} {s : Stores P} (hseq : txn.seqNo = (domainTxns n).length + 1)
    (hp : pendingDomain g' = pendingDomain g ++ [(txn, some fee)]) :
    MarksOk (withFees n txn fee fees s) g' := by
  have hmark : ∀ typ k, hasDeductedFees (Effects.withFees n txn fee fees s).feesTracker typ k ↔
      feesKey typ k = feesKey txn.type txn.seqNo ∨ hasDeductedFees n.feesTracker typ k :=
    fun _ _ => hasDeductedFees_addDeductedFees
  constructor
  · intro typ k hk
    rw [domainTxns_withFees, List.length_append, List.length_singleton]
    rcases (hmark typ k).mp hk with he | hk
    · rw [(feesKey_injective he).2, hseq]
    · exact (h.le typ k hk).trans (Nat.le_add_right _ _)
  · intro d hd hn
    rw [hp] at hd
    rcases List.mem_append.mp hd with hd | hd
    · by_contra hm
      rcases (hmark d.1.type d.1.seqNo).mp (by simpa using hm) with he | hk
      · have := seqNo_le hinv hd
        rw [(feesKey_injective he).2, hseq] at this
        omega
      · rw [h.unpaid d hd hn] at hk
        cases hk
    · obtain rfl := List.mem_singleton.mp hd
      cases hn

variable {r : Request} {version : XferVersion} {auths : List AuthConstraint} {time : ℤ}

/-- Applying a request keeps the marks right. -/
theorem marksOk_apply (hinv : Inv Q n g) (h : MarksOk n g) (he : ApplyEffect r version auths time n n') :
    MarksOk n' (g.next n n' (.apply r version auths time)) := by
  cases he with
  | mint | xfer =>
    refine h.of_subset rfl (by simp) ?_
    rw [next_apply _ [] (tokenTxns_withToken _ _) (by simp)]
    simp [pendingDomain]
  | domain =>
    refine h.withDomain (seqNo_domainTxn ..) ?_
    rw [next_apply [] _ (by simp) (domainTxns_withDomain _)]
    simp [pendingDomain]
  | domainFees =>
    refine h.withFees hinv (seqNo_domainTxn ..) ?_
    rw [next_apply _ _ (tokenTxns_withFees ..) (domainTxns_withFees ..)]
    simp [pendingDomain]
  | config =>
    refine h.of_subset rfl (by simp [domainTxns]) ?_
    rw [next_apply [] [] (by simp [tokenTxns]) (by simp [domainTxns])]
    simp [pendingDomain]

/-! ### Lives without rejections -/

/-- Every step but a rejection. -/
def Keeping : Action → Prop
  | .reject => False
  | a => Current a

instance (a : Action) : Decidable (Keeping a) :=
  match a with
  | .reject => isFalse id
  | .apply r version auths time => inferInstanceAs (Decidable (Current (.apply r version auths time)))
  | .close l => inferInstanceAs (Decidable (Current (.close l)))
  | .commit => inferInstanceAs (Decidable (Current .commit))
  | .config fees => inferInstanceAs (Decidable (Current (.config fees)))

theorem current_of_keeping (h : Keeping a) : Current a := by
  cases a with
  | reject => exact h.elim
  | _ => exact h

/-- **One step keeps the marks right**, unless it is a rejection. -/
theorem marksOk_step (hinv : Inv Q n g) (h : MarksOk n g) (ha : Keeping a) (he : Enabled n a)
    (hs : Returns (step a) n () n') : MarksOk n' (g.next n n' a) := by
  cases a with
  | apply r version auths time => exact marksOk_apply hinv h (applyEffect he.1 hs)
  | close l =>
    obtain rfl := returns_closeStep.mp hs
    refine h.of_subset (by cases l <;> rfl) le_rfl ?_
    simp [pendingDomain, Trace.next]
  | reject => exact ha.elim
  | commit =>
    obtain ⟨replies, m, hc, hm⟩ := returns_bind.mp hs
    obtain ⟨-, rfl⟩ := returns_pure.mp hm
    obtain ⟨r, rs, hp, -, -, hcom, -⟩ := committed_of_returns hinv he hc
    refine h.of_subset (by rw [hcom.feesTracker])
      (congrArg List.length (contents_commit_domain hinv he hp hcom).2).ge ?_
    simp [pendingDomain, Trace.next, hp]
  | config fees =>
    obtain rfl := returns_modify.mp hs
    exact h.of_subset rfl le_rfl (List.Subset.refl _)

/-- A node without uncommitted batches keeps its marks through a catch-up. -/
theorem marksOk_idle (h : MarksOk n g) {labels : List Label}
    (hf : n'.feesTracker.deductedFees = n.feesTracker.deductedFees)
    (hl : (domainTxns n).length ≤ (domainTxns n').length) : MarksOk n' (idleTrace n' labels) :=
  h.of_subset hf hl (List.nil_subset _)

/-- A node that is started again has no marks. -/
theorem marksOk_restart (fees : FeesMap) (labels : List Label) :
    MarksOk (S.restart fees n) (idleTrace (S.restart fees n) labels) where
  le typ k hk := by
    have hno : hasDeductedFees (S.restart fees n).feesTracker typ k = false := by
      simp [Storage.restart, hasDeductedFees]
    rw [hno] at hk
    cases hk
  unpaid d hd := absurd hd (by simp [pendingDomain, idleTrace])

/-- **A life without rejections keeps the marks right.** -/
theorem marksOk_onward {es : List (Event TokenTxn)} (hl : Lived S Current n g) (h : MarksOk n g)
    (ho : Onward S Keeping n g es n' g') : MarksOk n' g' := by
  induction ho with
  | refl => exact h
  | step hm ha he hs ih =>
    have hlived := (hm.imp fun _ => current_of_keeping).lived hl
    exact marksOk_step (lived_inv_notOld hlived) ih ha he hs
  | restart fees hm ih => exact marksOk_restart fees _
  | @catchUp m n' d gm gd es txns dtxns hm hd hi ht hdt hs ih =>
    have hinv := lived_inv_notOld ((hm.imp fun _ => current_of_keeping).lived hl)
    obtain ⟨hup, -⟩ := upTo_of_returns hinv (lived_inv_notOld hd) (fun _ _ => id) hi ht hdt hs
    refine marksOk_idle ih (by rw [hup.feesTracker]) ?_
    have hidle : (P.domainLedger.contents m.domainLedger).uncommitted = [] := by
      rw [hinv.domain.uncommitted, pending_of_idle hinv hi, (hinv.start hi.2).2.1]
      rfl
    rw [domainTxns, domainTxns, Log.all, Log.all, hup.domainLedger, hidle, List.append_nil,
      List.append_nil, hdt, List.length_append]
    exact Nat.le_add_right _ _

/-! ### Every batch -/

/-- The node has committed all that the other one had. -/
structure Drained (n n' : Node P) : Prop where
  idle : Idle n'
  ledger : ledgerTxns n' = tokenTxns n
  domainLedger : domainLedgerTxns n' = domainTxns n
  committed : committed n'.stores = uncommitted n.stores
  uncommitted : Token.Views.uncommitted n'.stores = Token.Views.uncommitted n.stores

theorem drained_of_nil (h : Inv Q n g) (ho : n.openBatch = none) (hp : g.pending = []) : Drained n n := by
  have hidle : Idle n := ⟨by rw [h.batches, hp]; rfl, ho⟩
  have hpoint := point_of_idle h hidle
  have hdomain : (P.domainLedger.contents n.domainLedger).uncommitted = [] := by
    rw [h.domain.uncommitted, hp, (h.start ho).2.1]
    rfl
  refine ⟨hidle, congrArg Point.txns hpoint, ?_, congrArg Point.view hpoint, rfl⟩
  rw [domainTxns, Log.all, hdomain, List.append_nil]
  rfl

/-- The first batch can be committed. -/
theorem exists_commit (h : Inv Q n g) (hm : MarksOk n g) (ho : n.openBatch = none) {r : BatchRec P}
    {rs : List (BatchRec P)} (hp : g.pending = r :: rs) : ∃ n', Returns (step .commit) n () n' ∧
      point n' = point n ∧ Committed n n' r rs ∧ Inv Q n' (g.next n n' .commit) := by
  have key : ∀ {replies n'}, Returns commitStep n replies n' → Returns (step .commit) n () n' :=
    fun hc => returns_bind.mpr ⟨_, _, hc, returns_pure.mpr ⟨rfl, rfl⟩⟩
  cases hl : r.ledgerId with
  | token =>
    obtain ⟨n', hn', hpoint, -, hrest⟩ := exists_commitStep_token h ho hp hl
    exact ⟨n', key hn', hpoint, hrest⟩
  | domain =>
    have hu : Unmarked n.feesTracker r := fun d hd hn => hm.unpaid d (by simp [pendingDomain, hp, hd]) hn
    obtain ⟨n', hn', hpoint, -, hrest⟩ := exists_commitStep_domain h ho hp hl hu
    exact ⟨n', key hn', hpoint, hrest⟩

/-- Where the marks are right, all batches can be committed. -/
theorem exists_drained (h : Lived S Current n g) (hm : MarksOk n g) (ho : n.openBatch = none) :
    ∃ n' g', Onward S Current n g (List.replicate n.batches.length .commit) n' g' ∧ Drained n n' := by
  have hinv := lived_inv_notOld h
  have hlen : n.batches.length = g.pending.length := by rw [hinv.batches, List.length_map]
  rw [hlen]
  generalize hk : g.pending = rs
  clear hlen
  induction rs generalizing n g with
  | nil => exact ⟨n, g, .refl, drained_of_nil hinv ho hk⟩
  | cons r rs ih =>
    obtain ⟨m, hs, hpoint, hcom, hinv'⟩ := exists_commit hinv hm ho hk
    obtain ⟨n', g', hon, hd⟩ := ih (.step h (a := .commit) trivial ho hs)
      (marksOk_step hinv hm (a := .commit) trivial ho hs)
      hcom.openBatch hinv' (by simp [Trace.next, hk])
    refine ⟨n', g', hon.cons (a := .commit) trivial ho hs, hd.idle, ?_, ?_, ?_, ?_⟩
    · exact hd.ledger.trans (congrArg Point.txns hpoint)
    · exact hd.domainLedger.trans (contents_commit_domain hinv ho hk hcom).2
    · exact hd.committed.trans (congrArg Point.view hpoint)
    · exact hd.uncommitted.trans (congrArg Point.view hpoint)

/-- **While nothing is rejected, everything can be committed.** Let a node have been started, on whatever
its earlier life had committed, and have lived on without rejections. Between two batches, committing as
many batches as there are never raises, and commits what the node has read uncommitted. -/
theorem drains {m : Node P} {gm : Trace P} {fees : FeesMap} {es : List (Event TokenTxn)}
    (h : Lived S Current m gm) (ho : Onward S Keeping (S.restart fees m)
      (idleTrace (S.restart fees m) (gm.labels.take (ledgerTxns m).length)) es n g)
    (hopen : n.openBatch = none) :
    ∃ n' g', Onward S Current n g (List.replicate n.batches.length .commit) n' g' ∧ Drained n n' := by
  have hstart := Lived.restart fees h
  exact exists_drained ((ho.imp fun _ => current_of_keeping).lived hstart)
    (marksOk_onward hstart (marksOk_restart fees _) ho) hopen

/-- The node of the sample run, started again, and the batches it has applied since then. -/
def resumed : Option (Node ref × Trace ref) :=
  [pass bob alice 2 90, .close .token, nymWithFees (section_ 3 80), .close .domain].foldlM runStep
    (storage.restart [("nym", 10)] sampleNode, idleTrace (storage.restart [("nym", 10)] sampleNode)
      (sampleTrace.labels.take (ledgerTxns sampleNode).length))

theorem resumed_isSome : resumed.isSome := by decide +kernel

theorem drains_resumed : ∃ n' g', Onward storage Current (resumed.get resumed_isSome).1
    (resumed.get resumed_isSome).2
    (List.replicate (resumed.get resumed_isSome).1.batches.length .commit) n' g' ∧
      Drained (resumed.get resumed_isSome).1 n' := by
  obtain ⟨es, ho⟩ := exists_onward_run (S := storage)
    (Option.some_get resumed_isSome).symm (show ∀ a ∈ _, Keeping a by decide +kernel)
  exact drains lived_sample ho (by decide +kernel)

end TokenPlugin.Properties.Draining
