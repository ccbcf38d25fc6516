import TokenPlugin.Invariant

/-! # Applying keeps the invariant

One lemma for what is appended to the token ledger, one for what is appended to the domain ledger, and
the cases of `ApplyEffect` put together from them. -/

namespace TokenPlugin.Applying

open Python Token.Types Token.Handlers Token.Views Token.History Database Node Steps Effects
open Invariant Messages.Fields Fees.DomainFeeHandler Lib.Program Lib.Staged

variable {P : Platform} {Q : Entry → View → Prop} {n n' : Node P} {g : Trace P}

/-! ### What is appended -/

@[simp] theorem tokenTxns_withToken (txn : TokenTxn) (s : Stores P) :
    tokenTxns (withToken n txn s) = tokenTxns n ++ [txn] := by
  simp [tokenTxns, withToken]

@[simp] theorem domainTxns_withToken (txn : TokenTxn) (s : Stores P) :
    domainTxns (withToken n txn s) = domainTxns n := rfl

@[simp] theorem tokenTxns_withDomain (txn : DomainTxn) :
    tokenTxns (withDomain n txn) = tokenTxns n := rfl

@[simp] theorem domainTxns_withDomain (txn : DomainTxn) :
    domainTxns (withDomain n txn) = domainTxns n ++ [txn] := by
  simp [domainTxns, withDomain]

@[simp] theorem tokenTxns_withFees (txn : DomainTxn) (fee : TokenTxn) (fees : ℤ) (s : Stores P) :
    tokenTxns (withFees n txn fee fees s) = tokenTxns n ++ [fee] := by
  simp [tokenTxns, withFees, withDomain]

@[simp] theorem domainTxns_withFees (txn : DomainTxn) (fee : TokenTxn) (fees : ℤ) (s : Stores P) :
    domainTxns (withFees n txn fee fees s) = domainTxns n ++ [txn] := by
  simp [domainTxns, withFees, withDomain]

theorem nextSeqNo_eq (n : Node P) : nextSeqNo n = (tokenTxns n).length + 1 := by
  simp [nextSeqNo, tokenTxns]

@[simp] theorem seqNo_domainTxn (typ : Str) (r : Request) (time : ℤ) :
    (domainTxn n typ r time).seqNo = (domainTxns n).length + 1 := by
  simp [domainTxn, domainTxns]

theorem hasDeductedFees_addDeductedFees {t : BatchFeesTracker} {typ typ' : Str} {k k' : ℕ} {z : ℤ} :
    hasDeductedFees (addDeductedFees t typ k z) typ' k' ↔
      feesKey typ' k' = feesKey typ k ∨ hasDeductedFees t typ' k' := by
  have hmem : ∀ t : BatchFeesTracker, hasDeductedFees t typ' k' ↔
      ∃ e ∈ t.deductedFees, e.1 = feesKey typ' k' := fun t => by
    simp [hasDeductedFees]
  simp only [hmem, addDeductedFees, List.mem_cons, List.mem_filter, decide_eq_true_eq]
  constructor
  · rintro ⟨e, rfl | ⟨he, -⟩, h⟩
    · exact Or.inl h.symm
    · exact Or.inr ⟨e, he, h⟩
  · rintro (h | ⟨e, he, h⟩)
    · exact ⟨_, Or.inl rfl, h.symm⟩
    · by_cases hk : e.1 = feesKey typ k
      · exact ⟨_, Or.inl rfl, hk.symm.trans h⟩
      · exact ⟨e, Or.inr ⟨he, hk⟩, h⟩

/-! ### The open batch -/

/-- The open batch, or the one that is opened. -/
def current (n : Node P) (l : LedgerId) : OpenBatch P :=
  n.openBatch.getD ⟨l, 0, P.state.headHash n.stores.tokenState⟩

theorem ledgerId_current {l : LedgerId} (h : OpenFor n (some l)) : (current n l).ledgerId = l := by
  unfold current
  cases hb : n.openBatch with
  | none => rfl
  | some b => exact Option.some.inj (h b hb)

/-- What holds of the open batch, also while it is empty. -/
theorem openOk_current (h : Inv Q n g) {l : LedgerId} (ho : OpenFor n (some l)) :
    ∃ newTxns, OpenOk n g l (current n l) newTxns := by
  cases hb : n.openBatch with
  | none =>
    obtain ⟨hs, hd, hops⟩ := h.start hb
    refine ⟨[], ?_⟩
    rw [current, hb]
    exact ⟨by rw [hs]; rfl, by simp [hs], fun _ => ⟨hd, rfl⟩, fun _ => by simp [hd],
      fun _ _ => ⟨by rw [hs], hops⟩⟩
  | some b =>
    obtain ⟨newTxns, hok⟩ := h.opened b hb
    rw [show b.ledgerId = l from Option.some.inj (ho b hb)] at hok
    exact ⟨newTxns, by rw [current, hb]; exact hok⟩

/-! ### The stores -/

/-- A transaction applied to the stores, at the point of the uncommitted reads. -/
theorem builtAt_snoc (h : Inv Q n g) {txn : TokenTxn} {lab : Label} {s : Stores P}
    (ok : EntryOk (nextSeqNo n) (txn, lab)) (hq : Q (txn, lab) (point n).view)
    (hs : Returns (update lab.updater txn false) n.stores () s)
    (hn : n'.stores = s) (ht : tokenTxns n' = tokenTxns n ++ [txn]) :
    BuiltAt Q (g.labels ++ [lab]) (point n') := by
  obtain ⟨hv, -⟩ := returns_update_uncommitted false hs
  have hlen : (tokenTxns n).length = g.labels.length := h.labels.symm
  have hz : ((point n).txns.zip g.labels).length = (tokenTxns n).length := by
    rw [List.length_zip]; exact Nat.min_eq_left h.built.length_le
  refine ⟨?_, ?_⟩
  · show (tokenTxns n').length ≤ _
    simp [ht, hlen]
  · show Built Q ((tokenTxns n').zip _) _
    rw [ht, List.zip_append hlen]
    refine .snoc h.built.built ?_ hq ?_
    · show EntryOk (((point n).txns.zip g.labels).length + 1) _
      rw [hz, ← nextSeqNo_eq]
      exact ok
    · subst hn; exact hv

theorem committedPoint_eq (n' : Node P) {s : Stores P} {u : Updater} {txn : TokenTxn}
    (hs : Returns (update u txn false) n.stores () s) (hn : n'.stores = s)
    (ht : (P.ledger.contents n'.tokenLedger).committed = (P.ledger.contents n.tokenLedger).committed) :
    committedPoint n' = committedPoint n ∧
      (P.cache.contents n'.stores.utxoCache).batches = (P.cache.contents n.stores.utxoCache).batches := by
  have hc := (returns_update_uncommitted false hs).2
  simp only [committedPart, Prod.mk.injEq] at hc
  obtain ⟨h1, h2, h3⟩ := hc
  subst hn
  exact ⟨Point.ext h1 ht h2, h3⟩

/-! ### One request -/

theorem inv_withToken (h : Inv Q n g) (ho : OpenFor n (some .token)) {txn : TokenTxn} {lab : Label}
    {s : Stores P} (ok : EntryOk (nextSeqNo n) (txn, lab)) (hq : Q (txn, lab) (point n).view)
    (hs : Returns (update lab.updater txn false) n.stores () s) :
    Inv Q (withToken n txn s) { g with labels := g.labels ++ [lab] } := by
  obtain ⟨hc, hb⟩ := committedPoint_eq (withToken n txn s) hs rfl (by simp [withToken])
  obtain ⟨newTxns, hopen⟩ := openOk_current h ho
  exact {
    labels := by simp [h.labels]
    queue := by rw [hc]; exact h.queue
    base := by rw [hc]; exact h.base.extend _
    pending := fun r hr => (h.pending r hr).extend _
    built := builtAt_snoc h ok hq hs rfl (tokenTxns_withToken _ _)
    tracker := by rw [hc]; exact h.tracker
    cache := hb.trans h.cache
    batches := h.batches
    domain := ⟨h.domain.uncommitted, h.domain.seqNo, h.domain.marks, h.domain.counter, h.domain.fees⟩
    start := fun hn => by cases hn
    opened := by
      rintro _ ⟨⟩
      refine ⟨newTxns ++ [txn], ?_⟩
      rw [show (joined .token n).ledgerId = .token from ledgerId_current ho]
      obtain ⟨hg, hcount⟩ := hopen.token rfl
      exact ⟨hopen.prev, by rw [tokenTxns_withToken, hopen.txns, List.append_assoc],
        fun _ => ⟨hg, by rw [List.length_append, ← hcount]; rfl⟩, nofun, nofun⟩ }

/-- A domain transaction, with or without a FEES transaction, joins the open batch. -/
theorem domainOk_snoc (h : DomainOk n g) {d : DomainTxn × Option TokenTxn} {labels : List Label}
    (hl : P.domainLedger.contents n'.domainLedger = (P.domainLedger.contents n.domainLedger).append [d.1])
    (hseq : d.1.seqNo = (domainTxns n).length + 1)
    (hmono : ∀ typ k, hasDeductedFees n.feesTracker typ k → hasDeductedFees n'.feesTracker typ k)
    (hmark : d.2.isSome → hasDeductedFees n'.feesTracker d.1.type d.1.seqNo)
    (hcount : n'.feesTracker.feesInCurrentBatch = n.feesTracker.feesInCurrentBatch + d.2.toList.length)
    (hf : FeeOk P d) : DomainOk n' { g with domain := g.domain ++ [d], labels := labels } where
  uncommitted := by
    rw [hl]
    simp [Log.append, h.uncommitted]
  seqNo := by
    have ht : domainTxns n' = domainTxns n ++ [d.1] := by rw [domainTxns, hl, Log.all_append]; rfl
    intro i txn hi
    rw [ht] at hi
    by_cases hlt : i < (domainTxns n).length
    · exact h.seqNo i txn (by rwa [List.getElem?_append_left hlt] at hi)
    · rw [List.getElem?_append_right (not_lt.mp hlt), List.getElem?_singleton] at hi
      split_ifs at hi with h0
      obtain rfl := Option.some.inj hi
      omega
  marks := by
    intro e he hs
    rw [← List.append_assoc] at he
    rcases List.mem_append.mp he with he | he
    · exact hmono _ _ (h.marks e he hs)
    · obtain rfl := List.mem_singleton.mp he
      exact hmark hs
  counter := by
    rw [hcount, h.counter, List.filterMap_append, List.length_append]
    obtain ⟨d₁, _ | d₂⟩ := d <;> rfl
  fees := by
    intro e he
    rcases List.mem_append.mp he with he | he
    · exact h.fees e he
    · exact List.mem_singleton.mp he ▸ hf

theorem inv_withDomain (h : Inv Q n g) (ho : OpenFor n (some .domain)) {txn : DomainTxn}
    (hseq : txn.seqNo = (domainTxns n).length + 1) :
    Inv Q (withDomain n txn) { g with domain := g.domain ++ [(txn, none)] } := by
  obtain ⟨newTxns, hopen⟩ := openOk_current h ho
  exact {
    labels := h.labels
    queue := h.queue
    base := h.base
    pending := h.pending
    built := h.built
    tracker := h.tracker
    cache := h.cache
    batches := h.batches
    domain := domainOk_snoc h.domain (by simp [withDomain]) hseq (fun _ _ => id) nofun rfl nofun
    start := nofun
    opened := by
      rintro _ ⟨⟩
      refine ⟨newTxns, ?_⟩
      rw [show (joined .domain n).ledgerId = .domain from ledgerId_current ho]
      obtain ⟨hcount, hnew⟩ := hopen.domain rfl
      refine ⟨hopen.prev, hopen.txns, nofun, fun _ => ⟨?_, ?_⟩, fun _ hnil => hopen.still rfl hnil⟩
      · rw [List.length_append, ← hcount]; rfl
      · rw [hnew, List.filterMap_append]; simp }

theorem inv_withFees (h : Inv Q n g) (ho : OpenFor n (some .domain)) {txn : DomainTxn}
    {fee : TokenTxn} {fees : ℤ} {lab : Label} {s : Stores P}
    (hseq : txn.seqNo = (domainTxns n).length + 1) (hf : FeeOk P (txn, some fee))
    (ok : EntryOk (nextSeqNo n) (fee, lab)) (hq : Q (fee, lab) (point n).view)
    (hs : Returns (update lab.updater fee false) n.stores () s) :
    Inv Q (withFees n txn fee fees s)
      { g with domain := g.domain ++ [(txn, some fee)], labels := g.labels ++ [lab] } := by
  obtain ⟨hc, hb⟩ :=
    committedPoint_eq (withFees n txn fee fees s) hs rfl (by simp [withFees, withDomain])
  obtain ⟨newTxns, hopen⟩ := openOk_current h ho
  have hmark : ∀ typ k, hasDeductedFees (withFees n txn fee fees s).feesTracker typ k ↔
      feesKey typ k = feesKey txn.type txn.seqNo ∨ hasDeductedFees n.feesTracker typ k :=
    fun _ _ => hasDeductedFees_addDeductedFees
  exact {
    labels := by simp [h.labels]
    queue := by rw [hc]; exact h.queue
    base := by rw [hc]; exact h.base.extend _
    pending := fun r hr => (h.pending r hr).extend _
    built := builtAt_snoc h ok hq hs rfl (tokenTxns_withFees ..)
    tracker := by rw [hc]; exact h.tracker
    cache := hb.trans h.cache
    batches := h.batches
    domain := domainOk_snoc h.domain (by simp [withFees, withDomain]) hseq
      (fun typ k hk => (hmark typ k).mpr (Or.inr hk)) (fun _ => (hmark _ _).mpr (Or.inl rfl)) rfl hf
    start := nofun
    opened := by
      rintro _ ⟨⟩
      refine ⟨newTxns ++ [fee], ?_⟩
      rw [show (joined .domain n).ledgerId = .domain from ledgerId_current ho]
      obtain ⟨hcount, hnew⟩ := hopen.domain rfl
      refine ⟨hopen.prev, ?_, nofun, fun _ => ⟨?_, ?_⟩, fun _ hnil => by simp at hnil⟩
      · rw [tokenTxns_withFees, hopen.txns, List.append_assoc]
      · rw [List.length_append, ← hcount]; rfl
      · rw [hnew, List.filterMap_append]; rfl }

/-- A change of the fees map. -/
theorem inv_config (h : Inv Q n g) (ho : n.openBatch = none) (fees : FeesMap) :
    Inv Q { n with configFees := fees } { g with start := { n with configFees := fees } } := by
  obtain ⟨hs, hd, hops⟩ := h.start ho
  have hq := h.queue
  rw [hs] at hq
  exact {
    labels := h.labels
    queue := hq
    base := h.base
    pending := h.pending
    built := h.built
    tracker := h.tracker
    cache := h.cache
    batches := h.batches
    domain := ⟨h.domain.uncommitted, h.domain.seqNo, h.domain.marks, h.domain.counter, h.domain.fees⟩
    start := fun _ => ⟨rfl, hd, hops⟩
    opened := fun b hb => by rw [show n.openBatch = some b from hb] at ho; cases ho }

/-! ### Every request -/

/-- The transaction that a request appends to the token ledger is one that `Q` holds of. -/
def Admits (Q : Entry → View → Prop) (r : Request) (version : XferVersion)
    (auths : List AuthConstraint) (n n' : Node P) : Prop :=
  ∀ txn, tokenTxns n' = tokenTxns n ++ [txn] →
    Q (txn, labelOf n.configFees r version auths) (point n).view

section Label
variable {r : Request} (version : XferVersion) (auths : List AuthConstraint) (fees : FeesMap)

theorem updater_xfer {ins : List Input} {outs : List OutputSpec} {sigs : List Json}
    (hop : r.operation = .xfer ins outs sigs) : (labelOf fees r version auths).updater =
      if version = .v100 then .xfer100 else .xfer := by
  unfold labelOf
  rw [hop]
  cases version <;> rfl

theorem labelOf_mint {outs : List OutputSpec} (hop : r.operation = .mint outs) :
    labelOf fees r version auths = ⟨.mint, 0⟩ := by
  unfold labelOf
  rw [hop]

theorem updater_domain {typ : Str} (hop : r.operation = .domain typ) :
    (labelOf fees r version auths).updater = .fees := by
  unfold labelOf
  rw [hop]

end Label

variable {r : Request} {version : XferVersion} {auths : List AuthConstraint} {time : ℤ}

theorem next_apply (ts : List TokenTxn) (ds : List DomainTxn)
    (ht : tokenTxns n' = tokenTxns n ++ ts) (hd : domainTxns n' = domainTxns n ++ ds) :
    g.next n n' (.apply r version auths time) =
      { g with
        start := if n'.openBatch.isNone then n' else g.start
        domain := g.domain ++ ds.map fun txn => (txn, ts.head?)
        labels := g.labels ++ ts.map fun _ => labelOf n.configFees r version auths } := by
  simp only [Trace.next, ht, hd, List.drop_left]

/-- **Applying a request keeps the invariant.** -/
theorem inv_apply (h : Inv Q n g) (hst : StaticOk P r) (ho : OpenFor n (ledgerOf r.operation))
    (he : ApplyEffect r version auths time n n') (hq : Admits Q r version auths n n') :
    Inv Q n' (g.next n n' (.apply r version auths time)) := by
  have hv := hst.1
  cases he with
  | @mint outs s hop hs =>
    rw [hop] at hv ho
    have hlab := labelOf_mint version auths n.configFees hop
    have hq := hq _ (tokenTxns_withToken _ _)
    rw [next_apply _ [] (tokenTxns_withToken _ _) (by simp)]
    simp only [List.map_nil, List.append_nil, List.map_cons, hlab] at hq ⊢
    have hok : EntryOk (nextSeqNo n) (mintTxn r outs time (nextSeqNo n), ⟨.mint, 0⟩) :=
      ⟨rfl, rfl, hv.1.2, fun _ => rfl⟩
    exact inv_withToken h ho hok hq hs
  | @xfer ins outs sigs s hop _ _ hs =>
    rw [hop] at hv ho
    have hok : EntryOk (nextSeqNo n)
        (xferTxn r ins outs sigs time (nextSeqNo n), labelOf n.configFees r version auths) :=
      ⟨rfl, by rw [updater_xfer version auths _ hop]; split_ifs <;> rfl, hv.2.1.2, fun hu => by
        rw [updater_xfer version auths _ hop] at hu
        split_ifs at hu⟩
    rw [next_apply _ [] (tokenTxns_withToken _ _) (by simp)]
    simp only [List.map_nil, List.append_nil, List.map_cons]
    exact inv_withToken h ho hok (hq _ (tokenTxns_withToken _ _)) hs
  | @domain typ hop hf _ =>
    rw [hop] at ho
    rw [next_apply [] _ (by simp) (domainTxns_withDomain _)]
    simp only [List.map_nil, List.append_nil, List.map_cons]
    exact inv_withDomain h ho (seqNo_domainTxn ..)
  | @domainFees typ section_ fees s hop hf _ _ hs =>
    rw [hop] at ho
    have hfees := hst.2
    rw [hf] at hfees
    obtain ⟨⟨-, hlen⟩, ⟨hvo, -⟩, -⟩ := hfees
    have hlab := updater_domain version auths n.configFees hop
    rw [next_apply _ _ (tokenTxns_withFees ..) (domainTxns_withFees ..)]
    simp only [List.map_cons, List.map_nil]
    refine inv_withFees h ho (seqNo_domainTxn ..) ?_ ⟨rfl, by rw [hlab]; rfl, hvo.2, ?_⟩
      (hq _ (tokenTxns_withFees ..)) (by rw [hlab]; exact hs)
    · rintro _ ⟨⟩
      refine ⟨rfl, List.ne_nil_of_length_pos ?_⟩
      exact hlen
    · rw [hlab]
      nofun
  | config hop fees =>
    rw [hop] at ho
    have hnone : n.openBatch = none := Option.eq_none_iff_forall_not_mem.mpr fun b hb => nomatch ho b hb
    rw [next_apply [] [] (by simp [tokenTxns]) (by simp [domainTxns])]
    simp only [List.map_nil, List.append_nil]
    rw [if_pos (by rw [hnone]; rfl)]
    exact inv_config h hnone fees

end TokenPlugin.Applying
