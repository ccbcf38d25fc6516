import TokenPlugin.Messages.FieldErrors
import TokenPlugin.Reference

/-! # The grammar of transfers

Static validation should accept the operations of the grammar and refuse all others as errors of the
client. It takes booleans for numbers and any value with a length for the signatures, looks up keys before
it knows that they are there, and takes lengths before it knows that there is one. -/

namespace TokenPlugin.Properties.TransferGrammar

open Python Token.Types Messages.Fields Messages.FieldErrors Reference

variable {P : Platform} {op : List (Str × Json)}

/-- The value is a map with a valid address and a positive integer under the key. -/
def Entry (P : Platform) (key : Str) (v : Json) (e : Str × ℤ) : Prop :=
  ∃ m, v = .obj m ∧ Json.field m "address" = some (.str e.1) ∧ ValidAddress P e.1 ∧
    Json.field m key = some (.int e.2) ∧ 1 ≤ e.2

/-- The operations that should be accepted. -/
def Grammar (P : Platform) (op : List (Str × Json)) : Prop :=
  ∃ outs ins sigs outputs inputs,
    Json.field op "outputs" = some (.list outs) ∧ List.Forall₂ (Entry P "amount") outs outputs ∧
      (outputs.map Prod.fst).Nodup ∧
    Json.field op "inputs" = some (.list ins) ∧ List.Forall₂ (Entry P "seqNo") ins inputs ∧ inputs.Nodup ∧
    Json.field op "signatures" = some (.list sigs) ∧ ins.length = sigs.length

/-- An entry of the outputs or of the inputs has an address that does not decode. -/
def Undecodable (P : Platform) (op : List (Str × Json)) : Prop :=
  ∃ key ∈ [("outputs" : Str), "inputs"], ∃ l, Json.field op key = some (.list l) ∧
    ∃ v ∈ l, UndecodableAddress P v

/-- An error of the client: `InvalidClientRequest`, or `UnknownIdentifier` for an address that does not
decode. -/
def ClientError (P : Platform) (op : List (Str × Json)) (e : PyErr) : Prop :=
  e.cls = .invalidClientRequest ∨ e.cls = .unknownIdentifier ∧ Undecodable P op

/-- Static validation accepts exactly the grammar, and raises errors of the client only. -/
def AsIntended (P : Platform) (op : List (Str × Json)) : Prop :=
  (xferStaticValidation P op = .ok () ↔ Grammar P op) ∧
    ∀ e, xferStaticValidation P op = .error e → ClientError P op e

/-- A map with a valid address and under the key a positive number, which may be a boolean. -/
def Passes (P : Platform) (key : Str) (v : Json) : Prop :=
  ∃ e, readPair key v = some e ∧ ValidAddress P e.1 ∧ 1 ≤ e.2.val

/-- The outputs pass, so that the inputs are looked at. -/
def OutputsPass (P : Platform) (op : List (Str × Json)) : Prop :=
  ∃ v outs, Json.field op "outputs" = some v ∧ readAll readOutput v = some outs ∧ ValidOutputs P outs

/-- An entry that lacks a key comes after entries that pass. -/
def Reaches (P : Platform) (key : Str) (l : List Json) : Prop :=
  ∃ pre v post, l = pre ++ v :: post ∧ (∀ w ∈ pre, Passes P key w) ∧ LacksKey P key v

/-- The operations that static validation gets wrong. -/
inductive Irregular (P : Platform) (op : List (Str × Json)) : Prop
  /-- An output that is reached lacks its address or its amount. -/
  | output {l : List Json} (hout : Json.field op "outputs" = some (.list l)) (hl : Reaches P "amount" l)
  /-- Inputs or signatures have no length. -/
  | unsized {vi vs : Json} (hout : OutputsPass P op) (hi : Json.field op "inputs" = some vi)
      (hs : Json.field op "signatures" = some vs) (h : items vi = none ∨ items vs = none)
  /-- An input that is reached lacks its address or its number. -/
  | input {l sigs : List Json} {vs : Json} (hout : OutputsPass P op)
      (hi : Json.field op "inputs" = some (.list l)) (hs : Json.field op "signatures" = some vs)
      (hsigs : items vs = some sigs) (hlen : l.length = sigs.length) (hl : Reaches P "seqNo" l)
  /-- All is well, but that a number is a boolean or the signatures are no list. -/
  | loose {ins : List Input} {outs : List OutputSpec} {sigs : List Json}
      (hread : readXfer op = some (.xfer ins outs sigs)) (hv : ValidXfer P ins outs sigs)
      (h : (∃ o ∈ outs, o.amount.isBool = true) ∨ (∃ i ∈ ins, i.seqNo.isBool = true) ∨
        ∀ l, Json.field op "signatures" ≠ some (.list l))

/-! ### Reading -/

theorem readPair_eq_some {key : Str} {v : Json} {e : Str × PyInt} : readPair key v = some e ↔
    ∃ m n, v = .obj m ∧ Json.field m "address" = some (.str e.1) ∧ Json.field m key = some n ∧
      Json.asInt n = some e.2 := by
  unfold readPair
  simp only [Option.bind_eq_bind, Option.bind_eq_some_iff, asObj_eq_some, asStr_eq_some, Option.some.injEq]
  constructor
  · rintro ⟨m, rfl, _, ⟨_, haddr, rfl⟩, _, ⟨n, hn, hint⟩, rfl⟩
    exact ⟨m, n, rfl, haddr, hn, hint⟩
  · rintro ⟨m, n, rfl, haddr, hn, hint⟩
    exact ⟨m, rfl, e.1, ⟨_, haddr, rfl⟩, e.2, ⟨n, hn, hint⟩, rfl⟩

theorem asInt_eq_int {v : Json} {z : ℤ} : Json.asInt v = some (.int z) ↔ v = .int z := by
  cases v <;> simp [Json.asInt]

/-- An entry of the grammar is one that passes with an integer. -/
theorem entry_iff {key : Str} {v : Json} {e : Str × ℤ} :
    Entry P key v e ↔ readPair key v = some (e.1, .int e.2) ∧ ValidAddress P e.1 ∧ 1 ≤ e.2 := by
  rw [readPair_eq_some]
  constructor
  · rintro ⟨m, rfl, haddr, hva, hn, hpos⟩
    exact ⟨⟨m, _, rfl, haddr, hn, rfl⟩, hva, hpos⟩
  · rintro ⟨⟨m, n, rfl, haddr, hn, hint⟩, hva, hpos⟩
    obtain rfl := asInt_eq_int.mp hint
    exact ⟨m, rfl, haddr, hva, hn, hpos⟩

/-- A list that is read entry by entry, and whose values stand for valid addresses and integers, is a list
of entries of the grammar; and the other way round. -/
theorem forall₂_entry_iff {α : Type} {key : Str} {read : Json → Option α} (make : Str × PyInt → α)
    (pair : α → Str × PyInt) (hmake : ∀ e, pair (make e) = e)
    (hread : ∀ v, read v = (readPair key v).map make) {l : List Json} {xs : List α} :
    (∃ es : List (Str × ℤ), List.Forall₂ (Entry P key) l es ∧ xs = es.map fun e => make (e.1, .int e.2)) ↔
      List.Forall₂ (fun v x => read v = some x) l xs ∧
        ∀ x ∈ xs, ValidAddress P (pair x).1 ∧ 1 ≤ (pair x).2.val ∧ (pair x).2.isBool = false := by
  have hone : ∀ v x, (read v = some x ∧ ValidAddress P (pair x).1 ∧ 1 ≤ (pair x).2.val ∧
      (pair x).2.isBool = false) ↔ ∃ e, Entry P key v e ∧ x = make (e.1, .int e.2) := by
    intro v x
    simp only [entry_iff, hread, Option.map_eq_some_iff]
    constructor
    · rintro ⟨⟨e, he, rfl⟩, hva, hpos, hb⟩
      rw [hmake] at hva hpos hb
      rw [PyInt.isBool_eq_false] at hb
      exact ⟨(e.1, e.2.val), ⟨by rw [he, ← hb], hva, hpos⟩, by rw [← hb]⟩
    · rintro ⟨e, ⟨he, hva, hpos⟩, rfl⟩
      rw [hmake]
      exact ⟨⟨_, he, rfl⟩, hva, hpos, rfl⟩
  constructor
  · rintro ⟨es, hes, rfl⟩
    induction hes with
    | nil => exact ⟨.nil, by simp⟩
    | cons he _ ih =>
      obtain ⟨hr, hp⟩ := (hone _ _).mpr ⟨_, he, rfl⟩
      exact ⟨.cons hr ih.1, List.forall_mem_cons.mpr ⟨hp, ih.2⟩⟩
  · rintro ⟨hl, hall⟩
    induction hl with
    | nil => exact ⟨[], .nil, rfl⟩
    | cons hr _ ih =>
      obtain ⟨hp, hall⟩ := List.forall_mem_cons.mp hall
      obtain ⟨es, hes, rfl⟩ := ih hall
      obtain ⟨e, he, rfl⟩ := (hone _ _).mp ⟨hr, hp⟩
      exact ⟨e :: es, .cons he hes, rfl⟩

theorem readXfer_eq_some {ins : List Input} {outs : List OutputSpec} {sigs : List Json} :
    readXfer op = some (.xfer ins outs sigs) ↔ ∃ vi vo vs, Json.field op "inputs" = some vi ∧
      readAll readInput vi = some ins ∧ Json.field op "outputs" = some vo ∧ readAll readOutput vo = some outs ∧
      Json.field op "signatures" = some vs ∧ items vs = some sigs := by
  unfold readXfer
  simp only [Option.bind_eq_bind, Option.bind_eq_some_iff, Option.some.injEq, Operation.xfer.injEq]
  constructor
  · rintro ⟨_, ⟨vi, hvi, hi⟩, _, ⟨vo, hvo, ho⟩, _, ⟨vs, hvs, hs⟩, rfl, rfl, rfl⟩
    exact ⟨vi, vo, vs, hvi, hi, hvo, ho, hvs, hs⟩
  · rintro ⟨vi, vo, vs, hvi, hi, hvo, ho, hvs, hs⟩
    exact ⟨ins, ⟨vi, hvi, hi⟩, outs, ⟨vo, hvo, ho⟩, sigs, ⟨vs, hvs, hs⟩, rfl, rfl, rfl⟩

theorem readAll_eq_some {α : Type} {read : Json → Option α} {v : Json} {xs : List α} :
    readAll read v = some xs ↔ ∃ l, v = .list l ∧ List.Forall₂ (fun v x => read v = some x) l xs := by
  unfold readAll
  simp only [Option.bind_eq_some_iff, asList_eq_some, mapM_eq_some]

/-- Outputs of the grammar are those that pass with integers. -/
theorem outputs_iff {l : List Json} {outs : List OutputSpec} :
    (∃ es : List (Str × ℤ), List.Forall₂ (Entry P "amount") l es ∧
        outs = es.map (fun e => ⟨e.1, .int e.2⟩) ∧ (es.map Prod.fst).Nodup) ↔
      List.Forall₂ (fun v x => readOutput v = some x) l outs ∧ ValidOutputs P outs ∧
        ∀ o ∈ outs, o.amount.isBool = false := by
  have hall : (∃ es : List (Str × ℤ), List.Forall₂ (Entry P "amount") l es ∧
      outs = es.map fun e => ⟨e.1, .int e.2⟩) ↔ List.Forall₂ (fun v x => readOutput v = some x) l outs ∧
        ∀ o ∈ outs, ValidAddress P o.address ∧ 1 ≤ o.amount.val ∧ o.amount.isBool = false :=
    forall₂_entry_iff (fun e => OutputSpec.mk e.1 e.2) (fun o => (o.address, o.amount)) (fun _ => rfl)
      fun _ => rfl
  unfold ValidOutputs
  constructor
  · rintro ⟨es, hes, rfl, hn⟩
    obtain ⟨hl, hp⟩ := hall.mp ⟨es, hes, rfl⟩
    refine ⟨hl, ⟨fun o ho => ⟨(hp o ho).1, (hp o ho).2.1⟩, ?_⟩, fun o ho => (hp o ho).2.2⟩
    rw [List.map_map]
    exact hn
  · rintro ⟨hl, ⟨hv, hn⟩, hb⟩
    obtain ⟨es, hes, rfl⟩ := hall.mpr ⟨hl, fun o ho => ⟨(hv o ho).1, (hv o ho).2, hb o ho⟩⟩
    refine ⟨es, hes, rfl, ?_⟩
    rw [List.map_map] at hn
    exact hn

/-- Inputs of the grammar are those that pass with integers. -/
theorem inputs_iff {l : List Json} {ins : List Input} :
    (∃ es : List (Str × ℤ), List.Forall₂ (Entry P "seqNo") l es ∧
        ins = es.map (fun e => ⟨e.1, .int e.2⟩) ∧ es.Nodup) ↔
      List.Forall₂ (fun v x => readInput v = some x) l ins ∧ ValidInputs P ins ∧
        ∀ i ∈ ins, i.seqNo.isBool = false := by
  have hall : (∃ es : List (Str × ℤ), List.Forall₂ (Entry P "seqNo") l es ∧
      ins = es.map fun e => ⟨e.1, .int e.2⟩) ↔ List.Forall₂ (fun v x => readInput v = some x) l ins ∧
        ∀ i ∈ ins, ValidAddress P i.address ∧ 1 ≤ i.seqNo.val ∧ i.seqNo.isBool = false :=
    forall₂_entry_iff (fun e => Input.mk e.1 e.2) (fun i => (i.address, i.seqNo)) (fun _ => rfl)
      fun _ => rfl
  have hkeys : ∀ es : List (Str × ℤ), (es.map fun e => (⟨e.1, .int e.2⟩ : Input)).map inputKey = es :=
    fun es => by
      rw [List.map_map]
      exact List.map_id es
  unfold ValidInputs
  constructor
  · rintro ⟨es, hes, rfl, hn⟩
    obtain ⟨hl, hp⟩ := hall.mp ⟨es, hes, rfl⟩
    exact ⟨hl, ⟨fun i hi => ⟨(hp i hi).1, (hp i hi).2.1⟩, by rwa [hkeys]⟩, fun i hi => (hp i hi).2.2⟩
  · rintro ⟨hl, ⟨hv, hn⟩, hb⟩
    obtain ⟨es, hes, rfl⟩ := hall.mpr ⟨hl, fun i hi => ⟨(hv i hi).1, (hv i hi).2, hb i hi⟩⟩
    exact ⟨es, hes, rfl, by rwa [hkeys] at hn⟩

/-- **The grammar** is what static validation lets through with integers and a list of signatures. -/
theorem grammar_iff : Grammar P op ↔ ∃ ins outs sigs, readXfer op = some (.xfer ins outs sigs) ∧
    ValidXfer P ins outs sigs ∧ (∀ o ∈ outs, o.amount.isBool = false) ∧
    (∀ i ∈ ins, i.seqNo.isBool = false) ∧ ∃ l, Json.field op "signatures" = some (.list l) := by
  constructor
  · rintro ⟨lo, li, ls, eo, ei, ho, hfo, hno, hi, hfi, hni, hs, hlen⟩
    obtain ⟨hro, hvo, hbo⟩ := outputs_iff.mp ⟨eo, hfo, rfl, hno⟩
    obtain ⟨hri, hvi, hbi⟩ := inputs_iff.mp ⟨ei, hfi, rfl, hni⟩
    refine ⟨_, _, ls, readXfer_eq_some.mpr ⟨_, _, _, hi, readAll_eq_some.mpr ⟨li, rfl, hri⟩, ho,
      readAll_eq_some.mpr ⟨lo, rfl, hro⟩, hs, rfl⟩, ⟨hvi, hvo, ?_⟩, hbo, hbi, ls, hs⟩
    rw [← hri.length_eq, hlen]
  · rintro ⟨ins, outs, sigs, hread, ⟨hvi, hvo, hlen⟩, hbo, hbi, ls, hs⟩
    obtain ⟨vi, vo, vs, hi, hins, ho, houts, hs', hsigs⟩ := readXfer_eq_some.mp hread
    obtain ⟨li, rfl, hri⟩ := readAll_eq_some.mp hins
    obtain ⟨lo, rfl, hro⟩ := readAll_eq_some.mp houts
    obtain rfl : Json.list ls = vs := Option.some.inj (hs.symm.trans hs')
    obtain rfl : ls = sigs := Option.some.inj hsigs
    obtain ⟨eo, hfo, -, hno⟩ := outputs_iff.mpr ⟨hro, hvo, hbo⟩
    obtain ⟨ei, hfi, -, hni⟩ := inputs_iff.mpr ⟨hri, hvi, hbi⟩
    exact ⟨lo, li, ls, eo, ei, ho, hfo, hno, hi, hfi, hni, hs, hri.length_eq.trans hlen⟩

/-! ### What is raised -/

theorem needItem_eq_error {key : Str} {e : PyErr} (h : needItem op key = .error e) :
    e.cls = .invalidClientRequest := by
  unfold needItem at h
  cases hf : Json.field op key with
  | none =>
    rw [hf] at h
    cases h
    rfl
  | some v =>
    rw [hf] at h
    cases h

theorem pyLen_eq_error {v : Json} : (∃ e, pyLen v = .error e) ↔ items v = none := by
  unfold pyLen
  cases items v <;> simp

theorem pyLen_error_cls {v : Json} {e : PyErr} (h : pyLen v = .error e) : e.cls = .typeError := by
  unfold pyLen at h
  cases hi : items v with
  | none =>
    rw [hi] at h
    cases h
    rfl
  | some l =>
    rw [hi] at h
    cases h

theorem passes_of_output {v : Json} (h : publicOutputField P v = valid) : Passes P "amount" v := by
  obtain ⟨o, ho, hva, hpos⟩ := publicOutputField_eq_valid.mp h
  obtain ⟨e, he, rfl⟩ := Option.map_eq_some_iff.mp ho
  exact ⟨e, he, hva, hpos⟩

theorem passes_of_input {v : Json} (h : publicInputField P v = valid) : Passes P "seqNo" v := by
  obtain ⟨i, hi, hva, hpos⟩ := publicInputField_eq_valid.mp h
  obtain ⟨e, he, rfl⟩ := Option.map_eq_some_iff.mp hi
  exact ⟨e, he, hva, hpos⟩

theorem output_of_passes {v : Json} : Passes P "amount" v → publicOutputField P v = valid := by
  rintro ⟨e, he, hva, hpos⟩
  exact publicOutputField_eq_valid.mpr ⟨⟨e.1, e.2⟩, by rw [readOutput, he]; rfl, hva, hpos⟩

theorem input_of_passes {v : Json} : Passes P "seqNo" v → publicInputField P v = valid := by
  rintro ⟨e, he, hva, hpos⟩
  exact publicInputField_eq_valid.mpr ⟨⟨e.1, e.2⟩, by rw [readInput, he]; rfl, hva, hpos⟩

/-- A list of maps raises `KeyError` when an entry that lacks a key is reached; all else that it raises is
for an address that does not decode. -/
theorem firstError_cases {key : Str} {check inner : Json → Verdict} (hin : inner = publicField P key check)
    (hc : ∀ w e, check w ≠ .error e) (hpass : ∀ v, inner v = valid → Passes P key v) {l : List Json}
    {e : PyErr} (h : firstError inner l = .error e) :
    Reaches P key l ∨ e.cls = .unknownIdentifier ∧ ∃ v ∈ l, UndecodableAddress P v := by
  obtain ⟨pre, v, post, rfl, hpre, hv⟩ := firstError_eq_error.mp h
  rw [hin] at hv
  rcases publicField_eq_error hc hv with ⟨-, hl⟩ | ⟨he, hu⟩
  · exact Or.inl ⟨pre, v, post, rfl, fun w hw => hpass w (hpre w hw), hl⟩
  · exact Or.inr ⟨he, v, by simp, hu⟩

theorem exists_firstError {key : Str} {check inner : Json → Verdict} (hin : inner = publicField P key check)
    (hpass : ∀ v, Passes P key v → inner v = valid) {l : List Json} (h : Reaches P key l) :
    ∃ e, firstError inner l = .error e ∧ e.cls = .keyError := by
  obtain ⟨pre, v, post, rfl, hpre, hv⟩ := h
  obtain ⟨e, he, hcls⟩ := exists_publicField_error check hv
  exact ⟨e, firstError_eq_error.mpr ⟨pre, v, post, rfl, fun w hw => hpass w (hpre w hw), by rw [hin]; exact he⟩,
    hcls⟩

theorem outputsValidate_eq_valid : outputsValidate P op = valid ↔ OutputsPass P op := by
  unfold outputsValidate OutputsPass
  simp only [bind_eq_valid, needItem_eq_ok, publicOutputsField_eq_valid]
  constructor
  · rintro ⟨v, hv, outs, houts, hvalid, -⟩
    exact ⟨v, outs, hv, houts, hvalid⟩
  · rintro ⟨v, outs, hv, houts, hvalid⟩
    exact ⟨v, hv, outs, houts, hvalid, by simp⟩

/-- What the check of the outputs raises. -/
theorem outputsValidate_cases {e : PyErr} (h : outputsValidate P op = .error e) :
    ClientError P op e ∨ Irregular P op := by
  rcases bind_eq_error.mp h with hneed | ⟨v, hv, hfield⟩
  · exact Or.inl (Or.inl (needItem_eq_error hneed))
  · obtain ⟨l, rfl, hl⟩ := publicOutputsField_eq_error.mp hfield
    have hv := needItem_eq_ok.mp hv
    rcases firstError_cases rfl (fun _ _ => publicAmountField_ne_error) (fun _ => passes_of_output) hl with
      hreach | ⟨he, hu⟩
    · exact Or.inr (.output hv hreach)
    · exact Or.inl (Or.inr ⟨he, _, by simp, l, hv, hu⟩)

/-- What the check of the inputs raises, once the outputs have passed. -/
theorem inputsValidate_cases (hout : OutputsPass P op) {e : PyErr} (h : inputsValidate P op = .error e) :
    ClientError P op e ∨ Irregular P op := by
  unfold inputsValidate at h
  rcases bind_eq_error.mp h with hneed | ⟨vi, hvi, hrest⟩
  · exact Or.inl (Or.inl (needItem_eq_error hneed))
  rcases bind_eq_error.mp hrest with hneed | ⟨vs, hvs, hrest⟩
  · exact Or.inl (Or.inl (needItem_eq_error hneed))
  have hvi := needItem_eq_ok.mp hvi
  have hvs := needItem_eq_ok.mp hvs
  rcases bind_eq_error.mp hrest with hlen | ⟨ni, hni, hrest⟩
  · exact Or.inr (.unsized hout hvi hvs (Or.inl (pyLen_eq_error.mp ⟨e, hlen⟩)))
  rcases bind_eq_error.mp hrest with hlen | ⟨ns, hns, hrest⟩
  · exact Or.inr (.unsized hout hvi hvs (Or.inr (pyLen_eq_error.mp ⟨e, hlen⟩)))
  split_ifs at hrest with hne
  · obtain rfl := Except.error.inj hrest
    exact Or.inl (Or.inl rfl)
  · obtain ⟨l, rfl, hl⟩ := publicInputsField_eq_error.mp hrest
    obtain ⟨li, hli, rfl⟩ := pyLen_eq_ok.mp hni
    obtain ⟨ls, hls, rfl⟩ := pyLen_eq_ok.mp hns
    obtain rfl : l = li := Option.some.inj hli
    rcases firstError_cases rfl (fun _ _ => txnSeqNoField_ne_error) (fun _ => passes_of_input) hl with
      hreach | ⟨he, hu⟩
    · exact Or.inr (.input hout hvi hvs hls (not_not.mp hne) hreach)
    · exact Or.inl (Or.inr ⟨he, _, by simp, l, hvi, hu⟩)

/-- An error that is not one of the client. -/
def Crashes (P : Platform) (op : List (Str × Json)) : Prop :=
  ∃ e, xferStaticValidation P op = .error e ∧ (e.cls = .keyError ∨ e.cls = .typeError)

theorem crashes_of_verdict {e : PyErr}
    (h : (outputsValidate P op).andThen [] (inputsValidate P op) = .error e)
    (he : e.cls = .keyError ∨ e.cls = .typeError) : Crashes P op :=
  ⟨e, by unfold xferStaticValidation; rw [h]; rfl, he⟩

theorem crashes_of_inputs (hout : OutputsPass P op) {e : PyErr} (h : inputsValidate P op = .error e)
    (he : e.cls = .keyError ∨ e.cls = .typeError) : Crashes P op :=
  crashes_of_verdict (andThen_eq_error.mpr (Or.inr ⟨outputsValidate_eq_valid.mpr hout, h⟩)) he

/-- An irregular operation that is no transfer makes static validation crash. -/
theorem crashes_or_loose (h : Irregular P op) : Crashes P op ∨ ∃ ins outs sigs,
    readXfer op = some (.xfer ins outs sigs) ∧ ValidXfer P ins outs sigs ∧
      ((∃ o ∈ outs, o.amount.isBool = true) ∨ (∃ i ∈ ins, i.seqNo.isBool = true) ∨
        ∀ l, Json.field op "signatures" ≠ some (.list l)) := by
  cases h with
  | @output l hfield hl =>
    obtain ⟨e, he, hcls⟩ : ∃ e, firstError (publicOutputField P) l = .error e ∧ e.cls = .keyError :=
      exists_firstError rfl (fun _ => output_of_passes) hl
    have hov : outputsValidate P op = .error e := bind_eq_error.mpr (Or.inr ⟨_, needItem_eq_ok.mpr hfield,
      publicOutputsField_eq_error.mpr ⟨l, rfl, he⟩⟩)
    exact Or.inl (crashes_of_verdict (andThen_eq_error.mpr (Or.inl hov)) (Or.inl hcls))
  | @unsized vi vs hout hi hs hnone =>
    left
    cases hvi : items vi with
    | none =>
      obtain ⟨e, he⟩ := pyLen_eq_error.mpr hvi
      refine crashes_of_inputs hout ?_ (Or.inr (pyLen_error_cls he))
      exact bind_eq_error.mpr (Or.inr ⟨_, needItem_eq_ok.mpr hi, bind_eq_error.mpr (Or.inr ⟨_,
        needItem_eq_ok.mpr hs, bind_eq_error.mpr (Or.inl he)⟩)⟩)
    | some li =>
      obtain ⟨e, he⟩ := pyLen_eq_error.mpr (hnone.resolve_left (by simp [hvi]))
      refine crashes_of_inputs hout ?_ (Or.inr (pyLen_error_cls he))
      exact bind_eq_error.mpr (Or.inr ⟨_, needItem_eq_ok.mpr hi, bind_eq_error.mpr (Or.inr ⟨_,
        needItem_eq_ok.mpr hs, bind_eq_error.mpr (Or.inr ⟨_, pyLen_eq_ok.mpr ⟨li, hvi, rfl⟩,
          bind_eq_error.mpr (Or.inl he)⟩)⟩)⟩)
  | @input l sigs vs hout hi hs hsigs hlen hl =>
    obtain ⟨e, he, hcls⟩ : ∃ e, firstError (publicInputField P) l = .error e ∧ e.cls = .keyError :=
      exists_firstError rfl (fun _ => input_of_passes) hl
    refine Or.inl (crashes_of_inputs hout ?_ (Or.inl hcls))
    refine bind_eq_error.mpr (Or.inr ⟨_, needItem_eq_ok.mpr hi, bind_eq_error.mpr (Or.inr ⟨_,
      needItem_eq_ok.mpr hs, bind_eq_error.mpr (Or.inr ⟨_, pyLen_eq_ok.mpr ⟨l, rfl, rfl⟩,
        bind_eq_error.mpr (Or.inr ⟨_, pyLen_eq_ok.mpr ⟨sigs, hsigs, rfl⟩, ?_⟩)⟩)⟩)⟩)
    rw [if_neg (not_not.mpr hlen)]
    exact publicInputsField_eq_error.mpr ⟨l, rfl, he⟩
  | loose hread hv hb => exact Or.inr ⟨_, _, _, hread, hv, hb⟩

/-! ### Static validation -/

/-- **When static validation is as intended.** It accepts exactly the grammar and raises errors of the
client only, unless the operation is irregular. -/
theorem asIntended_iff : AsIntended P op ↔ ¬Irregular P op := by
  constructor
  · rintro ⟨haccept, hclean⟩ hirr
    rcases crashes_or_loose hirr with ⟨e, he, hcls⟩ | ⟨ins, outs, sigs, hread, hv, hb⟩
    · rcases hclean e he with hc | ⟨hc, -⟩ <;> rcases hcls with hcls | hcls <;> rw [hc] at hcls <;> cases hcls
    · obtain ⟨ins', outs', sigs', hread', -, hbo, hbi, l, hl⟩ :=
        grammar_iff.mp (haccept.mp (xferStaticValidation_eq_ok.mpr ⟨_, _, _, hread, hv⟩))
      obtain ⟨rfl, rfl, rfl⟩ : ins = ins' ∧ outs = outs' ∧ sigs = sigs' := by
        simpa using hread.symm.trans hread'
      rcases hb with ⟨o, ho, hb⟩ | ⟨i, hi, hb⟩ | hb
      · rw [hbo o ho] at hb
        cases hb
      · rw [hbi i hi] at hb
        cases hb
      · exact hb l hl
  · intro hreg
    refine ⟨?_, fun e he => ?_⟩
    · rw [xferStaticValidation_eq_ok, grammar_iff]
      constructor
      · rintro ⟨ins, outs, sigs, hread, hv⟩
        have hno : ¬((∃ o ∈ outs, o.amount.isBool = true) ∨ (∃ i ∈ ins, i.seqNo.isBool = true) ∨
            ∀ l, Json.field op "signatures" ≠ some (.list l)) := fun h => hreg (.loose hread hv h)
        push Not at hno
        obtain ⟨hbo, hbi, l, hl⟩ := hno
        exact ⟨ins, outs, sigs, hread, hv, fun o ho => by simpa using hbo o ho,
          fun i hi => by simpa using hbi i hi, l, hl⟩
      · rintro ⟨ins, outs, sigs, hread, hv, -⟩
        exact ⟨ins, outs, sigs, hread, hv⟩
    · unfold xferStaticValidation at he
      rcases hx : (outputsValidate P op).andThen [] (inputsValidate P op) with e' | (_ | msg)
      · obtain rfl : e' = e := by simpa [hx, bind, Except.bind] using he
        rcases andThen_eq_error.mp hx with ho | ⟨ho, hi⟩
        · exact (outputsValidate_cases ho).resolve_right hreg
        · exact (inputsValidate_cases (outputsValidate_eq_valid.mp ho) hi).resolve_right hreg
      · rw [hx] at he
        cases he
      · rw [hx] at he
        cases he
        exact Or.inl rfl

/-! ### Operations that are got wrong -/

/-- An operation with one input and one output. -/
def transfer (output input signatures : Json) : List (Str × Json) :=
  [("outputs", .list [output]), ("inputs", .list [input]), ("signatures", signatures)]

/-- An output or an input. -/
def entryOf (k : Key) (key : Str) (v : Json) : Json := .obj [("address", .str k.address), (key, v)]

theorem not_asIntended_of_error {e : PyErr} (h : xferStaticValidation P op = .error e)
    (he : e.cls = .keyError ∨ e.cls = .typeError) : ¬AsIntended P op := by
  rintro ⟨-, hclean⟩
  rcases hclean e h with hc | ⟨hc, -⟩ <;> rcases he with he | he <;> rw [hc] at he <;> cases he

/-- A boolean amount and a text for the signatures are accepted; an output without an address and
signatures without a length are errors of the server. -/
theorem not_asIntended :
    ¬AsIntended ref (transfer (entryOf bob "amount" (.bool true)) (entryOf alice "seqNo" (.int 1))
      (.list [.str signature])) ∧
    ¬AsIntended ref (transfer (entryOf bob "amount" (.int 30)) (entryOf alice "seqNo" (.int 1))
      (.str "s")) ∧
    ¬AsIntended ref (transfer (.obj []) (entryOf alice "seqNo" (.int 1)) (.list [.str signature])) ∧
    ¬AsIntended ref (transfer (entryOf bob "amount" (.int 30)) (entryOf alice "seqNo" (.int 1)) .null) := by
  refine ⟨?_, ?_, not_asIntended_of_error rfl (Or.inl rfl), not_asIntended_of_error rfl (Or.inr rfl)⟩
  · rintro ⟨haccept, -⟩
    obtain ⟨outs, ins, sigs, es, is, hout, hes, -⟩ := haccept.mp rfl
    obtain rfl := Json.list.inj (Option.some.inj hout)
    obtain _ | ⟨⟨m, hm, -, -, hamount, -⟩, -⟩ := hes
    obtain rfl := Json.obj.inj hm
    cases hamount
  · rintro ⟨haccept, -⟩
    obtain ⟨outs, ins, sigs, es, is, -, -, -, -, -, -, hsigs, -⟩ := haccept.mp rfl
    cases hsigs

end TokenPlugin.Properties.TransferGrammar
