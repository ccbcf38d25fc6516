import Mathlib
import TokenPlugin.Platform

/-! # The field validators

The validators of payment addresses, amounts, inputs, outputs and fee sections on JSON values, and the
static validation of transfers. A validator returns `None` or the text of an error, and may raise.
Each comes with what it accepts: the values that can be read as inputs or outputs of the form the
handlers work with, and that meet `ValidInputs`, `ValidOutputs` and `ValidFees`. -/

namespace TokenPlugin.Messages.Fields

open Python Token.Types

variable (P : Platform)

/-! ### What is accepted -/

/-- The address decodes to a 32 byte key. -/
def ValidAddress (a : Str) : Prop := (P.b58decodeCheck a).map List.length = some 32

instance (a : Str) : Decidable (ValidAddress P a) := inferInstanceAs (Decidable (_ = _))

variable {P} in
theorem ValidAddress.colon_notMem {a : Str} (h : ValidAddress P a) : ':' ∉ a := by
  obtain ⟨b, hb, -⟩ := Option.map_eq_some_iff.mp h
  exact P.colon_notMem a b hb

/-- Positive amounts to pairwise different addresses. -/
def ValidOutputs (outputs : List OutputSpec) : Prop :=
  (∀ o ∈ outputs, ValidAddress P o.address ∧ 0 < o.amount.val) ∧
    (outputs.map OutputSpec.address).Nodup

instance (outputs : List OutputSpec) : Decidable (ValidOutputs P outputs) :=
  inferInstanceAs (Decidable (_ ∧ _))

/-- How two inputs are compared: a boolean is the number it equals. -/
def inputKey (i : Input) : Str × ℤ := (i.address, i.seqNo.val)

/-- Sequence numbers from 1 on, pairwise different inputs. -/
def ValidInputs (inputs : List Input) : Prop :=
  (∀ i ∈ inputs, ValidAddress P i.address ∧ 1 ≤ i.seqNo.val) ∧ (inputs.map inputKey).Nodup

instance (inputs : List Input) : Decidable (ValidInputs P inputs) :=
  inferInstanceAs (Decidable (_ ∧ _))

/-- A text of a length that a signature may have. -/
def ValidSignature (sig : Json) : Prop :=
  match sig with
  | .str s => s ≠ [] ∧ s.length ≤ P.signatureFieldLimit
  | _ => False

instance (sig : Json) : Decidable (ValidSignature P sig) := by
  unfold ValidSignature
  split <;> infer_instance

/-- At least one input, at most one change output, a signature for each input. -/
def ValidFees (s : FeesSection) : Prop :=
  (ValidInputs P s.inputs ∧ 1 ≤ s.inputs.length) ∧ (ValidOutputs P s.outputs ∧ s.outputs.length ≤ 1) ∧
    (∀ sig ∈ s.signatures, ValidSignature P sig) ∧ s.inputs.length = s.signatures.length

instance (s : FeesSection) : Decidable (ValidFees P s) := inferInstanceAs (Decidable (_ ∧ _))

/-! ### The validators -/

/-- What `validate` returns: nothing, or the text of an error. -/
abbrev Verdict : Type := Except PyErr (Option Str)

/-- No error. -/
def valid : Verdict := .ok none

/-- An error. -/
def invalid (msg : Str) : Verdict := .ok (some msg)

/-- `error = …; if error: return label + error`, and what follows it. -/
def Verdict.andThen (v : Verdict) (label : Str) (rest : Verdict) : Verdict :=
  match v with
  | .error e => .error e
  | .ok (some msg) => invalid (label ++ msg)
  | .ok none => rest

def asStr : Json → Option Str
  | .str s => some s
  | _ => none

def asList : Json → Option (List Json)
  | .list l => some l
  | _ => none

def asObj : Json → Option (List (Str × Json))
  | .obj l => some l
  | _ => none

/-- `FieldBase.validate`: an `isinstance` test, then `_specific_validation`. -/
def fieldBase {α : Type} (cast : Json → Option α) (expected : Str) (specific : α → Verdict)
    (v : Json) : Verdict :=
  match cast v with
  | none => invalid (("expected types " : Str) ++ expected)
  | some a => specific a

/-- `val[key]`. -/
def getItem (l : List (Str × Json)) (key : Str) : Except PyErr Json :=
  match Json.field l key with
  | some v => .ok v
  | none => .error ⟨.keyError, key⟩

/-- `PublicAddressField`; an address that does not decode raises. -/
def publicAddressField : Json → Verdict :=
  fieldBase asStr "str" fun a =>
    match P.b58decodeCheck a with
    | none => .error ⟨.unknownIdentifier, a ++ (" is not a valid base58check value" : Str)⟩
    | some vk =>
      if vk.length ≠ 32 then
        invalid (("Not a valid address as it resolves to " : Str) ++
          Lib.Text.intText vk.length ++ (" byte verkey" : Str))
      else valid

/-- `PublicAmountField`. -/
def publicAmountField : Json → Verdict :=
  fieldBase Json.asInt "int" fun v => if v.val ≤ 0 then invalid "negative or zero value" else valid

/-- plenum's `TxnSeqNoField`. -/
def txnSeqNoField : Json → Verdict :=
  fieldBase Json.asInt "int" fun v => if v.val < 1 then invalid "cannot be smaller than 1" else valid

/-- A map with an address and a number, the address checked first. -/
def publicField (key : Str) (check : Json → Verdict) : Json → Verdict :=
  fieldBase asObj "dict" fun l => do
    let address ← getItem l "address"
    (publicAddressField P address).andThen "address -- " (do
      let v ← getItem l key
      (check v).andThen (key ++ (" -- " : Str)) valid)

/-- `PublicOutputField`. -/
def publicOutputField : Json → Verdict := publicField P "amount" publicAmountField

/-- `PublicInputField`. -/
def publicInputField : Json → Verdict := publicField P "seqNo" txnSeqNoField

/-- The first error of a list. -/
def firstError (inner : Json → Verdict) : List Json → Verdict
  | [] => valid
  | v :: vs => (inner v).andThen [] (firstError inner vs)

/-- plenum's `IterableField`. -/
def iterableField (minLength : ℕ) (maxLength : Option ℕ) (inner : Json → Verdict)
    (rest : List Json → Verdict) : Json → Verdict :=
  fieldBase asList "list" fun l =>
    if l.length < minLength then invalid "length should be at least min_length"
    else if ∃ m ∈ maxLength, m < l.length then invalid "length should be at most max_length"
    else (firstError inner l).andThen [] (rest l)

/-- A map read as an address and a number. -/
def readPair (key : Str) (v : Json) : Option (Str × PyInt) := do
  let l ← asObj v
  let address ← (Json.field l "address").bind asStr
  let n ← (Json.field l key).bind Json.asInt
  some (address, n)

def readOutput (v : Json) : Option OutputSpec := (readPair "amount" v).map fun p => ⟨p.1, p.2⟩

def readInput (v : Json) : Option Input := (readPair "seqNo" v).map fun p => ⟨p.1, p.2⟩

/-- `PublicOutputsField`. -/
def publicOutputsField (maxLength : Option ℕ) : Json → Verdict :=
  iterableField 0 maxLength (publicOutputField P) fun l =>
    if ¬((l.filterMap readOutput).map OutputSpec.address).Nodup then
      invalid "Each output should contain unique address"
    else valid

/-- `PublicInputsField`. -/
def publicInputsField (minLength : ℕ) : Json → Verdict :=
  iterableField minLength none (publicInputField P) fun l =>
    if ¬((l.filterMap readInput).map inputKey).Nodup then invalid "Each input should be unique"
    else valid

/-- plenum's `SignatureField`. -/
def signatureField : Json → Verdict :=
  fieldBase asStr "str" fun s =>
    if s = [] then invalid "empty string"
    else if P.signatureFieldLimit < s.length then invalid "is longer than the limit"
    else valid

/-- `TxnFeesField`. -/
def txnFeesField : Json → Verdict :=
  fieldBase asList "list, tuple" fun l =>
    match l with
    | [inputs, outputs, signatures] =>
      (publicInputsField P 1 inputs).andThen "inputs -- " <|
      (publicOutputsField P (some 1) outputs).andThen "outputs -- " <|
      (iterableField 0 none (signatureField P) (fun _ => valid) signatures).andThen
        "signatures -- " <|
      let ni := ((asList inputs).getD []).length
      let ns := ((asList signatures).getD []).length
      if ni ≠ ns then
        invalid (("signatures -- Number of signatures and number of inputs should match but are " : Str)
          ++ Lib.Text.intText ns ++ (" and " : Str) ++ Lib.Text.intText ni ++
          (" respectively." : Str))
      else valid
    | _ => invalid "fees -- should have length 3"

/-! ### Static validation of transfers -/

/-- The items that Python iterates over, where the value has a length. -/
def items : Json → Option (List Json)
  | .list l => some l
  | .str s => some (s.map fun c => .str [c])
  | .obj l => some (l.map fun e => .str e.1)
  | _ => none

/-- `len(v)`. -/
def pyLen (v : Json) : Except PyErr ℕ :=
  match items v with
  | some l => .ok l.length
  | none => .error ⟨.typeError, "object has no len()"⟩

/-- `operation[key]`, which has to be present. -/
def needItem (op : List (Str × Json)) (key : Str) : Except PyErr Json :=
  match Json.field op key with
  | some v => .ok v
  | none => .error ⟨.invalidClientRequest, key ++ (" needs to be present" : Str)⟩

/-- `outputs_validate`. -/
def outputsValidate (op : List (Str × Json)) : Verdict := do
  let outputs ← needItem op "outputs"
  publicOutputsField P none outputs

/-- `inputs_validate`. -/
def inputsValidate (op : List (Str × Json)) : Verdict := do
  let inputs ← needItem op "inputs"
  let sigs ← needItem op "signatures"
  let ni ← pyLen inputs
  let ns ← pyLen sigs
  if ni ≠ ns then .error ⟨.invalidClientRequest, "all inputs should have signatures"⟩
  else publicInputsField P 0 inputs

/-- `XferHandler.static_validation` on an operation of type XFER_PUBLIC. -/
def xferStaticValidation (op : List (Str × Json)) : Except PyErr Unit := do
  match ← (outputsValidate P op).andThen [] (inputsValidate P op) with
  | some error => .error ⟨.invalidClientRequest, error⟩
  | none => .ok ()

/-! ### Reading requests -/

/-- A list of maps read entry by entry. -/
def readAll {α : Type} (read : Json → Option α) (v : Json) : Option (List α) :=
  (asList v).bind fun l => l.mapM read

/-- The fee section that a JSON value stands for. -/
def readFees (v : Json) : Option FeesSection :=
  match v with
  | .list [inputs, outputs, signatures] => do
    some ⟨← readAll readInput inputs, ← readAll readOutput outputs, ← asList signatures⟩
  | _ => none

/-- The transfer that an operation stands for. -/
def readXfer (op : List (Str × Json)) : Option Operation := do
  let inputs ← (Json.field op "inputs").bind (readAll readInput)
  let outputs ← (Json.field op "outputs").bind (readAll readOutput)
  let signatures ← (Json.field op "signatures").bind items
  some (.xfer inputs outputs signatures)

/-! ### What the validators accept -/

variable {P}

theorem andThen_eq_valid {v rest : Verdict} {label : Str} :
    v.andThen label rest = valid ↔ v = valid ∧ rest = valid := by
  rcases v with e | (_ | msg) <;> simp [Verdict.andThen, valid, invalid]

theorem fieldBase_eq_valid {α : Type} {cast : Json → Option α} {expected : Str}
    {specific : α → Verdict} {v : Json} :
    fieldBase cast expected specific v = valid ↔ ∃ a, cast v = some a ∧ specific a = valid := by
  unfold fieldBase
  cases cast v <;> simp [valid, invalid]

theorem publicAddressField_eq_valid {v : Json} :
    publicAddressField P v = valid ↔ ∃ a, asStr v = some a ∧ ValidAddress P a := by
  unfold publicAddressField
  rw [fieldBase_eq_valid]
  refine exists_congr fun a => and_congr_right fun _ => ?_
  unfold ValidAddress
  cases P.b58decodeCheck a with
  | none => simp [valid]
  | some vk => by_cases h : vk.length = 32 <;> simp [h, valid, invalid]

theorem publicAmountField_eq_valid {v : Json} :
    publicAmountField v = valid ↔ ∃ n, Json.asInt v = some n ∧ 0 < n.val := by
  unfold publicAmountField
  rw [fieldBase_eq_valid]
  refine exists_congr fun n => and_congr_right fun _ => ?_
  by_cases h : n.val ≤ 0
  · simp [h, valid, invalid]
  · simp [h, not_le.mp h]

theorem txnSeqNoField_eq_valid {v : Json} :
    txnSeqNoField v = valid ↔ ∃ n, Json.asInt v = some n ∧ 1 ≤ n.val := by
  unfold txnSeqNoField
  rw [fieldBase_eq_valid]
  refine exists_congr fun n => and_congr_right fun _ => ?_
  by_cases h : n.val < 1
  · simp [h, valid, invalid]
  · simp [h, not_lt.mp h]

theorem bind_eq_valid {α : Type} {x : Except PyErr α} {f : α → Verdict} :
    (x >>= f) = valid ↔ ∃ a, x = .ok a ∧ f a = valid := by
  cases x <;> simp [bind, Except.bind, valid]

theorem getItem_eq_ok {l : List (Str × Json)} {key : Str} {v : Json} :
    getItem l key = .ok v ↔ Json.field l key = some v := by
  unfold getItem
  cases Json.field l key <;> simp

/-- A map is accepted when it reads as a valid address and a number that the check lets through. -/
theorem publicField_eq_valid {key : Str} {check : Json → Verdict} {p : PyInt → Prop}
    (hc : ∀ v, check v = valid ↔ ∃ n, Json.asInt v = some n ∧ p n) {v : Json} :
    publicField P key check v = valid ↔
      ∃ r, readPair key v = some r ∧ ValidAddress P r.1 ∧ p r.2 := by
  unfold publicField readPair
  simp only [fieldBase_eq_valid, bind_eq_valid, andThen_eq_valid, getItem_eq_ok,
    publicAddressField_eq_valid, hc]
  constructor
  · rintro ⟨l, hl, a, ha, ⟨s, hs, hv⟩, x, hx, ⟨n, hn, hp⟩, -⟩
    exact ⟨(s, n), by simp only [hl, ha, hs, hx, hn, Option.bind_eq_bind, Option.bind_some], hv, hp⟩
  · rintro ⟨⟨s, n⟩, hr, hv, hp⟩
    simp only [Option.bind_eq_bind, Option.bind_eq_some_iff, Option.some.injEq] at hr
    obtain ⟨l, hl, s', ⟨a, ha, hs⟩, n', ⟨x, hx, hn⟩, he⟩ := hr
    obtain ⟨rfl, rfl⟩ := Prod.mk.inj he
    exact ⟨l, hl, a, ha, ⟨s', hs, hv⟩, x, hx, ⟨n', hn, hp⟩, trivial⟩

theorem publicOutputField_eq_valid {v : Json} : publicOutputField P v = valid ↔
    ∃ o, readOutput v = some o ∧ ValidAddress P o.address ∧ 0 < o.amount.val := by
  unfold publicOutputField readOutput
  rw [publicField_eq_valid fun _ => publicAmountField_eq_valid]
  constructor
  · rintro ⟨r, hr, h⟩; exact ⟨⟨r.1, r.2⟩, by rw [hr]; rfl, h⟩
  · rintro ⟨o, ho, h⟩
    obtain ⟨r, hr, rfl⟩ := Option.map_eq_some_iff.mp ho
    exact ⟨r, hr, h⟩

theorem publicInputField_eq_valid {v : Json} : publicInputField P v = valid ↔
    ∃ i, readInput v = some i ∧ ValidAddress P i.address ∧ 1 ≤ i.seqNo.val := by
  unfold publicInputField readInput
  rw [publicField_eq_valid fun _ => txnSeqNoField_eq_valid]
  constructor
  · rintro ⟨r, hr, h⟩; exact ⟨⟨r.1, r.2⟩, by rw [hr]; rfl, h⟩
  · rintro ⟨o, ho, h⟩
    obtain ⟨r, hr, rfl⟩ := Option.map_eq_some_iff.mp ho
    exact ⟨r, hr, h⟩

theorem firstError_eq_valid {inner : Json → Verdict} {l : List Json} :
    firstError inner l = valid ↔ ∀ v ∈ l, inner v = valid := by
  induction l with
  | nil => simp [firstError]
  | cons v l ih => simp [firstError, andThen_eq_valid, ih]

theorem iterableField_eq_valid {lo : ℕ} {hi : Option ℕ} {inner : Json → Verdict}
    {rest : List Json → Verdict} {v : Json} :
    iterableField lo hi inner rest v = valid ↔ ∃ l, asList v = some l ∧ lo ≤ l.length ∧
      (∀ m ∈ hi, l.length ≤ m) ∧ (∀ x ∈ l, inner x = valid) ∧ rest l = valid := by
  unfold iterableField
  rw [fieldBase_eq_valid]
  refine exists_congr fun l => and_congr_right fun _ => ?_
  by_cases hlo : l.length < lo
  · simp only [hlo, if_true]
    exact ⟨fun h => by simp [valid, invalid] at h, fun h => absurd h.1 (by omega)⟩
  · by_cases hhi : ∃ m ∈ hi, m < l.length
    · simp only [hlo, hhi, if_true, if_false]
      obtain ⟨m, hm, hlt⟩ := hhi
      exact ⟨fun h => by simp [valid, invalid] at h, fun h => absurd (h.2.1 m hm) (by omega)⟩
    · simp only [hlo, hhi, if_false, andThen_eq_valid, firstError_eq_valid]
      push Not at hhi
      exact ⟨fun h => ⟨by omega, hhi, h⟩, fun h => h.2.2⟩

/-! ### Lists read entry by entry -/

section Read
variable {α β : Type} {read : β → Option α}

theorem mapM_eq_some {l : List β} {as : List α} :
    l.mapM read = some as ↔ List.Forall₂ (fun v a => read v = some a) l as := by
  induction l generalizing as with
  | nil => cases as <;> simp
  | cons v l ih =>
    simp only [List.mapM_cons, Option.bind_eq_bind, Option.bind_eq_some_iff, Option.pure_def,
      Option.some.injEq]
    constructor
    · rintro ⟨a, ha, as', has, rfl⟩
      exact .cons ha (ih.mp has)
    · rintro (_ | ⟨ha, has⟩)
      exact ⟨_, ha, _, ih.mpr has, rfl⟩

theorem filterMap_of_mapM {l : List β} {as : List α} (h : l.mapM read = some as) :
    l.filterMap read = as := by
  have := mapM_eq_some.mp h
  clear h
  induction this with
  | nil => rfl
  | cons ha _ ih => rw [List.filterMap_cons_some ha, ih]

theorem length_of_mapM {l : List β} {as : List α} (h : l.mapM read = some as) :
    as.length = l.length := (mapM_eq_some.mp h).length_eq.symm

/-- Entries that can all be read, as values with a property. -/
theorem forall_read_iff {l : List β} {p : α → Prop} :
    (∀ v ∈ l, ∃ a, read v = some a ∧ p a) ↔ ∃ as, l.mapM read = some as ∧ ∀ a ∈ as, p a := by
  simp only [mapM_eq_some]
  induction l with
  | nil => simp
  | cons v l ih =>
    simp only [List.forall_mem_cons, ih]
    constructor
    · rintro ⟨⟨a, ha, hp⟩, as, has, hps⟩
      exact ⟨a :: as, .cons ha has, List.forall_mem_cons.mpr ⟨hp, hps⟩⟩
    · rintro ⟨_, _ | ⟨ha, has⟩, hps⟩
      exact ⟨⟨_, ha, hps _ List.mem_cons_self⟩, _, has,
        fun a h => hps a (List.mem_cons_of_mem _ h)⟩

/-- A list field with a uniqueness test accepts the lists that read as such. -/
theorem iterableField_read_eq_valid {read : Json → Option α} {lo : ℕ} {hi : Option ℕ}
    {inner : Json → Verdict} {p : α → Prop} {q : List α → Prop} [DecidablePred q] {msg : Str}
    (hin : ∀ v, inner v = valid ↔ ∃ a, read v = some a ∧ p a) {v : Json} :
    iterableField lo hi inner (fun l => if ¬q (l.filterMap read) then invalid msg else valid) v =
      valid ↔ ∃ as, readAll read v = some as ∧ lo ≤ as.length ∧ (∀ m ∈ hi, as.length ≤ m) ∧
        (∀ a ∈ as, p a) ∧ q as := by
  rw [iterableField_eq_valid]
  unfold readAll
  constructor
  · rintro ⟨l, hl, hlo, hhi, hall, hq⟩
    obtain ⟨as, has, hp⟩ := forall_read_iff.mp fun v hv => (hin v).mp (hall v hv)
    have hlen := length_of_mapM has
    refine ⟨as, by rw [hl]; exact has, by omega, fun m hm => by rw [hlen]; exact hhi m hm, hp, ?_⟩
    by_contra hn
    rw [filterMap_of_mapM has, if_pos hn] at hq
    simp [valid, invalid] at hq
  · rintro ⟨as, has, hlo, hhi, hp, hq⟩
    obtain ⟨l, hl, has⟩ := Option.bind_eq_some_iff.mp has
    have hlen := length_of_mapM has
    refine ⟨l, hl, by omega, fun m hm => by rw [← hlen]; exact hhi m hm, fun v hv => ?_, ?_⟩
    · exact (hin v).mpr (forall_read_iff.mpr ⟨as, has, hp⟩ v hv)
    · rw [filterMap_of_mapM has, if_neg (not_not.mpr hq)]

end Read

/-- **The outputs accepted.** -/
theorem publicOutputsField_eq_valid {hi : Option ℕ} {v : Json} :
    publicOutputsField P hi v = valid ↔ ∃ os, readAll readOutput v = some os ∧
      ValidOutputs P os ∧ ∀ m ∈ hi, os.length ≤ m := by
  unfold publicOutputsField
  rw [iterableField_read_eq_valid (q := fun os => (os.map OutputSpec.address).Nodup)
    fun _ => publicOutputField_eq_valid]
  refine exists_congr fun os => and_congr_right fun _ => ?_
  unfold ValidOutputs
  constructor
  · rintro ⟨-, hhi, hp, hq⟩; exact ⟨⟨hp, hq⟩, hhi⟩
  · rintro ⟨⟨hp, hq⟩, hhi⟩; exact ⟨Nat.zero_le _, hhi, hp, hq⟩

/-- **The inputs accepted.** -/
theorem publicInputsField_eq_valid {lo : ℕ} {v : Json} :
    publicInputsField P lo v = valid ↔ ∃ is, readAll readInput v = some is ∧
      ValidInputs P is ∧ lo ≤ is.length := by
  unfold publicInputsField
  rw [iterableField_read_eq_valid (q := fun is => (is.map inputKey).Nodup)
    fun _ => publicInputField_eq_valid]
  refine exists_congr fun is => and_congr_right fun _ => ?_
  unfold ValidInputs
  constructor
  · rintro ⟨hlo, -, hp, hq⟩; exact ⟨⟨hp, hq⟩, hlo⟩
  · rintro ⟨⟨hp, hq⟩, hlo⟩; exact ⟨hlo, by simp, hp, hq⟩

theorem signatureField_eq_valid {v : Json} : signatureField P v = valid ↔ ValidSignature P v := by
  unfold signatureField
  rw [fieldBase_eq_valid]
  cases v <;> simp [asStr, ValidSignature, valid, invalid]
  split_ifs <;> simp_all

theorem length_readAll {α : Type} {read : Json → Option α} {v : Json} {as : List α}
    (h : readAll read v = some as) : ((asList v).getD []).length = as.length := by
  obtain ⟨l, hl, has⟩ := Option.bind_eq_some_iff.mp h
  rw [hl, length_of_mapM has]
  rfl

/-- **The fee sections accepted.** -/
theorem txnFeesField_eq_valid {v : Json} :
    txnFeesField P v = valid ↔ ∃ s, readFees v = some s ∧ ValidFees P s := by
  unfold txnFeesField
  rw [fieldBase_eq_valid]
  constructor
  · rintro ⟨l, hl, h⟩
    split at h
    · next inputs outputs signatures =>
      simp only [andThen_eq_valid, publicInputsField_eq_valid, publicOutputsField_eq_valid,
        iterableField_eq_valid] at h
      obtain ⟨⟨is, hi, hvi, hlo⟩, ⟨os, ho, hvo, hhi⟩, ⟨sigs, hs, -, -, hsig, -⟩, hlen⟩ := h
      rw [length_readAll hi, hs] at hlen
      have hv : v = .list [inputs, outputs, signatures] := by
        cases v <;> simp_all [asList]
      refine ⟨⟨is, os, sigs⟩, by subst hv; simp [readFees, hi, ho, hs], ⟨hvi, hlo⟩,
        ⟨hvo, hhi 1 rfl⟩, fun sig hsig' => signatureField_eq_valid.mp (hsig sig hsig'), ?_⟩
      by_contra hne
      simp [valid, invalid, hne] at hlen
    · simp [valid, invalid] at h
  · rintro ⟨s, hs, ⟨hvi, hlo⟩, ⟨hvo, hhi⟩, hsig, hlen⟩
    unfold readFees at hs
    split at hs
    · next inputs outputs signatures =>
      simp only [Option.bind_eq_bind, Option.bind_eq_some_iff, Option.some.injEq] at hs
      obtain ⟨is, hi, os, ho, sigs, hs, rfl⟩ := hs
      refine ⟨_, rfl, ?_⟩
      simp only [andThen_eq_valid, publicInputsField_eq_valid, publicOutputsField_eq_valid,
        iterableField_eq_valid]
      refine ⟨⟨is, hi, hvi, hlo⟩, ⟨os, ho, hvo, by rintro m ⟨⟩; exact hhi⟩,
        ⟨sigs, hs, Nat.zero_le _, by simp, fun sig h => signatureField_eq_valid.mpr (hsig sig h),
          trivial⟩, ?_⟩
      rw [length_readAll hi, hs]
      simp [show is.length = sigs.length from hlen]
    · cases hs

theorem pyLen_eq_ok {v : Json} {n : ℕ} :
    pyLen v = .ok n ↔ ∃ l, items v = some l ∧ l.length = n := by
  unfold pyLen
  cases items v <;> simp

theorem needItem_eq_ok {op : List (Str × Json)} {key : Str} {v : Json} :
    needItem op key = .ok v ↔ Json.field op key = some v := by
  unfold needItem
  cases Json.field op key <;> simp

/-- A transfer that static validation lets through. -/
def ValidXfer (P : Platform) (inputs : List Input) (outputs : List OutputSpec)
    (signatures : List Json) : Prop :=
  ValidInputs P inputs ∧ ValidOutputs P outputs ∧ inputs.length = signatures.length

instance (inputs : List Input) (outputs : List OutputSpec) (signatures : List Json) :
    Decidable (ValidXfer P inputs outputs signatures) := inferInstanceAs (Decidable (_ ∧ _))

/-- **The transfers accepted.** -/
theorem xferStaticValidation_eq_ok {op : List (Str × Json)} :
    xferStaticValidation P op = .ok () ↔ ∃ inputs outputs signatures,
      readXfer op = some (.xfer inputs outputs signatures) ∧
      ValidXfer P inputs outputs signatures := by
  have hv : xferStaticValidation P op = .ok () ↔
      (outputsValidate P op).andThen [] (inputsValidate P op) = valid := by
    unfold xferStaticValidation
    rcases (outputsValidate P op).andThen [] (inputsValidate P op) with e | (_ | msg) <;>
      simp [bind, Except.bind, valid]
  rw [hv, andThen_eq_valid]
  unfold outputsValidate inputsValidate readXfer
  simp only [bind_eq_valid, needItem_eq_ok, pyLen_eq_ok, publicOutputsField_eq_valid]
  constructor
  · rintro ⟨⟨vo, hvo, os, ho, hvos, -⟩, vi, hvi, vs, hvs, ni, ⟨li, hli, rfl⟩, ns, ⟨ls, hls, rfl⟩, h⟩
    split_ifs at h with hne
    · simp [valid] at h
    · obtain ⟨is, hi, hvis, -⟩ := publicInputsField_eq_valid.mp h
      refine ⟨is, os, ls, by simp only [hvi, hvo, hvs, Option.bind_some, Option.bind_eq_bind, hi, ho, hls],
        hvis, hvos, ?_⟩
      have hlen := length_readAll hi
      have : vi = .list li := by
        cases vi <;> simp_all [readAll, asList, items]
      subst this
      simp [asList] at hlen
      omega
  · rintro ⟨is, os, ls, h, hvis, hvos, hlen⟩
    simp only [Option.bind_eq_bind, Option.bind_eq_some_iff, Option.some.injEq,
      Operation.xfer.injEq] at h
    obtain ⟨is', ⟨vi, hvi, hi⟩, os', ⟨vo, hvo, ho⟩, ls', ⟨vs, hvs, hls⟩, rfl, rfl, rfl⟩ := h
    refine ⟨⟨vo, hvo, os', ho, hvos, by simp⟩, vi, hvi, vs, hvs, ?_⟩
    obtain ⟨li, hli, hm⟩ := Option.bind_eq_some_iff.mp hi
    have : vi = .list li := by
      cases vi <;> simp_all [asList]
    subst this
    have hlen' := length_of_mapM hm
    refine ⟨_, ⟨li, rfl, rfl⟩, _, ⟨ls', hls, rfl⟩, ?_⟩
    rw [if_neg (by simp; omega)]
    exact publicInputsField_eq_valid.mpr ⟨is', hi, hvis, Nat.zero_le _⟩

end TokenPlugin.Messages.Fields
