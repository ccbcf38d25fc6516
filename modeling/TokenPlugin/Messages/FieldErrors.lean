import TokenPlugin.Messages.Fields

/-! # What the validators raise

A validator raises in two cases: an address does not decode, or a map has not the key that is looked up.
A list is checked in order, so it raises at its first entry that is not accepted, if that entry does. -/

namespace TokenPlugin.Messages.FieldErrors

open Python Token.Types Messages.Fields

variable {P : Platform} {e : PyErr}

theorem asStr_eq_some {v : Json} {s : Str} : asStr v = some s ↔ v = .str s := by
  cases v <;> simp [asStr]

theorem asList_eq_some {v : Json} {l : List Json} : asList v = some l ↔ v = .list l := by
  cases v <;> simp [asList]

theorem asObj_eq_some {v : Json} {m : List (Str × Json)} : asObj v = some m ↔ v = .obj m := by
  cases v <;> simp [asObj]

theorem andThen_eq_error {v rest : Verdict} {label : Str} :
    v.andThen label rest = .error e ↔ v = .error e ∨ v = valid ∧ rest = .error e := by
  rcases v with e' | (_ | msg) <;> simp [Verdict.andThen, valid, invalid]

theorem fieldBase_eq_error {α : Type} {cast : Json → Option α} {expected : Str} {specific : α → Verdict}
    {v : Json} : fieldBase cast expected specific v = .error e ↔
      ∃ a, cast v = some a ∧ specific a = .error e := by
  unfold fieldBase
  cases cast v <;> simp [invalid]

theorem bind_eq_error {α : Type} {x : Except PyErr α} {f : α → Verdict} :
    (x >>= f) = .error e ↔ x = .error e ∨ ∃ a, x = .ok a ∧ f a = .error e := by
  cases x <;> simp [bind, Except.bind]

theorem getItem_eq_error {l : List (Str × Json)} {key : Str} :
    getItem l key = .error e ↔ Json.field l key = none ∧ ⟨.keyError, key⟩ = e := by
  unfold getItem
  cases Json.field l key <;> simp

/-- An address raises when it does not decode. -/
theorem publicAddressField_eq_error {v : Json} : publicAddressField P v = .error e ↔
    ∃ a, v = .str a ∧ P.b58decodeCheck a = none ∧
      ⟨.unknownIdentifier, a ++ (" is not a valid base58check value" : Str)⟩ = e := by
  unfold publicAddressField
  rw [fieldBase_eq_error]
  constructor
  · rintro ⟨a, ha, h⟩
    obtain rfl := asStr_eq_some.mp ha
    cases hd : P.b58decodeCheck a with
    | none => exact ⟨a, rfl, hd, by simpa [hd] using h⟩
    | some vk =>
      rw [hd] at h
      simp only at h
      split_ifs at h <;> simp [valid, invalid] at h
  · rintro ⟨a, rfl, hd, rfl⟩
    exact ⟨a, rfl, by rw [hd]⟩

theorem publicAmountField_ne_error {v : Json} : publicAmountField v ≠ .error e := by
  unfold publicAmountField
  rw [Ne, fieldBase_eq_error]
  rintro ⟨n, -, h⟩
  split_ifs at h <;> simp [valid, invalid] at h

theorem txnSeqNoField_ne_error {v : Json} : txnSeqNoField v ≠ .error e := by
  unfold txnSeqNoField
  rw [Ne, fieldBase_eq_error]
  rintro ⟨n, -, h⟩
  split_ifs at h <;> simp [valid, invalid] at h

/-- The map has no address, or a valid one and no entry for the key. -/
def LacksKey (P : Platform) (key : Str) (v : Json) : Prop :=
  ∃ m, v = .obj m ∧ (Json.field m "address" = none ∨
    (∃ a, Json.field m "address" = some (.str a) ∧ ValidAddress P a) ∧ Json.field m key = none)

/-- The address of a map does not decode. -/
def UndecodableAddress (P : Platform) (v : Json) : Prop :=
  ∃ m a, v = .obj m ∧ Json.field m "address" = some (.str a) ∧ P.b58decodeCheck a = none

/-- **What one map raises.** -/
theorem publicField_eq_error {key : Str} {check : Json → Verdict} (hc : ∀ w e, check w ≠ .error e)
    {v : Json} (h : publicField P key check v = .error e) :
    (e.cls = .keyError ∧ LacksKey P key v) ∨ (e.cls = .unknownIdentifier ∧ UndecodableAddress P v) := by
  unfold publicField at h
  rw [fieldBase_eq_error] at h
  obtain ⟨m, hm, hmap⟩ := h
  obtain rfl := asObj_eq_some.mp hm
  rcases bind_eq_error.mp hmap with hget | ⟨address, hget, hrest⟩
  · obtain ⟨hnone, rfl⟩ := getItem_eq_error.mp hget
    exact Or.inl ⟨rfl, m, rfl, Or.inl hnone⟩
  · have haddr := getItem_eq_ok.mp hget
    rcases andThen_eq_error.mp hrest with hadr | ⟨hvalid, hnum⟩
    · obtain ⟨a, rfl, hd, rfl⟩ := publicAddressField_eq_error.mp hadr
      exact Or.inr ⟨rfl, m, a, rfl, haddr, hd⟩
    · obtain ⟨a, hs, hva⟩ := publicAddressField_eq_valid.mp hvalid
      obtain rfl := asStr_eq_some.mp hs
      rcases bind_eq_error.mp hnum with hkey | ⟨w, -, hcheck⟩
      · obtain ⟨hnone, rfl⟩ := getItem_eq_error.mp hkey
        exact Or.inl ⟨rfl, m, rfl, Or.inr ⟨⟨a, haddr, hva⟩, hnone⟩⟩
      · rcases andThen_eq_error.mp hcheck with hw | ⟨-, hw⟩
        · exact absurd hw (hc w e)
        · cases hw

/-- A map that lacks a key raises `KeyError`. -/
theorem exists_publicField_error {key : Str} (check : Json → Verdict) {v : Json} (h : LacksKey P key v) :
    ∃ e, publicField P key check v = .error e ∧ e.cls = .keyError := by
  obtain ⟨m, rfl, hnone | ⟨⟨a, ha, hva⟩, hnone⟩⟩ := h
  · refine ⟨⟨.keyError, "address"⟩, ?_, rfl⟩
    unfold publicField
    rw [fieldBase_eq_error]
    exact ⟨m, rfl, bind_eq_error.mpr (Or.inl (getItem_eq_error.mpr ⟨hnone, rfl⟩))⟩
  · refine ⟨⟨.keyError, key⟩, ?_, rfl⟩
    unfold publicField
    rw [fieldBase_eq_error]
    refine ⟨m, rfl, bind_eq_error.mpr (Or.inr ⟨_, getItem_eq_ok.mpr ha, ?_⟩)⟩
    rw [andThen_eq_error]
    exact Or.inr ⟨publicAddressField_eq_valid.mpr ⟨a, rfl, hva⟩,
      bind_eq_error.mpr (Or.inl (getItem_eq_error.mpr ⟨hnone, rfl⟩))⟩

/-! ### Lists -/

/-- A list raises at its first entry that is not accepted. -/
theorem firstError_eq_error {inner : Json → Verdict} {l : List Json} : firstError inner l = .error e ↔
    ∃ pre v post, l = pre ++ v :: post ∧ (∀ w ∈ pre, inner w = valid) ∧ inner v = .error e := by
  induction l with
  | nil => simp [firstError, valid]
  | cons x l ih =>
    rw [firstError, andThen_eq_error, ih]
    constructor
    · rintro (hx | ⟨hx, pre, v, post, rfl, hpre, hv⟩)
      · exact ⟨[], x, l, rfl, by simp, hx⟩
      · exact ⟨x :: pre, v, post, rfl, List.forall_mem_cons.mpr ⟨hx, hpre⟩, hv⟩
    · rintro ⟨pre, v, post, hl, hpre, hv⟩
      cases pre with
      | nil =>
        obtain ⟨rfl, -⟩ := List.cons.inj hl
        exact Or.inl hv
      | cons y pre =>
        obtain ⟨rfl, rfl⟩ := List.cons.inj hl
        obtain ⟨hy, hpre⟩ := List.forall_mem_cons.mp hpre
        exact Or.inr ⟨hy, pre, v, post, rfl, hpre, hv⟩

theorem iterableField_eq_error {inner : Json → Verdict} {rest : List Json → Verdict}
    (hr : ∀ l e, rest l ≠ .error e) {v : Json} : iterableField 0 none inner rest v = .error e ↔
      ∃ l, v = .list l ∧ firstError inner l = .error e := by
  unfold iterableField
  rw [fieldBase_eq_error]
  constructor
  · rintro ⟨l, hl, h⟩
    obtain rfl := asList_eq_some.mp hl
    simp only [Nat.not_lt_zero, if_false, Option.not_mem_none, false_and, exists_false] at h
    rcases andThen_eq_error.mp h with h | ⟨-, h⟩
    · exact ⟨l, rfl, h⟩
    · exact absurd h (hr l e)
  · rintro ⟨l, rfl, h⟩
    refine ⟨l, rfl, ?_⟩
    simp only [Nat.not_lt_zero, if_false, Option.not_mem_none, false_and, exists_false]
    exact andThen_eq_error.mpr (Or.inl h)

theorem publicOutputsField_eq_error {v : Json} : publicOutputsField P none v = .error e ↔
    ∃ l, v = .list l ∧ firstError (publicOutputField P) l = .error e := by
  unfold publicOutputsField
  refine iterableField_eq_error fun l e => ?_
  split_ifs <;> simp [valid, invalid]

theorem publicInputsField_eq_error {v : Json} : publicInputsField P 0 v = .error e ↔
    ∃ l, v = .list l ∧ firstError (publicInputField P) l = .error e := by
  unfold publicInputsField
  refine iterableField_eq_error fun l e => ?_
  split_ifs <;> simp [valid, invalid]

end TokenPlugin.Messages.FieldErrors
