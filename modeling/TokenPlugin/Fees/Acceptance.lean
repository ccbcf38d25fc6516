import TokenPlugin.Fees.FeesAuthorizer
import TokenPlugin.Token.Handlers

/-! # What the authorizer accepts

Validation only reads. When a transfer's own check or the authorizer accepts a request, the inputs it
names are worth what it pays out plus the fee that was asked for (`PaysFor`), and the fee worked out
from the request is then that fee. -/

namespace TokenPlugin.Fees.Acceptance

open Python Token.Types Token.UtxoCache Token.TokenUtils Token.Handlers Fees.FeesAuthorizer
open Lib.Program
open Lib.Program.Prog (raise ofExcept catching)

variable {S : Type} [TokenStores S] {P : Platform}

/-! ### Validation reads only -/

section ReadOnly

theorem readOnly_sumInputs (ins : List Input) (c : Bool) :
    ReadOnly (sumInputs ins c : Py S ℤ) := by
  have hgroups : ∀ (groups : List (Str × List PyInt)) (t : ℤ),
      ReadOnly (sumGroups c groups t : Py S ℤ) := by
    intro groups
    induction groups with
    | nil => exact fun t => readOnly_pure t
    | cons g groups ih =>
      intro t
      exact (readOnly_getAmounts _ _ _).bind fun _ => (readOnly_ofExcept _).bind fun _ => ih _
  exact hgroups _ _

theorem readOnly_doValidate (ins : List Input) (outs : List OutputSpec) :
    ReadOnly (doValidateInputsOutputs ins outs : Py S Unit) := by
  refine ReadOnly.bind (ReadOnly.catching (ReadOnly.catching (readOnly_sumInputs _ _) ?_) ?_)
    fun _ => readOnly_ofExcept _
  all_goals
    intro e y hy
    split_ifs at hy
    cases hy
    exact readOnly_raise _

theorem readOnly_calculateFees (r : Request) : ReadOnly (calculateFeesFromReq r : Py S ℤ) := by
  refine (readOnly_ofExcept _).bind fun p => ReadOnly.catching
    ((readOnly_sumInputs _ _).bind fun _ => readOnly_pure _) ?_
  intro e y hy
  cases hy
  exact readOnly_pure _

theorem readOnly_unaskedFees (r : Request) {amount : ℕ} :
    ReadOnly (unaskedFees amount r : Py S ℤ) := (readOnly_calculateFees r).ite (readOnly_pure _)

theorem readOnly_validateFeesCanPay (ins : List Input) (outs : List OutputSpec) (fee : ℤ) :
    ReadOnly (validateFeesCanPay ins outs fee : Py S Unit) := by
  refine ReadOnly.bind (ReadOnly.catching (readOnly_sumInputs _ _) ?_) fun _ => readOnly_ofExcept _
  intro e y hy
  split_ifs at hy <;> cases hy <;> exact readOnly_raise _

theorem readOnly_canPayFees (r : Request) (fee : ℤ) :
    ReadOnly (canPayFees P r fee : Py S (Bool × Str)) := by
  refine ReadOnly.catching (ReadOnly.bind ((readOnly_ofExcept _).bind fun _ =>
    readOnly_validateFeesCanPay _ _ _) fun _ => readOnly_pure _) ?_
  intro e y hy
  split_ifs at hy
  cases hy
  exact readOnly_pure _

theorem readOnly_authorize (fees : FeesMap) (r : Request) (c : AuthConstraint) :
    ReadOnly (authorize P fees r c : Py S (Bool × Str)) := by
  refine ReadOnly.ite (ReadOnly.ite (readOnly_pure _) ((readOnly_unaskedFees r).bind fun _ => ?_))
    (readOnly_canPayFees _ _)
  exact ReadOnly.ite (readOnly_pure _) (ReadOnly.ite (readOnly_pure _) (readOnly_canPayFees _ _))

end ReadOnly

/-! ### Acceptance -/

/-- The inputs are worth the outputs and the fee. -/
def PaysFor (ins : List Input) (outs : List OutputSpec) (fee : ℤ) (s : S) : Prop :=
  Returns (sumInputs ins false) s (sumOutputs outs + fee) s

variable {s s' : S} {ins : List Input} {outs : List OutputSpec} {r : Request}

/-- The check of a transfer without a fee. -/
theorem paysFor_of_doValidate (h : Returns (doValidateInputsOutputs ins outs) s () s') :
    PaysFor ins outs 0 s := by
  unfold doValidateInputsOutputs sumInputsOf at h
  obtain ⟨t, u, ht, h⟩ := returns_bind.mp h
  obtain ⟨hv, rfl⟩ := returns_ofExcept.mp h
  rw [returns_catching, returns_catching] at ht
  · obtain rfl := validateGivenInputsOutputs_eq_ok.mp hv
    obtain rfl := (readOnly_sumInputs _ _).eq ht
    rwa [PaysFor, Int.add_zero]
  all_goals
    intro e y hy
    split_ifs at hy
    cases hy
    exact ⟨_, rfl⟩

/-- The check of the authorizer. -/
theorem paysFor_of_validateFees {fee : ℤ} (h : Returns (validateFeesCanPay ins outs fee) s () s') :
    PaysFor ins outs fee s := by
  unfold validateFeesCanPay at h
  obtain ⟨t, u, ht, h⟩ := returns_bind.mp h
  rw [returns_catching] at ht
  · obtain rfl := validateGivenInputsOutputs_eq_ok.mp (returns_ofExcept.mp h).1
    obtain rfl := (readOnly_sumInputs _ _).eq ht
    exact ht
  · intro e y hy
    split_ifs at hy <;> cases hy <;> exact ⟨_, rfl⟩

theorem paysFor_of_canPay {fee : ℤ} {msg : Str}
    (h : Returns (canPayFees P r fee) s (true, msg) s') : ∃ p,
    (if txnType P r.operation = xferPublic then operationPayment r.operation else feesPayment r) =
      .ok p ∧ PaysFor p.1 p.2 fee s := by
  unfold canPayFees canPayFees' at h
  rcases returns_catching_iff.mp h with h | ⟨e, y, u, -, hy, h⟩
  · simp only [returns_bind, returns_ofExcept] at h
    obtain ⟨_, u, ⟨p, _, ⟨hp, rfl⟩, h'⟩, -⟩ := h
    exact ⟨p, hp, paysFor_of_validateFees h'⟩
  · split_ifs at hy
    obtain rfl := Option.some.inj hy
    simp at h

variable {fees : FeesMap} {c : AuthConstraint} {msg : Str}

/-- A transfer pays from its operation. -/
theorem paysFor_of_authorize_xfer {sigs : List Json} (hop : r.operation = .xfer ins outs sigs)
    (h : Returns (authorize P fees r c) s (true, msg) s') :
    PaysFor ins outs (feesAmount fees c) s := by
  have htyp : txnType P r.operation = xferPublic := by rw [hop]; rfl
  unfold authorize at h
  rw [if_neg (not_not.mpr htyp)] at h
  obtain ⟨p, hp, hpays⟩ := paysFor_of_canPay h
  rw [if_pos htyp, hop] at hp
  obtain rfl := Except.ok.inj hp
  exact hpays

/-- Every other request pays from its fee section; without one, no fee is asked for. -/
theorem paysFor_of_authorize (htyp : txnType P r.operation ≠ xferPublic)
    (h : Returns (authorize P fees r c) s (true, msg) s') :
    match r.fees with
    | some section_ => PaysFor section_.inputs section_.outputs (feesAmount fees c) s
    | none => feesAmount fees c = 0 := by
  unfold authorize at h
  rw [if_pos htyp, authorizeSection, returns_ite] at h
  rcases h with ⟨-, h⟩ | ⟨hasked, h⟩
  · simp at h
  · simp only [returns_bind, returns_ite] at h
    obtain ⟨_, u, hu, h⟩ := h
    obtain rfl := (readOnly_unaskedFees r).eq hu
    rcases h with ⟨-, h⟩ | ⟨-, ⟨hno, -⟩ | ⟨-, h⟩⟩
    · simp at h
    · have : r.fees = none := by simpa [hasFees] using hno.2
      rw [this]
      exact hno.1
    · obtain ⟨p, hp, hpays⟩ := paysFor_of_canPay h
      rw [if_neg htyp, feesPayment] at hp
      cases hf : r.fees with
      | none => rw [hf] at hp; cases hp
      | some section_ =>
        rw [hf] at hp
        obtain rfl := Except.ok.inj hp
        exact hpays

/-! ### The fee of a request -/

/-- `calculate_fees_from_req` of a fee section whose inputs can be summed: what is left of them. -/
theorem returns_calculateFees_of_sum {section_ : FeesSection} (hf : r.fees = some section_) {t : ℤ}
    (h : Returns (sumInputs section_.inputs false) s t s) :
    Returns (calculateFeesFromReq r) s (t - sumOutputs section_.outputs) s := by
  unfold calculateFeesFromReq
  simp only [hasFees, hf, Option.isSome_some, if_true, feesPayment, returns_bind, returns_ofExcept]
  exact ⟨_, s, ⟨rfl, rfl⟩, returns_catching_iff.mpr (Or.inl
    (returns_bind.mpr ⟨t, s, h, returns_pure.mpr ⟨rfl, rfl⟩⟩))⟩

/-- `calculate_fees_from_req` of a fee section: what is left of its inputs, 0 where they cannot be
summed. -/
theorem returns_calculateFees {section_ : FeesSection} (hf : r.fees = some section_) {z : ℤ}
    (h : Returns (calculateFeesFromReq r) s z s') : s' = s ∧
      ∀ t, Returns (sumInputs section_.inputs false) s t s →
        z = t - sumOutputs section_.outputs := by
  have hs := (readOnly_calculateFees r).eq h
  exact ⟨hs, fun t ht => (h.unique (returns_calculateFees_of_sum hf ht)).1⟩

end TokenPlugin.Fees.Acceptance
