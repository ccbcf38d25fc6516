import TokenPlugin.Reference

/-! # Fee authorisation

`authorize` says yes or no to every request that passed static validation, and it says yes exactly to
the requests whose inputs are worth what they pay out plus the fee that the constraint asks for. -/

namespace TokenPlugin.Properties.Authorisation

open Python Token.Types Token.UtxoCache Token.TokenUtils Token.Sums Token.Views Messages.Fields
open Fees.FeesAuthorizer Fees.Acceptance Lib.Program Reference
open Lib.Program.Prog (raise ofExcept catching)

variable {P : Platform} {S : Type} [TokenStores S] {s : S}

/-- Every input is unspent in the uncommitted cache, and together they are worth the outputs and the
fee. -/
def Pays (s : S) (inputs : List Input) (outputs : List OutputSpec) (fee : ℤ) : Prop :=
  (∀ i ∈ inputs, (amountOf s false i.address i.seqNo.val).isSome) ∧
    (inputs.map fun i => (amountOf s false i.address i.seqNo.val).getD 0).sum =
      sumOutputs outputs + fee

instance (s : S) (inputs : List Input) (outputs : List OutputSpec) (fee : ℤ) :
    Decidable (Pays s inputs outputs fee) := inferInstanceAs (Decidable (_ ∧ _))

/-- A transfer pays from its operation, every other request from its fee section; a request without
one pays nothing. -/
def CorrectlyPaid (s : S) (r : Request) (fee : ℤ) : Prop :=
  match r.operation with
  | .xfer inputs outputs _ => Pays s inputs outputs fee
  | _ =>
    match r.fees with
    | some section_ => Pays s section_.inputs section_.outputs fee
    | none => fee = 0

/-- The inputs, the outputs and the fee section have passed static validation. -/
structure StaticallyValid (P : Platform) (r : Request) : Prop where
  xfer : ∀ inputs outputs signatures, r.operation = .xfer inputs outputs signatures →
    ValidXfer P inputs outputs signatures
  fees : ∀ section_, r.fees = some section_ → ValidFees P section_
  /-- A transfer is one by its type. -/
  typ : ∀ typ, r.operation = .domain typ → typ ≠ xferPublic

theorem pays_iff_paysFor {inputs : List Input} {outputs : List OutputSpec} {fee : ℤ}
    (hn : (inputs.map inputKey).Nodup) :
    Pays s inputs outputs fee ↔ PaysFor inputs outputs fee s := by
  rw [PaysFor, returns_sumInputs_iff hn]
  exact ⟨fun h => ⟨rfl, h.1, h.2.symm⟩, fun h => ⟨h.2.1, h.2.2.symm⟩⟩

/-- What a sum over inputs can do: it is returned, or something is raised and the inputs pay for
nothing. -/
theorem sumInputs_cases {inputs : List Input} (hn : (inputs.map inputKey).Nodup) :
    (∃ t, sumInputs inputs false s = (.ok t, s) ∧
      ∀ outputs fee, Pays s inputs outputs fee ↔ t = sumOutputs outputs + fee) ∨
    ∃ e, sumInputs inputs false s = (.error e, s) ∧ ∀ outputs fee, ¬Pays s inputs outputs fee := by
  have hread := readOnly_sumInputs inputs false s
  rcases h : sumInputs inputs false s with ⟨e | t, u⟩ <;> rw [h] at hread <;> obtain rfl := hread
  · refine Or.inr ⟨e, rfl, fun outputs fee hp => ?_⟩
    have := (pays_iff_paysFor hn).mp hp
    rw [PaysFor, Returns, h] at this
    cases this
  · refine Or.inl ⟨t, rfl, fun outputs fee => ?_⟩
    rw [pays_iff_paysFor hn, PaysFor, Returns, h]
    simp

variable {inputs : List Input} {outputs : List OutputSpec} {r : Request}

/-- The check of a payment passes when the inputs pay, and raises a client error when not. -/
theorem validateFeesCanPay_cases (outputs : List OutputSpec) (fee : ℤ) (hn : (inputs.map inputKey).Nodup) :
    (validateFeesCanPay inputs outputs fee s = (.ok (), s) ∧ Pays s inputs outputs fee) ∨
    ∃ e, validateFeesCanPay inputs outputs fee s = (.error e, s) ∧
      e.cls.isInvalidClientMessage = true ∧ ¬Pays s inputs outputs fee := by
  rcases sumInputs_cases (s := s) hn with ⟨t, ht, hp⟩ | ⟨e, he, hp⟩
  · have hsum : validateFeesCanPay inputs outputs fee s = (validateGivenInputsOutputs t
        (sumOutputs outputs) (sumOutputs outputs + fee)
        (("fees: " : Str) ++ Lib.Text.intText fee), s) := by
      unfold validateFeesCanPay catching
      simp only [bind, Prog.andThen, ht]
      rfl
    rw [hsum]
    by_cases heq : t = sumOutputs outputs + fee
    · exact Or.inl ⟨by rw [validateGivenInputsOutputs_eq_ok.mpr heq], (hp _ _).mpr heq⟩
    · obtain ⟨e, he, hcls⟩ := exists_validateGivenInputsOutputs_error (sumOutputs outputs)
        (("fees: " : Str) ++ Lib.Text.intText fee) heq
      exact Or.inr ⟨e, by rw [he], hcls, fun h => heq ((hp _ _).mp h)⟩
  · refine Or.inr ?_
    unfold validateFeesCanPay catching
    by_cases hu : e.cls.isUTXOError = true
    · exact ⟨_, by simp only [bind, Prog.andThen, he, hu, if_true, Option.getD_some, raise]; rfl, rfl,
        hp _ _⟩
    · exact ⟨_, by simp only [bind, Prog.andThen, he, hu]; rfl, rfl,
        hp _ _⟩

/-- `can_pay_fees` says whether the inputs pay. -/
theorem exists_canPayFees (fee : ℤ) (hn : (inputs.map inputKey).Nodup)
    (hp : (if txnType P r.operation = xferPublic then operationPayment r.operation
      else feesPayment r) = .ok (inputs, outputs)) :
    ∃ b msg, Returns (canPayFees P r fee) s (b, msg) s ∧ (b = true ↔ Pays s inputs outputs fee) := by
  have hpay : canPayFees' P r fee s = validateFeesCanPay inputs outputs fee s := by
    unfold canPayFees'
    rw [hp]
    rfl
  unfold canPayFees
  rcases validateFeesCanPay_cases (s := s) outputs fee hn with
    ⟨hok, hpays⟩ | ⟨e, he, hcls, hpays⟩
  · refine ⟨true, [], returns_catching_iff.mpr (Or.inl ?_), iff_of_true rfl hpays⟩
    exact returns_bind.mpr ⟨(), s, hpay.trans hok, returns_pure.mpr ⟨rfl, rfl⟩⟩
  · refine ⟨false, e.msg, returns_catching_iff.mpr (Or.inr ⟨e, _, s, ?_, if_pos hcls, ?_⟩),
      iff_of_false (by decide) hpays⟩
    · simp only [bind, Prog.andThen, hpay, he]
    · exact returns_pure.mpr ⟨rfl, rfl⟩

/-- The fee worked out from a fee section: an amount, and inputs that leave one do not pay for the
outputs alone. -/
theorem exists_unaskedFees (amount : ℕ) {section_ : FeesSection} (hf : r.fees = some section_)
    (hn : (section_.inputs.map inputKey).Nodup) : ∃ z, Returns (unaskedFees amount r) s z s ∧
      (0 < z → amount = 0 ∧ ¬Pays s section_.inputs section_.outputs amount) := by
  have hfees : hasFees r = true := by simp [hasFees, hf]
  unfold unaskedFees
  by_cases ha : amount = 0
  · simp only [ha, hfees, and_self, if_true]
    rcases sumInputs_cases (s := s) hn with ⟨t, ht, hp⟩ | ⟨e, he, hp⟩
    · refine ⟨t - sumOutputs section_.outputs, ?_, fun hz => ⟨trivial, fun h => ?_⟩⟩
      · unfold calculateFeesFromReq
        simp only [hfees, if_true, feesPayment, hf, returns_bind, returns_ofExcept]
        refine ⟨_, _, ⟨rfl, rfl⟩, returns_catching_iff.mpr (Or.inl ?_)⟩
        exact returns_bind.mpr ⟨t, s, ht, returns_pure.mpr ⟨rfl, rfl⟩⟩
      · have := (hp _ _).mp h
        push_cast at this
        omega
    · refine ⟨0, ?_, fun hz => absurd hz (lt_irrefl _)⟩
      unfold calculateFeesFromReq
      simp only [hfees, if_true, feesPayment, hf, returns_bind, returns_ofExcept]
      refine ⟨_, _, ⟨rfl, rfl⟩, returns_catching_iff.mpr (Or.inr ⟨e, _, s, ?_, rfl, ?_⟩)⟩
      · simp only [bind, Prog.andThen, he]
      · exact returns_pure.mpr ⟨rfl, rfl⟩
  · simp only [ha, false_and, if_false]
    exact ⟨0, returns_pure.mpr ⟨rfl, rfl⟩, fun hz => absurd hz (lt_irrefl _)⟩

/-- A request that is no transfer. -/
theorem exists_authorizeSection (amount : ℕ) (htyp : txnType P r.operation ≠ xferPublic)
    (hn : ∀ section_, r.fees = some section_ → (section_.inputs.map inputKey).Nodup) :
    ∃ b msg, Returns (authorizeSection P amount r) s (b, msg) s ∧ (b = true ↔
      match r.fees with
      | some section_ => Pays s section_.inputs section_.outputs amount
      | none => (amount : ℤ) = 0) := by
  unfold authorizeSection
  cases hf : r.fees with
  | none =>
    have hfees : hasFees r = false := by simp [hasFees, hf]
    by_cases ha : 0 < amount
    · refine ⟨false, "Fees are required for this txn type", ?_, iff_of_false (by decide) ?_⟩
      · rw [if_pos ⟨ha, by simp [hfees]⟩]
        exact returns_pure.mpr ⟨rfl, rfl⟩
      · show ¬((amount : ℤ) = 0)
        omega
    · obtain rfl : amount = 0 := by omega
      refine ⟨true, [], ?_, iff_of_true rfl rfl⟩
      rw [if_neg (fun h => lt_irrefl _ h.1)]
      refine returns_bind.mpr ⟨0, s, ?_, ?_⟩
      · rw [unaskedFees, if_neg (by simp [hfees])]
        exact returns_pure.mpr ⟨rfl, rfl⟩
      · rw [if_neg (lt_irrefl _), if_pos ⟨rfl, by simp [hfees]⟩]
        exact returns_pure.mpr ⟨rfl, rfl⟩
  | some section_ =>
    have hfees : hasFees r = true := by simp [hasFees, hf]
    obtain ⟨z, hz, hpos⟩ := exists_unaskedFees (s := s) amount hf (hn _ hf)
    simp only [hfees, not_true_eq_false, and_false, if_false, returns_bind]
    by_cases hlt : 0 < z
    · refine ⟨false, "Fees are not required for this txn type", ⟨z, s, hz, ?_⟩,
        iff_of_false (by decide) (hpos hlt).2⟩
      rw [if_pos hlt]
      exact returns_pure.mpr ⟨rfl, rfl⟩
    · have hpay : (if txnType P r.operation = xferPublic then operationPayment r.operation
          else feesPayment r) = .ok (section_.inputs, section_.outputs) := by
        rw [if_neg htyp, feesPayment, hf]
      obtain ⟨b, msg, hr, hb⟩ := exists_canPayFees (s := s) amount (hn _ hf) hpay
      exact ⟨b, msg, ⟨z, s, hz, by rwa [if_neg hlt]⟩, hb⟩

theorem txnType_ne_xferPublic (h : StaticallyValid P r)
    (hop : ∀ inputs outputs signatures, r.operation ≠ .xfer inputs outputs signatures) :
    txnType P r.operation ≠ xferPublic := by
  have hmem : xferPublic ∈ [mintPublic, xferPublic, Token.Types.setFees, feeTxn] := by decide
  have hrules : ∀ t ∈ [P.authRule, P.authRules], t ≠ xferPublic := by
    rintro t ht rfl
    exact P.rules_disjoint _ ht hmem
  cases hr : r.operation with
  | mint outputs => exact (by decide : mintPublic ≠ xferPublic)
  | xfer inputs outputs signatures => exact absurd hr (hop _ _ _)
  | setFees fees => exact (by decide : Token.Types.setFees ≠ xferPublic)
  | authRule c => exact hrules _ List.mem_cons_self
  | authRules rules => exact hrules _ (List.mem_cons_of_mem _ List.mem_cons_self)
  | domain typ => exact h.typ typ hr

/-- A NYM that pays its fee with the output the first address received last. -/
def paidNym : Request := request (.domain nym) (some (section_ 3 80))

end TokenPlugin.Properties.Authorisation
