import TokenPlugin.Token.Types

/-! # `AuthRuleFeeHandler` and `AuthRulesFeeHandler`

They join indy-node's own handlers of AUTH_RULE and AUTH_RULES: a rule may only name fees aliases that
are set. They write nothing. -/

namespace TokenPlugin.Fees.AuthRuleFeeHandler

open Python Token.Types

mutual

/-- `validate_metadata`: the aliases of the role constraints, in order, that are not in the fees map. -/
def validateMetadata (currentFees : FeesMap) : Constraint → List Str
  | .forbidden => []
  | .group authConstraints => validateMetadataAll currentFees authConstraints
  | .role c =>
    match List.lookup ("fees" : Str) c.metadata with
    | some metaAlias =>
      if metaAlias ≠ [] ∧ metaAlias ∉ currentFees.map Prod.fst then [metaAlias] else []
    | none => []

/-- The aliases of a list of constraints. -/
def validateMetadataAll (currentFees : FeesMap) : List Constraint → List Str
  | [] => []
  | c :: cs => validateMetadata currentFees c ++ validateMetadataAll currentFees cs

end

/-- `str` of the fees map. -/
def showFees (fees : FeesMap) : Str :=
  let q := Char.ofNat 39
  '\x7b' :: (", " : Str).intercalate
    (fees.map fun e => q :: e.1 ++ q :: (": " : Str) ++ Lib.Text.intText e.2) ++ ['\x7d']

/-- Raises when there are wrong aliases. -/
def rejectWrongAliases (currentFees : FeesMap) (wrongAliases : List Str) : Except PyErr Unit :=
  if wrongAliases = [] then .ok ()
  else .error ⟨.invalidClientMessage,
    ("Fees alias(es) " : Str) ++ (", " : Str).intercalate wrongAliases ++
    (" does not exist in current fees " : Str) ++ showFees currentFees ++
    (". Please add the alias(es) via SET_FEES transaction first." : Str)⟩

/-- `AuthRuleFeeHandler.fees_specific_validation`. -/
def feesSpecificValidation (currentFees : FeesMap) (constraint : Constraint) : Except PyErr Unit :=
  rejectWrongAliases currentFees (validateMetadata currentFees constraint)

/-- `AuthRulesFeeHandler.fees_specific_validation`: rule by rule. -/
def feesSpecificValidationRules (currentFees : FeesMap) (rules : List Constraint) :
    Except PyErr Unit :=
  rules.forM (feesSpecificValidation currentFees)

/-! ### What is accepted -/

/-- A role constraint of a constraint, at any depth. -/
inductive IsLeaf (c : AuthConstraint) : Constraint → Prop
  | role : IsLeaf c (.role c)
  | group {d : Constraint} {ds : List Constraint} (hd : d ∈ ds) (h : IsLeaf c d) : IsLeaf c (.group ds)

/-- The role constraint names an alias. -/
def NamesAlias (c : AuthConstraint) (a : Str) : Prop :=
  List.lookup ("fees" : Str) c.metadata = some a ∧ a ≠ []

/-- The alias that the role constraint names, if any, is in the fees map. -/
def AliasSet (currentFees : FeesMap) (c : AuthConstraint) : Prop :=
  ∀ a, NamesAlias c a → a ∈ currentFees.map Prod.fst

variable {fees : FeesMap} {c : AuthConstraint}

theorem validateMetadata_role_eq_nil : validateMetadata fees (.role c) = [] ↔ AliasSet fees c := by
  unfold validateMetadata AliasSet NamesAlias
  rcases List.lookup ("fees" : Str) c.metadata with _ | a
  · simp
  · by_cases h : a ≠ [] ∧ a ∉ fees.map Prod.fst
    · simp only [if_pos h, List.cons_ne_self, false_iff]
      exact fun h' => h.2 (h' a ⟨rfl, h.1⟩)
    · simp only [if_neg h, true_iff, Option.some.injEq]
      rintro b ⟨rfl, hb⟩
      exact not_not.mp fun hn => h ⟨hb, hn⟩

theorem isLeaf_group {ds : List Constraint} : IsLeaf c (.group ds) ↔ ∃ d ∈ ds, IsLeaf c d :=
  ⟨fun h => by cases h with | group hd h => exact ⟨_, hd, h⟩, fun ⟨_, hd, h⟩ => .group hd h⟩

theorem not_isLeaf_forbidden : ¬IsLeaf c .forbidden := nofun

theorem isLeaf_role {c' : AuthConstraint} : IsLeaf c (.role c') ↔ c = c' :=
  ⟨fun h => by cases h; rfl, fun h => h ▸ .role⟩

mutual

/-- **No alias is wrong** exactly when every role constraint names one that is set. -/
theorem validateMetadata_eq_nil (constraint : Constraint) :
    validateMetadata fees constraint = [] ↔ ∀ c, IsLeaf c constraint → AliasSet fees c := by
  cases constraint with
  | forbidden => simp [validateMetadata, not_isLeaf_forbidden]
  | role c =>
    rw [validateMetadata_role_eq_nil]
    simp only [isLeaf_role, forall_eq]
  | group ds =>
    rw [validateMetadata, validateMetadataAll_eq_nil ds]
    simp only [isLeaf_group]
    exact ⟨fun h c ⟨d, hd, hc⟩ => h d hd c hc, fun h d hd c hc => h c ⟨d, hd, hc⟩⟩

theorem validateMetadataAll_eq_nil (ds : List Constraint) :
    validateMetadataAll fees ds = [] ↔ ∀ d ∈ ds, ∀ c, IsLeaf c d → AliasSet fees c := by
  cases ds with
  | nil => simp [validateMetadataAll]
  | cons d ds =>
    rw [validateMetadataAll, List.append_eq_nil_iff, validateMetadata_eq_nil d,
      validateMetadataAll_eq_nil ds, List.forall_mem_cons]

end

theorem feesSpecificValidation_eq_ok {constraint : Constraint} :
    feesSpecificValidation fees constraint = .ok () ↔ ∀ c, IsLeaf c constraint → AliasSet fees c := by
  rw [← validateMetadata_eq_nil]
  unfold feesSpecificValidation rejectWrongAliases
  split_ifs with h <;> simp [h]

theorem feesSpecificValidationRules_eq_ok {rules : List Constraint} :
    feesSpecificValidationRules fees rules = .ok () ↔
      ∀ constraint ∈ rules, ∀ c, IsLeaf c constraint → AliasSet fees c := by
  unfold feesSpecificValidationRules
  rw [forM_eq_ok]
  simp only [feesSpecificValidation_eq_ok]

end TokenPlugin.Fees.AuthRuleFeeHandler
