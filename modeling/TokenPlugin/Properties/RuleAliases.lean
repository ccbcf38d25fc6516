import TokenPlugin.Reference

/-! # No auth rule points at a missing fee

A rule is accepted exactly when every alias it names is set, and in every run of SET_FEES, AUTH_RULE and
AUTH_RULES the rules that the run has set go on naming aliases that are set. -/

namespace TokenPlugin.Properties.RuleAliases

open Python Token.Types Fees.ConfigState Fees.ConfigHistory Fees.AuthRuleFeeHandler Fees.ConfigRuns
open Fees.FeesAuthorizer Lib.Program Reference

variable {C : ConfigPlatform} {R : RulePlatform C}

/-- Every alias that a constraint names, at any depth, is a key of the fees map. -/
def NamesSetAliases (fees : FeesDict) (constraint : Constraint) : Prop :=
  ∀ c, IsLeaf c constraint → ∀ a, NamesAlias c a → a ∈ fees

/-- Validation of a rule, and of a list of rules, against the fees map of the current state. -/
structure AcceptsExactly (state : C.state.Carrier) (fees : FeesDict) : Prop where
  rule : ∀ constraint, Returns (authRuleDynamicValidation constraint) state () state ↔
    NamesSetAliases fees constraint
  rules : ∀ l, Returns (authRulesDynamicValidation l) state () state ↔
    ∀ constraint ∈ l, NamesSetAliases fees constraint
  forbidden : Returns (authRuleDynamicValidation .forbidden) state () state

/-- Under a root there is a fees map, and the rules in effect for the keys name aliases of it. -/
def RulesNameSetAliases (R : RulePlatform C) (r : C.state.Root) (keys : List Str) : Prop :=
  ∃ fees, (readKey r keyForAll >>= asMap) = .ok fees ∧
    ∀ k ∈ keys, ∀ constraint, RuleAt R r k constraint → NamesSetAliases fees constraint

/-- The authorizer finds an amount for every alias that the rules in effect for the keys name. -/
def AuthorizerFinds (R : RulePlatform C) (state : C.state.Carrier) (keys : List Str) : Prop :=
  ∃ fees, getFeesFromState state = .ok fees ∧
    ∀ k ∈ keys, ∀ constraint, RuleAt R (C.state.headHash state) k constraint →
      ∀ c, IsLeaf c constraint → ∀ a, NamesAlias c a →
        ∃ v, List.lookup a fees = some v ∧ feesAmount fees c = v

theorem aliasSet_toFeesMap {fees : FeesDict} {c : AuthConstraint} :
    AliasSet (toFeesMap fees) c ↔ ∀ a, NamesAlias c a → a ∈ fees := by
  unfold AliasSet
  simp only [mem_keys_toFeesMap, AList.lookup_isSome]

theorem acceptsExactly {state : C.state.Carrier} {fees : FeesDict}
    (h : getFeesValue state false = .ok (.all fees)) : AcceptsExactly state fees := by
  refine ⟨fun constraint => ?_, fun l => ?_, ?_⟩
  · rw [returns_authRuleDynamicValidation h]
    simp only [and_true, aliasSet_toFeesMap]
    rfl
  · rw [returns_authRulesDynamicValidation h]
    simp only [and_true, aliasSet_toFeesMap]
    rfl
  · exact (returns_authRuleDynamicValidation h).mpr ⟨fun c hc => absurd hc not_isLeaf_forbidden, rfl⟩

theorem rulesNameSetAliases {r : C.state.Root} {keys : List Str} (h : NoDangling R r keys) :
    RulesNameSetAliases R r keys := by
  obtain ⟨fees, hfees, hrules⟩ := h
  exact ⟨fees, hfees, fun k hk constraint hrule c hc =>
    aliasSet_toFeesMap.mp (hrules k hk constraint hrule c hc)⟩

theorem authorizerFinds {state : C.state.Carrier} {keys : List Str}
    (h : NoDangling R (C.state.headHash state) keys) : AuthorizerFinds R state keys := by
  obtain ⟨fees, hfees, hrules⟩ := rulesNameSetAliases h
  refine ⟨toFeesMap fees, ?_, fun k hk constraint hrule c hc a ha => ?_⟩
  · unfold getFeesFromState
    rw [show (readKey (C.state.headHash state) (buildPathForSetFees none) >>= asMap) = _ from hfees]
    rfl
  · obtain ⟨x, hx⟩ := Option.isSome_iff_exists.mp
      (AList.lookup_isSome.mpr (hrules k hk constraint hrule c hc a ha))
    have hlook : List.lookup a (toFeesMap fees) = some x.val.toNat := by
      rw [lookup_toFeesMap, hx]
      rfl
    refine ⟨_, hlook, ?_⟩
    unfold feesAmount getFeesAliasFromConstraint
    rw [ha.1, Option.bind_some, hlook]
    rfl

/-- **No auth rule points at a missing fee.** Validation accepts exactly the rules that name aliases of
the fees map; and in every run from a state whose fees map can be read and that has no uncommitted part,
the rules that the run set and that are in effect name aliases of the fees map of the same state, the
current one and the committed one, so that the authorizer finds what each of them costs. -/
theorem no_missing_fee {start : C.state.Carrier} {n : ConfigNode C} {g : SetKeys}
    (hstart : ∃ fees, (readKey (C.state.headHash start) keyForAll >>= asMap) = .ok fees)
    (hclean : C.state.committedHeadHash start = C.state.headHash start) (h : Reach R start n g) :
    (∀ (state : C.state.Carrier) fees, getFeesValue state false = .ok (.all fees) →
      AcceptsExactly state fees) ∧
    RulesNameSetAliases R (C.state.headHash n.state) g.current ∧
    RulesNameSetAliases R (C.state.committedHeadHash n.state) g.committed ∧
    AuthorizerFinds R n.state g.current := by
  have hinv := reach_inv hstart hclean h
  exact ⟨fun _ _ => acceptsExactly, rulesNameSetAliases hinv.current,
    rulesNameSetAliases hinv.committed, authorizerFinds hinv.current⟩

/-! ### A run -/

/-- A step of a run that returns. -/
theorem reach_next {start : C.state.Carrier} {n : ConfigNode C} {g : SetKeys} (h : Reach R start n g)
    {a : Action} (he : Enabled n a) (hs : (step R a n).1 = .ok ()) :
    Reach R start (step R a n).2 (g.next a) :=
  .step h he (Prod.ext hs rfl)

/-- A rule with an alias in a nested constraint. -/
def nymRule : Constraint := .group [.forbidden, .group [.role ⟨[]⟩, .role (asks "nym")]]

theorem no_missing_fee_nym : ∃ (n : ConfigNode refConfig) (g : SetKeys),
    Reach refRules refConfig.state.new n g ∧ g.committed = [("ADD--NYM" : Str)] ∧
      RuleAt refRules (refConfig.state.committedHeadHash n.state) "ADD--NYM" nymRule ∧
      RulesNameSetAliases refRules (refConfig.state.committedHeadHash n.state) g.committed := by
  have h₀ : Reach refRules refConfig.state.new _ _ := .start
  have h₁ := reach_next (a := .setFees [⟨("nym" : Str), .int 4⟩].toAList) h₀ trivial (by decide +kernel)
  have h₂ := reach_next (a := .authRule "ADD--NYM" nymRule) h₁ trivial (by decide +kernel)
  have h₃ := reach_next (a := .close) h₂ trivial (by decide +kernel)
  have h₄ := reach_next (a := .commit) h₃ rfl (by decide +kernel)
  exact ⟨_, _, h₄, rfl, by decide +kernel, (no_missing_fee ⟨∅, rfl⟩ rfl h₄).2.2.1⟩

end TokenPlugin.Properties.RuleAliases
