import TokenPlugin.Fees.AuthRuleFeeHandler
import TokenPlugin.Fees.ConfigHistory

/-! # Fees and auth rules on the config ledger

SET_FEES, AUTH_RULE and AUTH_RULES write to one state. A rule is accepted when its aliases are in the
fees map at that moment; SET_FEES never takes an alias out of the map; and a batch takes back rules and
fees together. So no rule ever names an alias that is not set, in the current state or the committed
one. -/

namespace TokenPlugin.Fees.ConfigRuns

open Python Token.Types Fees.ConfigState Fees.ConfigHistory Fees.AuthRuleFeeHandler Lib.Program
open Lib.Program.Prog (raise get modify ofExcept zoom)

variable {C : ConfigPlatform}

/-- How indy-node keeps the auth rules in the config state: `get_auth_rule_path` of the key of an
action, and the text of a constraint. -/
structure RulePlatform (C : ConfigPlatform) where
  path : Str → Str
  serialize : Constraint → Str
  path_ne : ∀ k feesAlias, path k ≠ buildPathForSetFees feesAlias
  serialize_injective : Function.Injective serialize

variable {R : RulePlatform C}

/-! ### The handlers on the state -/

/-- The check of a constraint against `current_fees`; an amount in its place is no container, which is
noticed at the first alias. -/
def checkAgainst (currentFees : StateValue) (check : FeesMap → Except PyErr Unit) : Except PyErr Unit :=
  match currentFees with
  | .all fees => check (toFeesMap fees)
  | .amount _ =>
    match check [] with
    | .ok () => .ok ()
    | .error _ => .error ⟨.typeError, "argument of type 'int' is not iterable"⟩

/-- `AuthRuleFeeHandler.dynamic_validation`. -/
def authRuleDynamicValidation (constraint : Constraint) : Py C.state.Carrier Unit := do
  let state ← get
  let currentFees ← ofExcept (getFeesValue state false)
  ofExcept (checkAgainst currentFees fun fees => feesSpecificValidation fees constraint)

/-- `AuthRulesFeeHandler.dynamic_validation`. -/
def authRulesDynamicValidation (rules : List Constraint) : Py C.state.Carrier Unit := do
  let state ← get
  let currentFees ← ofExcept (getFeesValue state false)
  ofExcept (checkAgainst currentFees fun fees => feesSpecificValidationRules fees rules)

/-- What indy-node's handlers write for a rule. -/
def setRule (R : RulePlatform C) (key : Str) (constraint : Constraint) : Py C.state.Carrier Unit :=
  modify fun state => C.state.set state (R.path key) (R.serialize constraint)

/-! ### Steps -/

/-- The config state with its uncommitted batches: the root after each, the oldest first. -/
structure ConfigNode (C : ConfigPlatform) where
  state : C.state.Carrier
  batches : List C.state.Root
  /-- Whether requests have been applied since the last batch. -/
  opened : Bool

/-- A node whose state has no uncommitted part. -/
def ConfigNode.ofState (state : C.state.Carrier) : ConfigNode C := ⟨state, [], false⟩

/-- What can happen on the config ledger. -/
inductive Action
  | setFees (fees : FeesDict)
  | authRule (key : Str) (constraint : Constraint)
  | authRules (rules : List (Str × Constraint))
  | close
  | reject
  | commit

/-- The handlers of a request, on the state of the node. -/
def onState (x : Py C.state.Carrier Unit) : Py (ConfigNode C) Unit := do
  zoom ConfigNode.state (fun state n => { n with state := state }) x
  modify fun n => { n with opened := true }

/-- The root that the rejection of the latest batch goes back to. -/
def rootBefore (n : ConfigNode C) : C.state.Root :=
  n.batches.dropLast.getLast?.getD (C.state.committedHeadHash n.state)

/-- One step. A request is validated on the state that it is applied to. -/
def step (R : RulePlatform C) : Action → Py (ConfigNode C) Unit
  | .setFees fees => onState (updateState fees)
  | .authRule key constraint => onState do
      authRuleDynamicValidation constraint
      setRule R key constraint
  | .authRules rules => onState do
      authRulesDynamicValidation (rules.map Prod.snd)
      rules.forM fun e => setRule R e.1 e.2
  | .close => modify fun n => ⟨n.state, n.batches ++ [C.state.headHash n.state], false⟩
  | .reject => do
      let n ← get
      match n.batches with
      | [] => raise ⟨.logicError, "no batch to reject"⟩
      | _ => modify fun n => ⟨C.state.revertToHead n.state (rootBefore n), n.batches.dropLast, false⟩
  | .commit => do
      let n ← get
      match n.batches with
      | [] => raise ⟨.logicError, "no batch to commit"⟩
      | root :: batches => modify fun n => ⟨C.state.commit n.state root, batches, false⟩

/-- A batch is rejected or committed when none is open. -/
def Enabled (n : ConfigNode C) : Action → Prop
  | .reject | .commit => n.opened = false
  | _ => True

/-! ### Runs -/

/-- The keys of the rules that a run has set, on the way to the committed state, to the state after each
uncommitted batch, and to the current state. -/
structure SetKeys where
  committed : List Str
  batches : List (List Str)
  current : List Str

/-- The keys after a step. -/
def SetKeys.next (g : SetKeys) : Action → SetKeys
  | .setFees _ => g
  | .authRule key _ => { g with current := key :: g.current }
  | .authRules rules => { g with current := rules.map Prod.fst ++ g.current }
  | .close => { g with batches := g.batches ++ [g.current] }
  | .reject =>
    { g with batches := g.batches.dropLast, current := g.batches.dropLast.getLast?.getD g.committed }
  | .commit => { g with committed := g.batches.head?.getD g.committed, batches := g.batches.tail }

/-- The nodes that are reached from a state without uncommitted batches, with the keys that were set. -/
inductive Reach (R : RulePlatform C) (start : C.state.Carrier) : ConfigNode C → SetKeys → Prop
  | start : Reach R start (.ofState start) ⟨[], [], []⟩
  | step {n n' : ConfigNode C} {g : SetKeys} {a : Action} (h : Reach R start n g) (he : Enabled n a)
      (hs : Returns (step R a) n () n') : Reach R start n' (g.next a)

/-! ### What is accepted -/

variable {state state' : C.state.Carrier} {fees : FeesDict}

theorem getFeesValue_of_all (h : readKey (C.state.headHash state) keyForAll = .ok (some (.all fees))) :
    getFeesValue state false = .ok (.all fees) := by
  unfold getFeesValue getFeeFromState
  rw [show readKey (rootOf state false) (buildPathForSetFees none) = _ from h]
  rfl

/-- The fees that a rule is checked against are those that the map is read as. -/
theorem getFeesValue_eq_ok (h : (readKey (C.state.headHash state) keyForAll >>= asMap) = .ok fees) :
    getFeesValue state false = .ok (.all fees) := by
  rcases hr : readKey (C.state.headHash state) keyForAll with e | (_ | v | m) <;> rw [hr] at h
  · cases h
  · obtain rfl : ∅ = fees := Except.ok.inj h
    unfold getFeesValue getFeeFromState
    rw [show readKey (rootOf state false) (buildPathForSetFees none) = _ from hr]
    rfl
  · cases h
  · obtain rfl : m = fees := Except.ok.inj h
    exact getFeesValue_of_all hr

/-- **An accepted AUTH_RULE.** -/
theorem returns_authRuleDynamicValidation (h : getFeesValue state false = .ok (.all fees))
    {constraint : Constraint} : Returns (authRuleDynamicValidation constraint) state () state' ↔
      (∀ c, IsLeaf c constraint → AliasSet (toFeesMap fees) c) ∧ state = state' := by
  unfold authRuleDynamicValidation
  simp only [returns_bind, returns_get, returns_ofExcept]
  rw [← feesSpecificValidation_eq_ok]
  constructor
  · rintro ⟨_, _, ⟨rfl, rfl⟩, _, _, ⟨hf, rfl⟩, hc, rfl⟩
    obtain rfl := Except.ok.inj (h.symm.trans hf)
    exact ⟨hc, rfl⟩
  · rintro ⟨hc, rfl⟩
    exact ⟨state, state, ⟨rfl, rfl⟩, _, state, ⟨h, rfl⟩, hc, rfl⟩

/-- **An accepted AUTH_RULES.** -/
theorem returns_authRulesDynamicValidation (h : getFeesValue state false = .ok (.all fees))
    {rules : List Constraint} : Returns (authRulesDynamicValidation rules) state () state' ↔
      (∀ constraint ∈ rules, ∀ c, IsLeaf c constraint → AliasSet (toFeesMap fees) c) ∧
        state = state' := by
  unfold authRulesDynamicValidation
  simp only [returns_bind, returns_get, returns_ofExcept]
  rw [← feesSpecificValidationRules_eq_ok]
  constructor
  · rintro ⟨_, _, ⟨rfl, rfl⟩, _, _, ⟨hf, rfl⟩, hc, rfl⟩
    obtain rfl := Except.ok.inj (h.symm.trans hf)
    exact ⟨hc, rfl⟩
  · rintro ⟨hc, rfl⟩
    exact ⟨state, state, ⟨rfl, rfl⟩, _, state, ⟨h, rfl⟩, hc, rfl⟩

/-! ### Rules and fees under one root -/

/-- The rule that is in effect for a key, under a root. -/
def RuleAt (R : RulePlatform C) (r : C.state.Root) (key : Str) (constraint : Constraint) : Prop :=
  C.state.lookup r (R.path key) = some (R.serialize constraint)

instance (r : C.state.Root) (key : Str) (constraint : Constraint) :
    Decidable (RuleAt R r key constraint) := inferInstanceAs (Decidable (_ = _))

/-- The fees map can be read, and it has every alias that a rule of one of the keys names. -/
def NoDangling (R : RulePlatform C) (r : C.state.Root) (keys : List Str) : Prop :=
  ∃ fees, (readKey r keyForAll >>= asMap) = .ok fees ∧
    ∀ k ∈ keys, ∀ constraint, RuleAt R r k constraint →
      ∀ c, IsLeaf c constraint → AliasSet (toFeesMap fees) c

theorem mem_keys_toFeesMap {a : Str} : a ∈ (toFeesMap fees).map Prod.fst ↔ (fees.lookup a).isSome := by
  rw [AList.lookup_isSome, AList.mem_keys, toFeesMap, List.map_map]
  exact Iff.rfl

variable {keys : List Str}

/-- SET_FEES keeps the aliases that are set. -/
theorem NoDangling.updateState (h : NoDangling R (C.state.headHash state) keys) {e : FeesDict}
    (hs : Returns (updateState e) state () state') :
    NoDangling R (C.state.headHash state') keys ∧
      C.state.committedHeadHash state' = C.state.committedHeadHash state := by
  obtain ⟨fees, hfees, hrules⟩ := h
  obtain ⟨u, hu, hc, ⟨fees', hall, hlook⟩, -, hother⟩ := exists_updateState_of_map hfees e
  obtain ⟨-, rfl⟩ := hu.unique hs
  refine ⟨⟨fees', by rw [hall]; rfl, fun k hk constraint hrule c hc a ha => ?_⟩, hc⟩
  have hrule' : RuleAt R (C.state.headHash state) k constraint := by
    unfold RuleAt
    rw [← hother _ (R.path_ne k)]
    exact hrule
  have hset := mem_keys_toFeesMap.mp (hrules k hk constraint hrule' c hc a ha)
  rw [mem_keys_toFeesMap, hlook, Option.isSome_or, hset, Bool.or_true]

/-- A rule that names only aliases that are set may be written. -/
theorem NoDangling.setRule (h : NoDangling R (C.state.headHash state) keys) {k : Str}
    {constraint : Constraint}
    (hset : ∀ fees, (readKey (C.state.headHash state) keyForAll >>= asMap) = .ok fees →
      ∀ c, IsLeaf c constraint → AliasSet (toFeesMap fees) c)
    (hs : Returns (setRule R k constraint) state () state') :
    NoDangling R (C.state.headHash state') (k :: keys) ∧
      C.state.committedHeadHash state' = C.state.committedHeadHash state ∧
      readKey (C.state.headHash state') keyForAll = readKey (C.state.headHash state) keyForAll := by
  obtain ⟨fees, hfees, hrules⟩ := h
  obtain rfl := returns_modify.mp hs
  have hread : readKey (C.state.headHash (C.state.set state (R.path k) (R.serialize constraint))) keyForAll =
      readKey (C.state.headHash state) keyForAll := readKey_set_of_ne (R.path_ne k none).symm _
  refine ⟨⟨fees, by rw [← hfees]; exact congrArg (· >>= asMap) hread, ?_⟩, C.state.committed_set _ _ _,
    hread⟩
  intro k' hk' constraint' hrule
  unfold RuleAt at hrule
  rw [C.state.lookup_set] at hrule
  by_cases hp : R.path k' = R.path k
  · rw [hp, Function.update_self] at hrule
    obtain rfl := R.serialize_injective (Option.some.inj hrule)
    exact hset fees hfees
  · rw [Function.update_of_ne hp] at hrule
    exact hrules k' ((List.mem_cons.mp hk').resolve_left fun he => hp (he ▸ rfl)) constraint' hrule

/-- And so may a list of them, one after the other. -/
theorem NoDangling.setRules {rules : List (Str × Constraint)}
    (h : NoDangling R (C.state.headHash state) keys)
    (hset : ∀ fees, (readKey (C.state.headHash state) keyForAll >>= asMap) = .ok fees →
      ∀ e ∈ rules, ∀ c, IsLeaf c e.2 → AliasSet (toFeesMap fees) c)
    (hs : Returns (rules.forM fun e => ConfigRuns.setRule R e.1 e.2) state () state') :
    NoDangling R (C.state.headHash state') (rules.map Prod.fst ++ keys) ∧
      C.state.committedHeadHash state' = C.state.committedHeadHash state := by
  induction rules generalizing state keys with
  | nil =>
    obtain rfl := returns_forM_nil.mp hs
    exact ⟨h, rfl⟩
  | cons e rules ih =>
    obtain ⟨u, hu, hr⟩ := returns_forM_cons.mp hs
    obtain ⟨h', hc, hread⟩ := h.setRule (fun fees hf => hset fees hf e List.mem_cons_self) hu
    obtain ⟨⟨fees, hfees, hrules⟩, hc'⟩ := ih h' (by
      rw [hread]
      exact fun fees hf e he => hset fees hf e (List.mem_cons_of_mem _ he)) hr
    refine ⟨⟨fees, hfees, fun k hk => hrules k ?_⟩, hc'.trans hc⟩
    simp only [List.map_cons, List.cons_append, List.mem_cons, List.mem_append] at hk ⊢
    tauto

/-! ### The invariant of a run -/

/-- No rule that was set names an alias that is not, in any of the states of the node. -/
structure Inv (R : RulePlatform C) (n : ConfigNode C) (g : SetKeys) : Prop where
  committed : NoDangling R (C.state.committedHeadHash n.state) g.committed
  batches : List.Forall₂ (NoDangling R) n.batches g.batches
  current : NoDangling R (C.state.headHash n.state) g.current

/-- The last entries of two related lists, or what stands for them. -/
theorem forall₂_getLast {α β : Type} {p : α → β → Prop} {l : List α} {m : List β}
    (h : List.Forall₂ p l m) {x : α} {y : β} (hxy : p x y) :
    p (l.getLast?.getD x) (m.getLast?.getD y) := by
  induction h generalizing x y with
  | nil => exact hxy
  | cons hab _ ih =>
    rw [List.getLast?_cons, List.getLast?_cons]
    exact ih hab

theorem forall₂_dropLast {α β : Type} {p : α → β → Prop} {l : List α} {m : List β}
    (h : List.Forall₂ p l m) : List.Forall₂ p l.dropLast m.dropLast := by
  rw [List.dropLast_eq_take, List.dropLast_eq_take, h.length_eq]
  exact List.forall₂_take _ h

variable {n n' : ConfigNode C} {g : SetKeys}

/-- What the handlers of a request do to the state of the node. -/
theorem returns_onState {x : Py C.state.Carrier Unit} : Returns (onState x) n () n' ↔
    ∃ state', Returns x n.state () state' ∧ n' = ⟨state', n.batches, true⟩ := by
  unfold onState
  simp only [returns_bind, returns_zoom, returns_modify]
  constructor
  · rintro ⟨_, _, ⟨state', hs, rfl⟩, rfl⟩
    exact ⟨state', hs, rfl⟩
  · rintro ⟨state', hs, rfl⟩
    exact ⟨(), _, ⟨state', hs, rfl⟩, rfl⟩

/-- **One step keeps the invariant.** -/
theorem inv_step (h : Inv R n g) {a : Action} (hs : Returns (step R a) n () n') :
    Inv R n' (g.next a) := by
  obtain ⟨fees, hfees, -⟩ := h.current
  have hvalue := getFeesValue_eq_ok hfees
  have hunique : ∀ fees', (readKey (C.state.headHash n.state) keyForAll >>= asMap) = .ok fees' →
      fees = fees' := fun fees' h' => Except.ok.inj (hfees.symm.trans h')
  cases a with
  | setFees e =>
    obtain ⟨state', hr, rfl⟩ := returns_onState.mp hs
    obtain ⟨hcur, hc⟩ := h.current.updateState hr
    exact ⟨by rw [hc]; exact h.committed, h.batches, hcur⟩
  | authRule k constraint =>
    obtain ⟨state', hr, rfl⟩ := returns_onState.mp hs
    obtain ⟨_, u, hv, hw⟩ := returns_bind.mp hr
    obtain ⟨hset, rfl⟩ := (returns_authRuleDynamicValidation hvalue).mp hv
    obtain ⟨hcur, hc, -⟩ := h.current.setRule (fun fees' h' => hunique fees' h' ▸ hset) hw
    exact ⟨by rw [hc]; exact h.committed, h.batches, hcur⟩
  | authRules rules =>
    obtain ⟨state', hr, rfl⟩ := returns_onState.mp hs
    obtain ⟨_, u, hv, hw⟩ := returns_bind.mp hr
    obtain ⟨hset, rfl⟩ := (returns_authRulesDynamicValidation hvalue).mp hv
    obtain ⟨hcur, hc⟩ := h.current.setRules (fun fees' h' e he =>
      hunique fees' h' ▸ hset e.2 (List.mem_map_of_mem he)) hw
    exact ⟨by rw [hc]; exact h.committed, h.batches, hcur⟩
  | close =>
    obtain rfl := returns_modify.mp hs
    exact ⟨h.committed, List.rel_append h.batches (.cons h.current .nil), h.current⟩
  | reject =>
    obtain ⟨_, _, ⟨rfl, rfl⟩, hs⟩ := by simpa only [step, returns_bind, returns_get] using hs
    cases hb : n.batches with
    | nil => simp [hb] at hs
    | cons root batches =>
      simp only [hb, returns_modify] at hs
      subst hs
      have hdrop := forall₂_dropLast h.batches
      refine ⟨by rw [C.state.committed_revert]; exact h.committed, by rw [← hb]; exact hdrop, ?_⟩
      rw [C.state.head_revert]
      exact forall₂_getLast hdrop h.committed
  | commit =>
    obtain ⟨_, _, ⟨rfl, rfl⟩, hs⟩ := by simpa only [step, returns_bind, returns_get] using hs
    cases hb : n.batches with
    | nil => simp [hb] at hs
    | cons root batches =>
      simp only [hb, returns_modify] at hs
      subst hs
      have hq := h.batches
      rw [hb] at hq
      obtain ⟨keys, rest, hroot, hrest, hg⟩ := List.forall₂_cons_left_iff.mp hq
      refine ⟨?_, by rw [show (g.next .commit).batches = g.batches.tail from rfl, hg]; exact hrest,
        by rw [C.state.head_commit]; exact h.current⟩
      rw [C.state.committed_commit, show (g.next .commit).committed = g.batches.head?.getD _ from rfl, hg]
      exact hroot

/-- **Every run keeps the invariant.** -/
theorem reach_inv {start : C.state.Carrier}
    (hstart : ∃ fees, (readKey (C.state.headHash start) keyForAll >>= asMap) = .ok fees)
    (hclean : C.state.committedHeadHash start = C.state.headHash start) (h : Reach R start n g) :
    Inv R n g := by
  induction h with
  | start =>
    obtain ⟨fees, hfees⟩ := hstart
    have hnone : NoDangling R (C.state.headHash start) [] := ⟨fees, hfees, fun k hk => by cases hk⟩
    exact ⟨by rw [show (ConfigNode.ofState start).state = start from rfl, hclean]; exact hnone, .nil, hnone⟩
  | step _ _ hs ih => exact inv_step ih hs

end TokenPlugin.Fees.ConfigRuns
