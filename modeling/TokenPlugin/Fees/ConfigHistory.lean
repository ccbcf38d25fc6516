import TokenPlugin.Fees.ConfigState

/-! # What a history of SET_FEES leads to

After a history of SET_FEES the map of all fees has the last value of every alias, and so has the key
of every alias, except that of the alias `fees`, which is the key of the map. -/

namespace TokenPlugin.Fees.ConfigHistory

open Python Token.Types Fees.ConfigState Platform Lib.LastWrite Lib.Program
open Lib.Program.Prog (get modify ofExcept)

variable {C : ConfigPlatform} {state state' : C.state.Carrier} {a b : Str} {H : List FeesDict}

/-! ### Keys -/

/-- The key of the map of all fees. -/
def keyForAll : Str := buildPathForSetFees none

theorem buildPath_some (h : a ≠ []) :
    buildPathForSetFees (some a) = feesStatePrefix ++ feesKeyDelimiter :: a := by
  simp [buildPathForSetFees, h]

theorem buildPath_inj (ha : a ≠ []) (hb : b ≠ []) :
    buildPathForSetFees (some a) = buildPathForSetFees (some b) ↔ a = b := by
  rw [buildPath_some ha, buildPath_some hb, List.append_cancel_left_eq]
  simp

theorem buildPath_eq_keyForAll (ha : a ≠ []) :
    buildPathForSetFees (some a) = keyForAll ↔ a = feesKeyForAll :=
  buildPath_inj ha (by decide : feesKeyForAll ≠ [])

/-! ### One key -/

theorem readKey_set_self (key : Str) (v : StateValue) :
    readKey (C.state.headHash (C.state.set state key (C.serialize v))) key =
      (C.deserialize (C.serialize v)).map some := by
  unfold readKey
  simp [C.serialize_ne_nil]

theorem readKey_set_of_ne {key j : Str} (h : j ≠ key) (v : Str) :
    readKey (C.state.headHash (C.state.set state key v)) j = readKey (C.state.headHash state) j := by
  unfold readKey
  simp [h]

theorem readKey_of_lookup {r r' : C.state.Root} {key : Str}
    (h : C.state.lookup r key = C.state.lookup r' key) : readKey r key = readKey r' key := by
  unfold readKey
  rw [h]

/-! ### One SET_FEES -/

/-- The keys of the aliases of a list of entries have been written. -/
theorem exists_setAliases (l : List (Sigma fun _ : Str => PyInt)) (state : C.state.Carrier) :
    ∃ state', Returns (l.forM fun e => setToState (buildPathForSetFees (some e.1)) (.amount e.2))
        state () state' ∧
      C.state.committedHeadHash state' = C.state.committedHeadHash state ∧
      (∀ j, (∀ e ∈ l, j ≠ buildPathForSetFees (some e.1)) →
        C.state.lookup (C.state.headHash state') j = C.state.lookup (C.state.headHash state) j) ∧
      (l.NodupKeys → ∀ a, a ≠ [] → a ≠ feesKeyForAll → ∀ x, l.dlookup a = some x →
        readKey (C.state.headHash state') (buildPathForSetFees (some a)) = .ok (some (.amount x))) := by
  induction l generalizing state with
  | nil =>
    exact ⟨state, returns_forM_nil.mpr rfl, rfl, fun j _ => rfl, fun _ a _ _ x hx => by cases hx⟩
  | cons e l ih =>
    obtain ⟨state', hr, hc, hother, hself⟩ :=
      ih (C.state.set state (buildPathForSetFees (some e.1)) (C.serialize (.amount e.2)))
    refine ⟨state', returns_forM_cons.mpr ⟨_, returns_modify.mpr rfl, hr⟩, by rw [hc]; simp,
      fun j hj => ?_, fun hn a ha hf x hx => ?_⟩
    · rw [hother j fun f hf => hj f (List.mem_cons_of_mem _ hf), C.state.lookup_set,
        Function.update_of_ne (hj e List.mem_cons_self)]
    · obtain ⟨hnotin, hn'⟩ := List.nodupKeys_cons.mp hn
      by_cases hae : a = e.1
      · -- no later entry has the alias
        subst hae
        obtain rfl : e.2 = x := by
          obtain ⟨k, y⟩ := e
          simpa using hx
        have hlater : ∀ f ∈ l, buildPathForSetFees (some e.1) ≠ buildPathForSetFees (some f.1) := by
          intro f hfl he
          have hmem : f.1 ∈ l.keys := List.mem_keys_of_mem hfl
          by_cases hf0 : f.1 = []
          · rw [hf0] at he
            exact hf ((buildPath_eq_keyForAll ha).mp he)
          · exact hnotin (by rw [(buildPath_inj ha hf0).mp he]; exact hmem)
        rw [readKey_of_lookup (hother _ hlater), readKey_set_self, C.deserialize_amount]
        rfl
      · rw [List.dlookup_cons_ne _ _ hae] at hx
        exact hself hn' a ha hf x hx

/-- What the state says of the fees after a history. -/
structure HoldsFees (r : C.state.Root) (H : List FeesDict) : Prop where
  nil : H = [] → readKey r keyForAll = .ok none
  all : H ≠ [] → ∃ fees, readKey r keyForAll = .ok (some (.all fees)) ∧ ∀ a, fees.lookup a = lastOf a H
  one : ∀ a, a ≠ [] → a ≠ feesKeyForAll →
    readKey r (buildPathForSetFees (some a)) = .ok ((lastOf a H).map .amount)

/-- The map that the next update starts from. -/
theorem HoldsFees.exists_map {r : C.state.Root} (h : HoldsFees r H) :
    ∃ fees, (readKey r keyForAll >>= asMap) = .ok fees ∧ ∀ a, fees.lookup a = lastOf a H := by
  by_cases hH : H = []
  · subst hH
    refine ⟨∅, ?_, fun a => by simp [lastOf]⟩
    rw [h.nil rfl]
    rfl
  · obtain ⟨fees, hr, hl⟩ := h.all hH
    exact ⟨fees, by rw [hr]; rfl, hl⟩

/-- One SET_FEES on a state whose map can be read: the map has the new entries over the old ones, an
alias has its new amount under its own key, and nothing else changes. -/
theorem exists_updateState_of_map {fees : FeesDict}
    (hfees : (readKey (C.state.headHash state) keyForAll >>= asMap) = .ok fees) (e : FeesDict) :
    ∃ state', Returns (updateState e) state () state' ∧
      C.state.committedHeadHash state' = C.state.committedHeadHash state ∧
      (∃ fees', readKey (C.state.headHash state') keyForAll = .ok (some (.all fees')) ∧
        ∀ a, fees'.lookup a = (e.lookup a).or (fees.lookup a)) ∧
      (∀ a, a ≠ [] → a ≠ feesKeyForAll →
        readKey (C.state.headHash state') (buildPathForSetFees (some a)) =
          match e.lookup a with
          | some x => .ok (some (.amount x))
          | none => readKey (C.state.headHash state) (buildPathForSetFees (some a))) ∧
      ∀ j, (∀ key, j ≠ buildPathForSetFees key) →
        C.state.lookup (C.state.headHash state') j = C.state.lookup (C.state.headHash state) j := by
  obtain ⟨u, hu, hc, hother, hself⟩ := exists_setAliases e.entries state
  obtain ⟨fees', hall, hperm⟩ := C.deserialize_all (e ∪ fees)
  refine ⟨C.state.set u keyForAll (C.serialize (.all (e ∪ fees))), ?_, by rw [C.state.committed_set, hc],
    ⟨fees', ?_, fun a => ?_⟩, fun a ha hf => ?_, fun j hj => ?_⟩
  · unfold updateState currentFees
    simp only [returns_bind, returns_get, returns_ofExcept]
    exact ⟨fees, state, ⟨state, state, ⟨rfl, rfl⟩, hfees, rfl⟩, (), u, hu, returns_modify.mpr rfl⟩
  · rw [readKey_set_self, hall]
    rfl
  · rw [AList.perm_lookup hperm, lookup_union]
  · rw [readKey_set_of_ne fun he => hf ((buildPath_eq_keyForAll ha).mp he)]
    rcases hx : e.lookup a with _ | x
    · refine readKey_of_lookup (hother _ fun f hfe he => ?_)
      by_cases hf0 : f.1 = []
      · rw [hf0] at he
        exact hf ((buildPath_eq_keyForAll ha).mp he)
      · rw [AList.lookup_eq_none] at hx
        exact hx (AList.mem_keys.mpr (by rw [(buildPath_inj ha hf0).mp he]; exact List.mem_keys_of_mem hfe))
    · exact hself e.nodupKeys a ha hf x hx
  · rw [C.state.lookup_set, Function.update_of_ne (show j ≠ keyForAll from hj none)]
    exact hother j fun f _ => hj (some f.1)

/-- **One SET_FEES.** -/
theorem exists_updateState (h : HoldsFees (C.state.headHash state) H) (e : FeesDict) :
    ∃ state', Returns (updateState e) state () state' ∧
      HoldsFees (C.state.headHash state') (H ++ [e]) ∧
      C.state.committedHeadHash state' = C.state.committedHeadHash state ∧
      ∀ j, (∀ key, j ≠ buildPathForSetFees key) →
        C.state.lookup (C.state.headHash state') j = C.state.lookup (C.state.headHash state) j := by
  obtain ⟨fees, hfees, hlast⟩ := h.exists_map
  obtain ⟨state', hr, hc, ⟨fees', hall, hlook⟩, hone, hother⟩ := exists_updateState_of_map hfees e
  refine ⟨state', hr, ⟨fun hn => by simp at hn, fun _ => ⟨fees', hall, fun a => ?_⟩, fun a ha hf => ?_⟩,
    hc, hother⟩
  · rw [hlook, hlast, lastOf_concat]
  · rw [hone a ha hf, lastOf_concat]
    rcases e.lookup a with _ | x
    · rw [Option.none_or]
      exact h.one a ha hf
    · rfl

theorem holdsFees_new : HoldsFees (C.state.headHash C.state.new) [] := by
  have hnone : ∀ key, readKey (C.state.headHash C.state.new) key = .ok none := fun key => by
    unfold readKey
    rw [C.state.lookup_new]
  exact ⟨fun _ => hnone _, fun h => absurd rfl h, fun a _ _ => hnone _⟩

/-- **A history of SET_FEES.** -/
theorem exists_updateStates (M : List FeesDict) (h : HoldsFees (C.state.headHash state) H) :
    ∃ state', Returns (M.forM updateState) state () state' ∧
      HoldsFees (C.state.headHash state') (H ++ M) := by
  induction M generalizing state H with
  | nil => exact ⟨state, returns_forM_nil.mpr rfl, by simpa using h⟩
  | cons e M ih =>
    obtain ⟨u, hu, hh, -⟩ := exists_updateState h e
    obtain ⟨state', hr, hh'⟩ := ih hh
    exact ⟨state', returns_forM_cons.mpr ⟨u, hu, hr⟩, by simpa using hh'⟩

/-! ### The fees that are charged -/

theorem lookup_toFeesMap (fees : FeesDict) (a : Str) :
    List.lookup a (toFeesMap fees) = (fees.lookup a).map (·.val.toNat) := by
  unfold toFeesMap AList.lookup
  generalize fees.entries = l
  induction l with
  | nil => rfl
  | cons e l ih =>
    by_cases h : a = e.1
    · obtain ⟨k, x⟩ := e
      obtain rfl : a = k := h
      simp
    · rw [List.map_cons, List.lookup_cons, show (a == e.1) = false by simpa using h, ih,
        List.dlookup_cons_ne _ _ h]

/-- The map that the authorizer reads. -/
theorem HoldsFees.getFeesFromState (h : HoldsFees (C.state.headHash state) H) :
    ∃ fees, getFeesFromState state = .ok fees ∧
      ∀ a, List.lookup a fees = (lastOf a H).map (·.val.toNat) := by
  obtain ⟨fees, hfees, hlast⟩ := h.exists_map
  refine ⟨toFeesMap fees, ?_, fun a => by rw [lookup_toFeesMap, hlast]⟩
  unfold ConfigState.getFeesFromState
  rw [show (readKey (C.state.headHash state) (buildPathForSetFees none) >>= asMap) = _ from hfees]
  rfl

end TokenPlugin.Fees.ConfigHistory
