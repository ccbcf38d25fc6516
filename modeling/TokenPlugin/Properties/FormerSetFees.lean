import TokenPlugin.Reference

/-! # The SET_FEES handler of version 0.9.3

It reads the fees under the key that the current handler writes, and writes them under another. Replayed
on a state without fees it starts from no fees every time, so that only the last SET_FEES counts. -/

namespace TokenPlugin.Properties.FormerSetFees

open Python Token.Types Fees.ConfigState Fees.ConfigHistory Lib.LastWrite Lib.Program Reference

variable {C : ConfigPlatform} {state state' : C.state.Carrier} {H : List FeesDict}

/-- No fees key of either handler has a value. -/
def NoFees (state : C.state.Carrier) : Prop :=
  C.state.lookup (C.state.headHash state) feesStateKey = none ∧
    ∀ key, C.state.lookup (C.state.headHash state) (buildPathForSetFees key) = none

/-- The map under the key of the handler has the last value of every alias that occurred. -/
def Accumulates (state : C.state.Carrier) (H : List FeesDict) : Prop :=
  ∀ a v, lastOf a H = some v → ∃ fees,
    readKey (C.state.headHash state) feesStateKey = .ok (some (.all fees)) ∧ fees.lookup a = some v

theorem buildPath_ne_feesStateKey (key : Option Str) : buildPathForSetFees key ≠ feesStateKey := by
  intro h
  have := congrArg List.head? h
  simp [buildPathForSetFees, feesStatePrefix, feesStateKey] at this

/-- The fees are still read as none. -/
def Unread (state : C.state.Carrier) : Prop := readKey (C.state.headHash state) keyForAll = .ok none

/-- **One SET_FEES** starts from no fees. -/
theorem exists_updateState093 (h : Unread state) (e : FeesDict) :
    ∃ state', Returns (updateState093 e) state () state' ∧ Unread state' ∧
      ∃ fees, readKey (C.state.headHash state') feesStateKey = .ok (some (.all fees)) ∧
        ∀ a, fees.lookup a = e.lookup a := by
  obtain ⟨fees', hall, hperm⟩ := C.deserialize_all (e ∪ ∅)
  refine ⟨C.state.set state feesStateKey (C.serialize (.all (e ∪ ∅))), ?_, ?_, fees', ?_, fun a => ?_⟩
  · have hmap : (readKey (C.state.headHash state) keyForAll >>= asMap) = .ok ∅ := by
      rw [show readKey (C.state.headHash state) keyForAll = _ from h]
      rfl
    unfold updateState093 currentFees
    simp only [returns_bind, returns_get, returns_ofExcept]
    exact ⟨∅, state, ⟨state, state, ⟨rfl, rfl⟩, hmap, rfl⟩, returns_modify.mpr rfl⟩
  · exact (readKey_set_of_ne (buildPath_ne_feesStateKey none) _).trans h
  · rw [readKey_set_self, hall]
    rfl
  · rw [AList.perm_lookup hperm, AList.union_empty]

/-- A history leaves the map of its last SET_FEES. -/
theorem exists_updateStates093 (h : Unread state) (H : List FeesDict) :
    ∃ state', Returns (H.forM updateState093) state () state' ∧
      ∀ e, H.getLast? = some e → ∃ fees,
        readKey (C.state.headHash state') feesStateKey = .ok (some (.all fees)) ∧
          ∀ a, fees.lookup a = e.lookup a := by
  induction H generalizing state with
  | nil => exact ⟨state, returns_forM_nil.mpr rfl, by rintro e ⟨⟩⟩
  | cons d H ih =>
    obtain ⟨u, hu, hunread, hlast⟩ := exists_updateState093 h d
    obtain ⟨state', hr, hH⟩ := ih hunread
    refine ⟨state', returns_forM_cons.mpr ⟨u, hu, hr⟩, fun e he => ?_⟩
    cases H with
    | nil =>
      obtain rfl : d = e := by simpa using he
      obtain rfl := returns_forM_nil.mp hr
      exact hlast
    | cons f H => exact hH e (by rwa [List.getLast?_cons_cons] at he)

/-- **When the fees accumulate.** Replaying SET_FEES transactions on a state without fees never raises,
and the map has the last value of every alias exactly when the last transaction names every alias that
occurred. -/
theorem accumulates_iff (hstate : NoFees state) (H : List FeesDict) :
    ∃ state', Returns (H.forM updateState093) state () state' ∧
      (Accumulates state' H ↔ ∀ a, (∃ e ∈ H, a ∈ e) → ∃ e, H.getLast? = some e ∧ a ∈ e) := by
  have hunread : Unread state := by
    unfold Unread readKey
    rw [show C.state.lookup (C.state.headHash state) keyForAll = none from hstate.2 none]
  obtain ⟨state', hr, hlast⟩ := exists_updateStates093 hunread H
  refine ⟨state', hr, fun h a ha => ?_, fun h a v hv => ?_⟩
  · obtain ⟨v, hv⟩ := Option.isSome_iff_exists.mp (lastOf_isSome.mpr ha)
    obtain ⟨fees, hfees, hlook⟩ := h a v hv
    obtain ⟨d, hd, -⟩ := ha
    refine ⟨H.getLast (List.ne_nil_of_mem hd), List.getLast?_eq_some_getLast _, ?_⟩
    obtain ⟨fees', hfees', hlook'⟩ := hlast _ (List.getLast?_eq_some_getLast (List.ne_nil_of_mem hd))
    obtain rfl : fees = fees' := by
      have := hfees.symm.trans hfees'
      simpa using this
    rw [← AList.lookup_isSome, ← hlook', hlook]
    rfl
  · obtain ⟨e, he, hmem⟩ := h a (lastOf_isSome.mp (by rw [hv]; rfl))
    obtain ⟨fees, hfees, hlook⟩ := hlast e he
    refine ⟨fees, hfees, ?_⟩
    obtain ⟨w, hw⟩ := Option.isSome_iff_exists.mp (AList.lookup_isSome.mpr hmem)
    obtain ⟨M, rfl⟩ : ∃ M, H = M ++ [e] := List.getLast?_eq_some_iff.mp he
    rw [lastOf_concat, hw, Option.some_or] at hv
    rw [hlook, hw, hv]

/-! ### Two transactions -/

theorem noFees_new : NoFees C.state.new :=
  ⟨C.state.lookup_new _, fun _ => C.state.lookup_new _⟩

/-- A fee for NYM, then one for ATTRIB. -/
def twoFees : List FeesDict := [[⟨nym, .int 1⟩].toAList, [⟨attrib, .int 2⟩].toAList]

theorem accumulates_iff_twoFees :
    ∃ state', Returns (twoFees.forM updateState093) refConfig.state.new () state' ∧
      (Accumulates state' twoFees ↔
        ∀ a, (∃ e ∈ twoFees, a ∈ e) → ∃ e, twoFees.getLast? = some e ∧ a ∈ e) :=
  accumulates_iff noFees_new twoFees

/-- The second transaction drops the fee for NYM. -/
theorem not_accumulates_twoFees : NoFees refConfig.state.new ∧
    ∃ state', Returns (twoFees.forM updateState093) refConfig.state.new () state' ∧
      ¬Accumulates state' twoFees := by
  let state' : refConfig.state.Carrier := (twoFees.forM updateState093 refConfig.state.new).2
  have hret : (twoFees.forM updateState093 refConfig.state.new).1 = .ok () := by decide +kernel
  refine ⟨noFees_new, state', Prod.ext hret rfl, fun h => ?_⟩
  obtain ⟨fees, hfees, hlook⟩ := h nym (.int 1) (by decide +kernel)
  have hread : readKey (refConfig.state.headHash state') feesStateKey =
      .ok (some (.all [⟨attrib, .int 2⟩].toAList)) := by rfl
  obtain rfl : fees = [⟨attrib, .int 2⟩].toAList := by
    have := hfees.symm.trans hread
    simpa using this
  have hnone : AList.lookup nym ([⟨attrib, .int 2⟩].toAList : FeesDict) = none := by decide +kernel
  rw [hnone] at hlook
  cases hlook

end TokenPlugin.Properties.FormerSetFees
