import TokenPlugin.Lib.LastWrite
import TokenPlugin.Token.Pairs

/-! # Updates that fail

An update writes to the state and to the cache in turns, and whatever it has written when it raises stays
written. When the inputs can be spent and the outputs be added, and what has been written by then. -/

namespace TokenPlugin.Token.FailedUpdates

open Python Token.Types Token.UtxoCache Token.TokenUtils Token.Views Token.Pairs
open Lib.Text Lib.Program Lib.LastWrite

variable {v v' : View} {c r : Bool} {a : Str} {s : PyInt}

/-! ### What a run of writes leaves -/

/-- The writes `ws` were made to the state, the pairs of each address were changed by `f`, and only the
addresses `as` were touched. -/
structure After (ws : List (Str × Option Str)) (f : Str → List (Str × Str) → List (Str × Str)) (as : List Str)
    (v v' : View) : Prop where
  state : v'.state = applied ws v.state
  pairs : ∀ a, pairsAt v'.cache a = (pairsAt v.cache a).map (f a)
  same : ∀ a ∉ as, v'.cache a = v.cache a

theorem After.refl (v : View) : After [] (fun _ l => l) [] v v := ⟨rfl, fun _ => Option.map_id_apply.symm, fun _ _ => rfl⟩

theorem After.trans {ws ws' : List (Str × Option Str)} {f f' : Str → List (Str × Str) → List (Str × Str)}
    {as as' : List Str} {w : View} (h : After ws f as v w) (h' : After ws' f' as' w v') :
    After (ws ++ ws') (fun a l => f' a (f a l)) (as ++ as') v v' where
  state := by rw [h'.state, h.state, applied_append]
  pairs a := by rw [h'.pairs, h.pairs, Option.map_map]; rfl
  same a ha := by
    rw [List.mem_append, not_or] at ha
    rw [h'.same a ha.2, h.same a ha.1]

/-- One more write to the state. -/
theorem After.write {ws : List (Str × Option Str)} {f : Str → List (Str × Str) → List (Str × Str)}
    {as : List Str} (h : After ws f as v v') (k : Str) (x : Option Str) :
    After (ws ++ [(k, x)]) f as v ⟨Function.update v'.state k x, v'.cache⟩ where
  state := by rw [applied_append, ← h.state]; rfl
  pairs := h.pairs
  same := h.same

/-- **When a run leaves everything as it was**: the last value it wrote under each key was there, and so
were the pairs. An address that it touched lists some pairs. -/
theorem After.eq_iff {ws : List (Str × Option Str)} {f : Str → List (Str × Str) → List (Str × Str)}
    {as : List Str} (h : After ws f as v v')
    (hne : ∀ a ∈ as, ∃ l, pairsAt v.cache a = some l ∧ (f a l = l → l ≠ [])) :
    v' = v ↔ (∀ k x, lastValue k ws = some x → v.state k = x) ∧
      ∀ a l, pairsAt v.cache a = some l → f a l = l := by
  rw [← applied_eq_self]
  constructor
  · rintro rfl
    refine ⟨h.state.symm, fun a l hl => ?_⟩
    have := h.pairs a
    rw [hl, Option.map_some] at this
    exact (Option.some.inj this).symm
  · rintro ⟨hstate, hpairs⟩
    refine View.ext (h.state.trans hstate) (funext fun a => ?_)
    by_cases ha : a ∈ as
    · obtain ⟨l, hl, hl'⟩ := hne a ha
      have hsame := hpairs a l hl
      refine eq_of_pairsAt ?_ hl (hl' hsame)
      rw [h.pairs a, hl, Option.map_some, hsame]
    · exact h.same a ha

/-- One write to both stores. -/
theorem after_write {k : Str} {x : Option Str} {l : List (Str × Str)} {g : List (Str × Str) → List (Str × Str)}
    (hl : pairsAt v.cache a = some l) (hg : Clean ':' (g l)) :
    After [(k, x)] (fun b l => if a = b then g l else l) [a] v
      ⟨Function.update v.state k x, Function.update v.cache a (some (render ':' (g l)))⟩ where
  state := rfl
  pairs b := by
    by_cases hb : a = b
    · subst hb
      simp only [if_true]
      rw [pairsAt_update_self hg, hl, Option.map_some]
    · simp only [hb, if_false]
      rw [pairsAt_update_of_ne (Ne.symm hb)]
      exact Option.map_id_apply.symm
  same b hb := Function.update_of_ne (fun he => hb (List.mem_singleton.mpr he)) _ _

/-! ### All inputs -/

/-- The writes to the state that spend inputs. -/
def blankings (r : Bool) (ins : List Input) : List (Str × Option Str) :=
  ins.map fun i => (createStateKey i.address i.seqNo, blank r)

/-- The pairs of an address without those of its inputs. -/
def taken (ins : List Input) (a : Str) (l : List (Str × Str)) : List (Str × Str) :=
  (ins.filter (·.address = a)).foldl (fun l i => without i.seqNo l) l

/-- Every input is listed under its address, as often as it occurs. -/
def Covered (m : Str → Option Str) (ins : List Input) : Prop :=
  ∀ i ∈ ins, ∃ l, pairsAt m i.address = some l ∧ ins.count i ≤ (l.map Prod.fst).count i.seqNo.str

theorem map_fst_without (s : PyInt) (l : List (Str × Str)) :
    (without s l).map Prod.fst = (l.map Prod.fst).erase s.str := by
  rw [without, List.erase_eq_eraseP, List.eraseP_map]
  congr 2
  funext p
  exact Bool.eq_iff_iff.mpr (by rw [Function.comp_apply, beq_iff_eq, decide_eq_true_eq]; exact eq_comm)

theorem taken_cons (i : Input) (ins : List Input) (a : Str) (l : List (Str × Str)) :
    taken (i :: ins) a l = taken ins a (if i.address = a then without i.seqNo l else l) := by
  unfold taken
  by_cases h : i.address = a
  · rw [List.filter_cons_of_pos (by simpa using h), List.foldl_cons, if_pos h]
  · rw [List.filter_cons_of_neg (by simpa using h), if_neg h]

theorem length_taken_le (ins : List Input) (a : Str) (l : List (Str × Str)) :
    (taken ins a l).length ≤ l.length := by
  induction ins generalizing l with
  | nil => exact le_rfl
  | cons i ins ih =>
    rw [taken_cons]
    refine (ih _).trans ?_
    split_ifs
    · exact List.eraseP_sublist.length_le
    · exact le_rfl

theorem length_without {l : List (Str × Str)} (h : s.str ∈ l.map Prod.fst) :
    (without s l).length < l.length := by
  have hlen := congrArg List.length (map_fst_without s l)
  rw [List.length_map, List.length_erase_of_mem h, List.length_map] at hlen
  have hpos := List.length_pos_of_mem h
  rw [List.length_map] at hpos
  omega

/-- The first input is listed, and the others are when it is taken out. -/
theorem covered_cons {m : Str → Option Str} {i : Input} {ins : List Input} : Covered m (i :: ins) ↔
    ∃ l, Listed m i.address i.seqNo l ∧
      Covered (Function.update m i.address (some (render ':' (without i.seqNo l)))) ins := by
  have hself : ∀ {l}, pairsAt m i.address = some l →
      pairsAt (Function.update m i.address (some (render ':' (without i.seqNo l)))) i.address =
        some (without i.seqNo l) := fun hl => pairsAt_update_self (clean_without (pairs_eq_some.mp hl).1)
  -- what an input needs before and after the first one is taken out
  have hneeds : ∀ {l}, Listed m i.address i.seqNo l → ∀ j, (∃ l', pairsAt m j.address = some l' ∧
      (i :: ins).count j ≤ (l'.map Prod.fst).count j.seqNo.str) ↔
      ∃ l', pairsAt (Function.update m i.address (some (render ':' (without i.seqNo l)))) j.address = some l' ∧
        ins.count j ≤ (l'.map Prod.fst).count j.seqNo.str := by
    rintro l ⟨hl, hs⟩ j
    by_cases haddr : j.address = i.address
    · rw [haddr, hself hl, hl]
      simp only [Option.some.injEq, exists_eq_left', map_fst_without]
      by_cases hij : j = i
      · subst hij
        rw [List.count_cons_self, List.count_erase_self]
        have := List.count_pos_iff.mpr hs
        omega
      · have hseq : j.seqNo.str ≠ i.seqNo.str := fun he =>
          hij (by cases i; cases j; simp_all [PyInt.str_injective.eq_iff])
        rw [List.count_cons_of_ne (Ne.symm hij), List.count_erase_of_ne hseq]
    · have hij : i ≠ j := fun he => haddr (he ▸ rfl)
      rw [pairsAt_update_of_ne haddr, List.count_cons_of_ne hij]
  constructor
  · intro h
    obtain ⟨l, hl, hcount⟩ := h i List.mem_cons_self
    have hs : i.seqNo.str ∈ l.map Prod.fst := by
      rw [List.count_cons_self] at hcount
      exact List.count_pos_iff.mp (by omega)
    exact ⟨l, ⟨hl, hs⟩, fun j hj => (hneeds ⟨hl, hs⟩ j).mp (h j (List.mem_cons_of_mem _ hj))⟩
  · rintro ⟨l, hl, hcov⟩ j hj
    refine (hneeds hl j).mpr ?_
    by_cases hjins : j ∈ ins
    · exact hcov j hjins
    · obtain rfl : j = i := (List.mem_cons.mp hj).resolve_right hjins
      exact ⟨_, hself hl.1, by rw [List.count_eq_zero.mpr hjins]; exact Nat.zero_le _⟩

theorem exists_spendInputs_iff {ins : List Input} :
    (∃ v', Returns (spendInputs ins c r) v () v') ↔ Covered v.cache ins := by
  unfold spendInputs
  induction ins generalizing v with
  | nil => simp [Covered]
  | cons i ins ih =>
    simp only [returns_forM_cons, returns_spendInput, covered_cons]
    constructor
    · rintro ⟨v', _, ⟨l, hl, rfl⟩, hr⟩
      exact ⟨l, hl, ih.mp ⟨v', hr⟩⟩
    · rintro ⟨l, hl, hcov⟩
      obtain ⟨v', hr⟩ := (ih (v := ⟨Function.update v.state (createStateKey i.address i.seqNo) (blank r),
        _⟩)).mpr hcov
      exact ⟨v', _, ⟨l, hl, rfl⟩, hr⟩

theorem after_spendInputs {ins : List Input} (h : Returns (spendInputs ins c r) v () v') :
    After (blankings r ins) (taken ins) (ins.map Input.address) v v' := by
  unfold spendInputs at h
  induction ins generalizing v with
  | nil =>
    obtain rfl := returns_forM_nil.mp h
    exact .refl v
  | cons i ins ih =>
    obtain ⟨w, hi, h⟩ := returns_forM_cons.mp h
    obtain ⟨l, ⟨hl, hs⟩, rfl⟩ := returns_spendInput.mp hi
    have hstep := (after_write (k := createStateKey i.address i.seqNo) (x := blank r) hl
      (g := without i.seqNo) (clean_without (pairs_eq_some.mp hl).1)).trans (ih h)
    refine ⟨hstep.state, fun a => ?_, hstep.same⟩
    rw [hstep.pairs a]
    exact congrArg (Option.map · _) (funext fun l => (taken_cons i ins a l).symm)

/-! ### All outputs -/

/-- The writes to the state that add outputs. -/
def payings (n : ℕ) (outs : List OutputSpec) : List (Str × Option Str) :=
  outs.map fun o => (createStateKey o.address (.int n), some o.amount.str)

/-- The pairs that are added to an address. -/
def paid (n : ℕ) (outs : List OutputSpec) (a : Str) : List (Str × Str) :=
  (outs.filter (·.address = a)).map fun o => ((PyInt.int n).str, o.amount.str)

theorem clean_paid (n : ℕ) (outs : List OutputSpec) (a : Str) : Clean ':' (paid n outs a) := by
  intro p hp
  obtain ⟨o, -, rfl⟩ := List.mem_map.mp hp
  exact ⟨(PyInt.int n).colon_notMem_str, o.amount.colon_notMem_str⟩

theorem after_addNewOutputs {outs : List OutputSpec} {n : ℕ} (h : Returns (addNewOutputs outs n c) v () v') :
    After (payings n outs) (fun a l => l ++ paid n outs a) (outs.map OutputSpec.address) v v' := by
  unfold addNewOutputs at h
  induction outs generalizing v with
  | nil =>
    obtain rfl := returns_forM_nil.mp h
    refine ⟨rfl, fun a => ?_, fun _ _ => rfl⟩
    simp [paid]
  | cons o outs ih =>
    obtain ⟨w, ho, h⟩ := returns_forM_cons.mp h
    obtain ⟨l, hl, rfl⟩ := returns_addNewOutput.mp ho
    have hclean : Clean ':' (l ++ [((PyInt.int n).str, o.amount.str)]) :=
      (pairs_eq_some.mp hl).1.append (by
        have := clean_paid n [o] o.address
        simpa [paid] using this)
    have hstep := (after_write (k := createStateKey o.address (.int n)) (x := some o.amount.str) hl
      (g := (· ++ [((PyInt.int n).str, o.amount.str)])) hclean).trans (ih h)
    refine ⟨hstep.state, fun a => ?_, hstep.same⟩
    rw [hstep.pairs a]
    refine congrArg (Option.map · _) (funext fun l => ?_)
    by_cases ha : o.address = a <;> simp [paid, ha]

theorem exists_addNewOutputs_iff {outs : List OutputSpec} {n : ℕ} :
    (∃ v', Returns (addNewOutputs outs n c) v () v') ↔ ∀ o ∈ outs, (pairsAt v.cache o.address).isSome := by
  unfold addNewOutputs
  induction outs generalizing v with
  | nil => simp
  | cons o outs ih =>
    have hsome : ∀ {w}, Returns (addNewOutput ⟨o.address, .int n, some o.amount⟩ c) v () w →
        ∀ a, (pairsAt w.cache a).isSome = (pairsAt v.cache a).isSome := by
      intro w hw a
      have hone : Returns (addNewOutputs [o] n c) v () w :=
        returns_forM_cons.mpr ⟨w, hw, returns_forM_nil.mpr rfl⟩
      rw [(after_addNewOutputs hone).pairs, Option.isSome_map]
    simp only [returns_forM_cons, List.forall_mem_cons]
    constructor
    · rintro ⟨v', w, hw, hr⟩
      obtain ⟨l, hl, -⟩ := returns_addNewOutput.mp hw
      exact ⟨by rw [hl]; rfl, fun p hp => hsome hw p.address ▸ ih.mp ⟨v', hr⟩ p hp⟩
    · rintro ⟨ho, hall⟩
      obtain ⟨l, hl⟩ := Option.isSome_iff_exists.mp ho
      have hw := (returns_addNewOutput (c := c) (x := o.amount) (s := .int n)).mpr ⟨l, hl, rfl⟩
      obtain ⟨v', hr⟩ := ih.mpr fun p hp => (hsome hw p.address).symm ▸ hall p hp
      exact ⟨v', _, hw, hr⟩

end TokenPlugin.Token.FailedUpdates
