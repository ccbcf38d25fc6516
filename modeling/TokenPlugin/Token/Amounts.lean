import Mathlib
import TokenPlugin.Token.UtxoCache

/-! # The text of an address

`UTXOAmounts` on a text that lists pairs: the text is read back as the pairs, an amount is added at
the end, the first pair of a number is removed, and the sum over a set of numbers takes the first
amount of each. -/

namespace TokenPlugin.Token.Amounts

open Python Token.UtxoCache Lib.Text

variable {a : Str} {l : List (Str × Str)}

theorem init_render (h : Clean ':' l) :
    UTXOAmounts.init a (some (render ':' l)) = .ok ⟨a, flat l⟩ := by
  have hf := fields_render h
  unfold UTXOAmounts.init
  simp only [Option.getD_some]
  split
  · next hr => rw [render_eq_nil.mp hr]; rfl
  · next hr =>
    have hne : render ':' l ≠ [] := fun he => hr he
    rw [fields, if_neg (by simpa using hne)] at hf
    have hs : List.splitOn UTXOAmounts.delimiter (render ':' l) = flat l := hf
    simp only [hs, length_flat, Nat.mul_mod_right, if_true]

theorem addAmount_flat (s v : PyInt) :
    UTXOAmounts.addAmount ⟨a, flat l⟩ s (some v) = .ok ⟨a, flat (l ++ [(s.str, v.str)])⟩ := by
  simp [UTXOAmounts.addAmount, flat_append]

theorem asStr_flat : UTXOAmounts.asStr ⟨a, flat l⟩ = .ok (render ':' l) := by
  unfold UTXOAmounts.asStr
  rw [if_pos (by simp)]
  rfl

/-! ### Removal -/

theorem indexFrom_flat (s : Str) (i : ℕ) :
    UTXOAmounts.indexFrom s i (flat l) = (l.findIdx? (·.1 = s)).map (i + 2 * ·) := by
  induction l generalizing i with
  | nil => rfl
  | cons p l ih =>
    by_cases h : p.1 = s
    · simp [UTXOAmounts.indexFrom, List.findIdx?_cons, h]
    · simp only [flat_cons, UTXOAmounts.indexFrom, List.findIdx?_cons, h, if_false, ih,
        decide_false, Bool.false_eq_true, Option.map_map]
      congr 1
      funext j
      simp only [Function.comp]
      omega

theorem eraseIdx_flat (j : ℕ) :
    ((flat l).eraseIdx (2 * j)).eraseIdx (2 * j) = flat (l.eraseIdx j) := by
  induction l generalizing j with
  | nil => simp
  | cons p l ih =>
    cases j with
    | zero => simp
    | succ j =>
      have : 2 * (j + 1) = 2 * j + 1 + 1 := by omega
      simp only [flat_cons, this, List.eraseIdx_cons_succ, ih]

/-- The first pair of a number is removed. -/
theorem removeSeqNo_flat {s : PyInt} (h : s.str ∈ l.map Prod.fst) :
    UTXOAmounts.removeSeqNo ⟨a, flat l⟩ s = .ok ⟨a, flat (l.eraseP (·.1 = s.str))⟩ := by
  obtain ⟨p, hp, hs⟩ := List.mem_map.mp h
  have hsome : (l.findIdx? (·.1 = s.str)).isSome := by
    rw [List.findIdx?_isSome]
    exact List.any_eq_true.mpr ⟨p, hp, by simpa using hs⟩
  obtain ⟨j, hj⟩ := Option.isSome_iff_exists.mp hsome
  have hlt : j < l.length := (List.findIdx?_eq_some_iff_getElem.mp hj).1
  unfold UTXOAmounts.removeSeqNo
  simp only [indexFrom_flat, hj, Option.map_some, Nat.zero_add, length_flat]
  rw [if_pos (by omega), eraseIdx_flat, List.eraseP_eq_eraseIdx, hj]

/-- A number that is not there. -/
theorem removeSeqNo_flat_of_notMem {s : PyInt} (h : s.str ∉ l.map Prod.fst) :
    ∃ msg, UTXOAmounts.removeSeqNo ⟨a, flat l⟩ s = .error ⟨.utxoNotFound, msg⟩ := by
  have hnone : l.findIdx? (·.1 = s.str) = none := by
    rw [List.findIdx?_eq_none_iff]
    intro p hp
    have : p.1 ≠ s.str := fun he => h (List.mem_map.mpr ⟨p, hp, he⟩)
    simpa using this
  unfold UTXOAmounts.removeSeqNo
  simp only [indexFrom_flat, hnone, Option.map_none]
  exact ⟨_, rfl⟩

/-! ### Sums -/

/-- The text of a number and an amount. -/
def textPair (p : ℤ × PyInt) : Str × Str := (intText p.1, p.2.str)

theorem clean_textPair (l : List (ℤ × PyInt)) : Clean ':' (l.map textPair) := by
  intro p hp
  obtain ⟨q, -, rfl⟩ := List.mem_map.mp hp
  exact ⟨notMem_intText (by decide) (by decide), q.2.colon_notMem_str⟩

/-- A list of integer amounts is read back. -/
theorem asOutputList_textPair {l : List (ℤ × PyInt)} (h : ∀ p ∈ l, p.2.isBool = false) :
    UTXOAmounts.asOutputList ⟨a, flat (l.map textPair)⟩ =
      .ok (l.map fun p => ⟨a, .int p.1, some (.int p.2.val)⟩) := by
  unfold UTXOAmounts.asOutputList
  rw [if_pos (by simp)]
  show UTXOAmounts.outputList a (flat (l.map textPair)) = _
  induction l with
  | nil => rfl
  | cons p l ih =>
    have hp : pyInt p.2.str = .ok p.2.val := by
      rw [pyInt_eq_ok, PyInt.readInt_str_eq_some]
      exact PyInt.isBool_eq_false.mp (h p List.mem_cons_self)
    have hn : pyInt (intText p.1) = .ok p.1 := pyInt_eq_ok.mpr (readInt_intText p.1)
    simp only [List.map_cons, flat_cons, textPair, UTXOAmounts.outputList, hn, hp,
      ih fun q hq => h q (List.mem_cons_of_mem _ hq)]
    rfl

/-- The first amount of a number, 0 if there is none. -/
def valueAt (l : List (ℤ × PyInt)) (z : ℤ) : ℤ := ((l.find? (·.1 = z)).map (·.2.val)).getD 0

theorem valueAt_cons_self (z : ℤ) (v : PyInt) (l : List (ℤ × PyInt)) :
    valueAt ((z, v) :: l) z = v.val := by
  simp [valueAt]

theorem valueAt_cons_of_ne {z n : ℤ} (h : n ≠ z) (v : PyInt) (l : List (ℤ × PyInt)) :
    valueAt ((n, v) :: l) z = valueAt l z := by
  simp [valueAt, h]

theorem pyInt_intText (z : ℤ) : pyInt (intText z) = .ok z := pyInt_eq_ok.mpr (readInt_intText z)

theorem pyInt_eq_of_readInt {s : Str} {z : ℤ} (h : readInt s = some z) : pyInt s = .ok z :=
  pyInt_eq_ok.mpr h

theorem exists_pyInt_error {s : Str} (h : readInt s = none) : ∃ e, pyInt s = .error e := by
  unfold pyInt
  rw [h]
  exact ⟨_, rfl⟩

/-- The amount under the first entry of a number, where the numbers up to it and the amount itself
can be read. -/
def amountAt : List (Str × Str) → ℤ → Option ℤ
  | [], _ => none
  | p :: l, z => (readInt p.1).bind fun n => if n = z then readInt p.2 else amountAt l z

theorem amountAt_cons_of_eq {p : Str × Str} {z : ℤ} (h : readInt p.1 = some z)
    (l : List (Str × Str)) : amountAt (p :: l) z = readInt p.2 := by
  simp [amountAt, h]

theorem amountAt_cons_of_ne {p : Str × Str} {n z : ℤ} (h : readInt p.1 = some n) (hne : n ≠ z)
    (l : List (Str × Str)) : amountAt (p :: l) z = amountAt l z := by
  simp [amountAt, h, hne]

theorem amountAt_textPair {l : List (ℤ × PyInt)} {z : ℤ} :
    amountAt (l.map textPair) z = (l.find? (·.1 = z)).bind fun p => readInt p.2.str := by
  induction l with
  | nil => rfl
  | cons p l ih =>
    have hp : readInt (textPair p).1 = some p.1 := readInt_intText p.1
    rw [List.map_cons]
    by_cases h : p.1 = z
    · rw [amountAt_cons_of_eq (h ▸ hp), List.find?_cons_of_pos (by simpa using h)]
      rfl
    · rw [amountAt_cons_of_ne hp h, ih, List.find?_cons_of_neg (by simpa using h)]

/-- One turn of the loop. -/
theorem sumLoop_cons {p : Str × Str} {n : ℤ} (hp : readInt p.1 = some n) (l : List (Str × Str))
    (seqNos : List PyInt) (t : ℤ) :
    UTXOAmounts.sumLoop (flat (p :: l)) seqNos t =
      if n ∈ seqNos.map PyInt.val then do
        let m ← pyInt p.2
        if seqNos.eraseP (·.val = n) = [] then .ok (t + m, [])
        else UTXOAmounts.sumLoop (flat l) (seqNos.eraseP (·.val = n)) (t + m)
      else UTXOAmounts.sumLoop (flat l) seqNos t := by
  simp only [flat_cons, UTXOAmounts.sumLoop, pyInt_eq_of_readInt hp]
  rfl

theorem sumLoop_cons_error {p : Str × Str} (hp : readInt p.1 = none) (l : List (Str × Str))
    (seqNos : List PyInt) (t : ℤ) : ∃ e, UTXOAmounts.sumLoop (flat (p :: l)) seqNos t = .error e := by
  obtain ⟨e, he⟩ := exists_pyInt_error hp
  exact ⟨e, by simp only [flat_cons, UTXOAmounts.sumLoop, he]; rfl⟩

/-- **The loop.** Every number is found exactly when each has an amount, and then the sum is that of
their amounts. -/
theorem sumLoop_eq_ok {l : List (Str × Str)} {seqNos : List PyInt} {t t' : ℤ}
    (hn : (seqNos.map PyInt.val).Nodup) (hne : seqNos ≠ []) :
    UTXOAmounts.sumLoop (flat l) seqNos t = .ok (t', []) ↔
      (∀ s ∈ seqNos, (amountAt l s.val).isSome) ∧
        t' = t + (seqNos.map fun s => (amountAt l s.val).getD 0).sum := by
  induction l generalizing seqNos t with
  | nil =>
    have hlhs : UTXOAmounts.sumLoop (flat []) seqNos t ≠ .ok (t', []) := fun h => by
      simp [UTXOAmounts.sumLoop, hne] at h
    obtain ⟨s, hs⟩ := List.exists_mem_of_ne_nil _ hne
    exact iff_of_false hlhs fun h => by simpa [amountAt] using h.1 s hs
  | cons p l ih =>
    rcases hp : readInt p.1 with _ | n
    · obtain ⟨e, he⟩ := sumLoop_cons_error hp l seqNos t
      obtain ⟨s, hs⟩ := List.exists_mem_of_ne_nil _ hne
      rw [he]
      exact iff_of_false nofun fun h => by simpa [amountAt, hp] using h.1 s hs
    rw [sumLoop_cons hp]
    by_cases hmem : n ∈ seqNos.map PyInt.val
    · -- the numbers still to be found are those before and after the one found
      obtain ⟨s₀, hs₀, hv⟩ := List.mem_map.mp hmem
      obtain ⟨s, l₁, l₂, -, hs, rfl, herase⟩ :=
        List.exists_of_eraseP hs₀ (p := (·.val = n)) (by simpa using hv)
      obtain rfl : s.val = n := by simpa using hs
      have hperm : (l₁ ++ s :: l₂).Perm (s :: (l₁ ++ l₂)) := List.perm_middle
      obtain ⟨hns, hn'⟩ := List.nodup_cons.mp ((hperm.map PyInt.val).nodup_iff.mp hn)
      have hrest : ∀ x ∈ l₁ ++ l₂, amountAt (p :: l) x.val = amountAt l x.val := fun x hx =>
        amountAt_cons_of_ne hp (fun he => hns (List.mem_map.mpr ⟨x, hx, he.symm⟩)) l
      have hself : amountAt (p :: l) s.val = readInt p.2 := amountAt_cons_of_eq hp l
      have hsum := (hperm.map fun s => (amountAt (p :: l) s.val).getD 0).sum_eq
      rw [List.map_cons, List.sum_cons, hself,
        List.map_congr_left fun x hx => congrArg (Option.getD · 0) (hrest x hx)] at hsum
      have hall : (∀ x ∈ l₁ ++ s :: l₂, (amountAt (p :: l) x.val).isSome) ↔
          (readInt p.2).isSome ∧ ∀ x ∈ l₁ ++ l₂, (amountAt l x.val).isSome := by
        simp only [hperm.mem_iff, List.forall_mem_cons, hself]
        exact and_congr_right fun _ => forall₂_congr fun x hx => by rw [hrest x hx]
      rw [if_pos hmem, herase, hsum, hall]
      rcases hm : readInt p.2 with _ | m
      · obtain ⟨e, he⟩ := exists_pyInt_error hm
        rw [he]
        exact iff_of_false nofun fun h => by simpa using h.1.1
      · rw [pyInt_eq_of_readInt hm]
        show (if l₁ ++ l₂ = [] then .ok (t + m, [])
          else UTXOAmounts.sumLoop (flat l) (l₁ ++ l₂) (t + m) : Except PyErr _) = .ok (t', []) ↔ _
        split_ifs with hnil
        · simpa [hnil] using eq_comm
        · rw [ih hn' hnil]
          simp [add_assoc]
    · rw [if_neg hmem, ih hn hne]
      have hrest : ∀ x ∈ seqNos, amountAt (p :: l) x.val = amountAt l x.val := fun x hx =>
        amountAt_cons_of_ne hp (fun he => hmem (List.mem_map.mpr ⟨x, hx, he.symm⟩)) l
      rw [List.map_congr_left fun x hx => congrArg (Option.getD · 0) (hrest x hx)]
      exact and_congr_left fun _ => forall₂_congr fun x hx => by rw [hrest x hx]

theorem sumAmounts_flat {l : List (Str × Str)} {seqNos : List PyInt} {t : ℤ}
    (hn : (seqNos.map PyInt.val).Nodup) (hne : seqNos ≠ []) :
    UTXOAmounts.sumAmounts ⟨a, flat l⟩ seqNos = .ok t ↔
      (∀ s ∈ seqNos, (amountAt l s.val).isSome) ∧
        t = (seqNos.map fun s => (amountAt l s.val).getD 0).sum := by
  have hloop : ∀ t', UTXOAmounts.sumLoop (flat l) seqNos 0 = .ok (t', []) ↔
      (∀ s ∈ seqNos, (amountAt l s.val).isSome) ∧
        t' = 0 + (seqNos.map fun s => (amountAt l s.val).getD 0).sum := fun _ => sumLoop_eq_ok hn hne
  simp only [zero_add] at hloop
  rw [← hloop t]
  unfold UTXOAmounts.sumAmounts
  rcases UTXOAmounts.sumLoop (flat l) seqNos 0 with e | ⟨t', missing⟩
  · simp [bind, Except.bind]
  · by_cases hm : missing = [] <;> simp [bind, Except.bind, hm]

/-! ### The amount of a number in a text -/

/-- The amount that the text of an address has under a number; a text that is no list of pairs has
none. -/
def amountIn (text : Option Str) (z : ℤ) : Option ℤ :=
  match UTXOAmounts.init [] text with
  | .ok u => amountAt (unflat u.data) z
  | .error _ => none

/-- The text is taken apart the same way for every address. -/
theorem init_eq (a : Str) (text : Option Str) : (∃ l, UTXOAmounts.init a text = .ok ⟨a, flat l⟩ ∧
    ∀ z, amountIn text z = amountAt l z) ∨
    (∃ e, UTXOAmounts.init a text = .error e) ∧ ∀ z, amountIn text z = none := by
  unfold amountIn UTXOAmounts.init
  rcases text.getD [] with _ | ⟨c, d⟩
  · exact Or.inl ⟨[], rfl, fun z => rfl⟩
  · by_cases hlen : (List.splitOn UTXOAmounts.delimiter (c :: d)).length % 2 = 0
    · simp only [hlen, if_true]
      exact Or.inl ⟨unflat (List.splitOn UTXOAmounts.delimiter (c :: d)), by rw [flat_unflat hlen],
        fun _ => rfl⟩
    · simp only [hlen, if_false]
      exact Or.inr ⟨⟨_, rfl⟩, fun _ => trivial⟩

theorem amountIn_render {l : List (Str × Str)} (h : Clean ':' l) (z : ℤ) :
    amountIn (some (render ':' l)) z = amountAt l z := by
  rw [amountIn, init_render h]
  simp

/-- The amount under a number is the first one listed. -/
theorem amountAt_textPair_eq_some {l : List (ℤ × PyInt)} {z v : ℤ}
    (h : amountAt (l.map textPair) z = some v) : valueAt l z = v ∧ z ∈ l.map Prod.fst := by
  rw [amountAt_textPair] at h
  obtain ⟨p, hp, hv⟩ := Option.bind_eq_some_iff.mp h
  have hz : p.1 = z := by simpa using List.find?_some hp
  refine ⟨?_, List.mem_map.mpr ⟨p, List.mem_of_find?_eq_some hp, hz⟩⟩
  rw [valueAt, hp]
  simp [PyInt.readInt_str_eq_some.mp hv]

end TokenPlugin.Token.Amounts
