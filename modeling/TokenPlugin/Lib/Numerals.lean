import Mathlib.Data.Nat.Digits.Lemmas

/-! # Numerals with leading zeros

Lists of digits, most significant first. A list is determined by the number of zeros it starts with and
its value, and every such pair is that of a list. So a list of digits in one base can be written in another
base with the same zeros and the same value, and read back. -/

namespace TokenPlugin.Lib.Numerals

variable {b c z v : ℕ} {ds : List ℕ}

/-- How many zeros a list starts with. -/
def zeros : List ℕ → ℕ
  | 0 :: ds => zeros ds + 1
  | _ => 0

/-- The value of a list of digits. -/
def value (b : ℕ) (ds : List ℕ) : ℕ := Nat.ofDigits b ds.reverse

/-- The list with the zeros and the value given. -/
def numeral (b z v : ℕ) : List ℕ := List.replicate z 0 ++ (Nat.digits b v).reverse

@[simp] theorem zeros_cons_zero (ds : List ℕ) : zeros (0 :: ds) = zeros ds + 1 := rfl

@[simp] theorem zeros_cons_succ (d : ℕ) (ds : List ℕ) : zeros ((d + 1) :: ds) = 0 := rfl

theorem zeros_of_head {ds : List ℕ} (h : ∀ d ∈ ds.head?, d ≠ 0) : zeros ds = 0 := by
  rcases ds with _ | ⟨_ | d, ds⟩
  · rfl
  · exact absurd rfl (h 0 rfl)
  · rfl

theorem value_cons_zero (b : ℕ) (ds : List ℕ) : value b (0 :: ds) = value b ds := by
  rw [value, List.reverse_cons, Nat.ofDigits_append_zero, value]

/-- A list is determined by its zeros and its value. -/
theorem numeral_zeros_value (hb : 1 < b) (h : ∀ d ∈ ds, d < b) : numeral b (zeros ds) (value b ds) = ds := by
  induction ds with
  | nil => simp [numeral, zeros, value]
  | cons d ds ih =>
    obtain ⟨hd, hds⟩ := List.forall_mem_cons.mp h
    cases d with
    | zero =>
      rw [zeros_cons_zero, value_cons_zero, numeral, List.replicate_succ, List.cons_append]
      exact congrArg _ (ih hds)
    | succ d =>
      have hdigits : Nat.digits b (value b ((d + 1) :: ds)) = ((d + 1) :: ds).reverse :=
        Nat.digits_ofDigits b hb _ (fun x hx => h x (List.mem_reverse.mp hx)) fun _ => by simp
      rw [zeros_cons_succ, numeral, hdigits, List.reverse_reverse]
      rfl

@[simp] theorem zeros_numeral (b z v : ℕ) : zeros (numeral b z v) = z := by
  induction z with
  | zero =>
    refine zeros_of_head fun d hd => ?_
    rw [numeral, List.replicate_zero, List.nil_append, List.head?_reverse] at hd
    rcases Nat.eq_zero_or_pos v with rfl | hv
    · simp at hd
    · rw [List.getLast?_eq_getLast_of_ne_nil (Nat.digits_ne_nil_iff_ne_zero.mpr hv.ne')] at hd
      rw [← Option.some.inj hd]
      exact Nat.getLast_digit_ne_zero b hv.ne'
  | succ z ih => exact congrArg (· + 1) ih

@[simp] theorem value_numeral (b z v : ℕ) : value b (numeral b z v) = v := by
  rw [value, numeral, List.reverse_append, List.reverse_reverse, List.reverse_replicate,
    Nat.ofDigits_append_replicate_zero, Nat.ofDigits_digits]

@[simp] theorem length_numeral (b z v : ℕ) :
    (numeral b z v).length = z + (Nat.digits b v).length := by
  simp [numeral]

theorem lt_of_mem_numeral (hb : 1 < b) {d : ℕ} (h : d ∈ numeral b z v) : d < b := by
  rcases List.mem_append.mp h with h | h
  · rw [List.eq_of_mem_replicate h]
    omega
  · exact Nat.digits_lt_base hb (List.mem_reverse.mp h)

/-- The digits after the zeros bound the value. -/
theorem value_lt (hb : 1 < b) (h : ∀ d ∈ ds, d < b) : value b ds < b ^ (ds.length - zeros ds) := by
  have hlen := congrArg List.length (numeral_zeros_value hb h)
  rw [length_numeral] at hlen
  rw [← hlen, Nat.add_sub_cancel_left]
  exact Nat.lt_base_pow_length_digits hb

theorem zeros_le_length (hb : 1 < b) (h : ∀ d ∈ ds, d < b) : zeros ds ≤ ds.length := by
  have hlen := congrArg List.length (numeral_zeros_value hb h)
  rw [length_numeral] at hlen
  omega

/-- Which powers of the base the value reaches. -/
theorem pow_le_value_iff (hb : 1 < b) (h : ∀ d ∈ ds, d < b) {n : ℕ} :
    b ^ n ≤ value b ds ↔ zeros ds + n < ds.length := by
  have hlen := congrArg List.length (numeral_zeros_value hb h)
  rw [length_numeral] at hlen
  rw [← Nat.lt_digits_length_iff hb]
  omega

theorem value_append (b : ℕ) (ds es : List ℕ) :
    value b (ds ++ es) = value b es + b ^ es.length * value b ds := by
  rw [value, List.reverse_append, Nat.ofDigits_append, List.length_reverse, value, value]

/-- More digits make the value larger by the base at least. -/
theorem mul_value_le_of_prefix (hb : 0 < b) {es : List ℕ} (h : ds <+: es) (hne : ds ≠ es) :
    b * value b ds ≤ value b es := by
  obtain ⟨fs, rfl⟩ := h
  have hfs : fs.length ≠ 0 := fun h0 => hne (by rw [List.length_eq_zero_iff.mp h0, List.append_nil])
  rw [value_append]
  calc b * value b ds = b ^ 1 * value b ds := by rw [pow_one]
    _ ≤ b ^ fs.length * value b ds :=
      Nat.mul_le_mul_right _ (Nat.pow_le_pow_right hb (Nat.pos_of_ne_zero hfs))
    _ ≤ value b fs + b ^ fs.length * value b ds := Nat.le_add_left _ _

/-! ### Another base -/

/-- The digits in another base. -/
def convert (b c : ℕ) (ds : List ℕ) : List ℕ := numeral c (zeros ds) (value b ds)

/-- **Round trip.** -/
theorem convert_convert (hb : 1 < b) (h : ∀ d ∈ ds, d < b) : convert c b (convert b c ds) = ds := by
  rw [convert, convert, zeros_numeral, value_numeral, numeral_zeros_value hb h]

theorem value_convert : value c (convert b c ds) = value b ds := value_numeral _ _ _

theorem lt_of_mem_convert (hc : 1 < c) {d : ℕ} (h : d ∈ convert b c ds) : d < c :=
  lt_of_mem_numeral hc h

theorem length_convert : (convert b c ds).length = zeros ds + (Nat.digits c (value b ds)).length :=
  length_numeral _ _ _

/-- A smaller base does not make the list shorter. -/
theorem length_le_length_convert (hc : 1 < c) (hcb : c ≤ b) (h : ∀ d ∈ ds, d < b) :
    ds.length ≤ (convert b c ds).length := by
  have hb : 1 < b := by omega
  have hlen := congrArg List.length (numeral_zeros_value hb h)
  rw [length_numeral] at hlen
  have hdigits : (Nat.digits b (value b ds)).length ≤ (Nat.digits c (value b ds)).length := by
    rw [Nat.digits_length_le_iff hb]
    calc value b ds < c ^ (Nat.digits c (value b ds)).length := Nat.lt_base_pow_length_digits hc
      _ ≤ b ^ (Nat.digits c (value b ds)).length := Nat.pow_le_pow_left hcb _
  rw [length_convert]
  omega

/-- When the list gets longer than a bound. -/
theorem lt_length_convert_iff (hc : 1 < c) {k : ℕ} (hk : zeros ds ≤ k) :
    k < (convert b c ds).length ↔ c ^ (k - zeros ds) ≤ value b ds := by
  rw [length_convert, ← Nat.lt_digits_length_iff hc]
  omega

end TokenPlugin.Lib.Numerals
