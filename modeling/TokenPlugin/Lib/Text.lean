import Mathlib.Data.List.Basic
import Mathlib.Data.List.TakeWhile
import Mathlib.Data.Int.Basic

/-! # Delimited texts and decimal numerals

A list of pairs written as one text: the components, in order, joined by a delimiter. A text is a
list of letters of any type; `render` writes, `fields` reads back, and the two are inverse as long as
no component contains the delimiter (`fields_render`). The empty list is written as the empty text.

The second part is the decimal text of an integer and its reader, which allows blanks around the
numeral, a sign, and single underscores between digits: `readInt (intText z) = some z`. -/

namespace TokenPlugin.Lib.Text

/-! ### Pairs, flattened -/

section Pairs
variable {β γ : Type}

/-- The components of a list of pairs, in order. -/
def flat (l : List (β × β)) : List β := l.flatMap fun p => [p.1, p.2]

@[simp] theorem flat_nil : flat ([] : List (β × β)) = [] := rfl

@[simp] theorem flat_cons (p : β × β) (l : List (β × β)) : flat (p :: l) = p.1 :: p.2 :: flat l := rfl

theorem flat_append (l l' : List (β × β)) : flat (l ++ l') = flat l ++ flat l' := by
  simp [flat, List.flatMap_append]

@[simp] theorem length_flat (l : List (β × β)) : (flat l).length = 2 * l.length := by
  induction l with
  | nil => rfl
  | cons p l ih => simp only [flat_cons, List.length_cons, ih]; omega

theorem flat_eq_nil {l : List (β × β)} : flat l = [] ↔ l = [] := by
  cases l <;> simp

/-- The pairs of a list of even length. -/
def unflat : List β → List (β × β)
  | x :: y :: l => (x, y) :: unflat l
  | _ => []

@[simp] theorem unflat_flat (l : List (β × β)) : unflat (flat l) = l := by
  induction l with
  | nil => rfl
  | cons p l ih => simp [unflat, ih]

theorem flat_unflat {l : List β} (h : l.length % 2 = 0) : flat (unflat l) = l := by
  induction l using unflat.induct with
  | case1 x y l ih =>
    rw [unflat, flat_cons, ih (by simp at h; omega)]
  | case2 l hl =>
    match l with
    | [] => rfl
    | [x] => simp at h
    | x :: y :: l => exact absurd rfl (hl x y l)

end Pairs

/-! ### The delimited text -/

section Delimited
variable {α : Type} {d : α}

/-- The text of a list of pairs. -/
def render (d : α) (l : List (List α × List α)) : List α := [d].intercalate (flat l)

/-- No component contains the delimiter. -/
def Clean (d : α) (l : List (List α × List α)) : Prop := ∀ p ∈ l, d ∉ p.1 ∧ d ∉ p.2

@[simp] theorem render_nil : render d ([] : List (List α × List α)) = [] := rfl

theorem render_eq_nil {l : List (List α × List α)} : render d l = [] ↔ l = [] := by
  constructor
  · intro h
    cases l with
    | nil => rfl
    | cons p l => simp [render, List.intercalate] at h
  · rintro rfl; rfl

theorem Clean.append {l l' : List (List α × List α)} (h : Clean d l) (h' : Clean d l') :
    Clean d (l ++ l') := by
  intro p hp
  rcases List.mem_append.mp hp with hp | hp
  · exact h p hp
  · exact h' p hp

variable [BEq α] [LawfulBEq α]

/-- The fields of a text; the empty text has none. -/
def fields (d : α) (s : List α) : List (List α) := if s.isEmpty then [] else s.splitOn d

/-- **Reading back what was written.** -/
theorem fields_render {l : List (List α × List α)} (h : Clean d l) : fields d (render d l) = flat l := by
  unfold fields
  by_cases hl : l = []
  · subst hl; rfl
  · rw [if_neg (by rw [List.isEmpty_iff, render_eq_nil]; exact hl)]
    refine List.splitOn_intercalate d (fun f hf => ?_) (by rwa [ne_eq, flat_eq_nil])
    simp only [flat, List.mem_flatMap] at hf
    obtain ⟨p, hp, hf⟩ := hf
    rcases List.mem_cons.mp hf with rfl | hf
    · exact (h p hp).1
    · rw [List.mem_singleton.mp hf]; exact (h p hp).2

theorem notMem_of_mem_splitOn {s f : List α} (h : f ∈ s.splitOn d) : d ∉ f := by
  induction s generalizing f with
  | nil =>
    rw [List.splitOn_nil, List.mem_singleton] at h
    rw [h]
    exact List.not_mem_nil
  | cons x s ih =>
    rw [List.splitOn_cons_eq_if_modifyHead] at h
    split_ifs at h with hx
    · rcases List.mem_cons.mp h with rfl | h
      · exact List.not_mem_nil
      · exact ih h
    · cases hs : s.splitOn d with
      | nil => exact absurd hs (List.splitOn_ne_nil d s)
      | cons g gs =>
        rw [hs, List.modifyHead_cons] at h
        rcases List.mem_cons.mp h with rfl | h
        · have hg : d ∉ g := ih (hs ▸ List.mem_cons_self)
          have hne : d ≠ x := fun he => hx (by rw [he]; exact beq_self_eq_true x)
          exact List.not_mem_cons_of_ne_of_not_mem hne hg
        · exact ih (hs ▸ List.mem_cons_of_mem g h)

/-- The pairs that a text lists, where the number of its fields is even. -/
def pairs (d : α) (s : List α) : Option (List (List α × List α)) :=
  if (fields d s).length % 2 = 0 then some (unflat (fields d s)) else none

theorem pairs_render {l : List (List α × List α)} (h : Clean d l) : pairs d (render d l) = some l := by
  rw [pairs, fields_render h, length_flat, Nat.mul_mod_right, if_pos rfl, unflat_flat]

/-- **The texts that list pairs.** -/
theorem pairs_eq_some {s : List α} {l : List (List α × List α)} :
    pairs d s = some l ↔ Clean d l ∧ s = render d l := by
  refine ⟨fun h => ?_, fun ⟨hl, hs⟩ => hs ▸ pairs_render hl⟩
  unfold pairs at h
  split_ifs at h with heven
  have hflat : flat l = fields d s := by rw [← Option.some.inj h, flat_unflat heven]
  constructor
  · intro p hp
    have hfield : ∀ f ∈ flat l, d ∉ f := by
      intro f hf
      rw [hflat, fields] at hf
      split_ifs at hf
      · cases hf
      · exact notMem_of_mem_splitOn hf
    have hmem : ∀ f ∈ [p.1, p.2], f ∈ flat l := fun f hf => List.mem_flatMap.mpr ⟨p, hp, hf⟩
    exact ⟨hfield _ (hmem _ (by simp)), hfield _ (hmem _ (by simp))⟩
  · rw [render, hflat, fields]
    split_ifs with hs
    · exact List.isEmpty_iff.mp hs
    · exact (List.intercalate_splitOn d).symm

/-- A text with one delimiter in front of a delimiter-free rest determines both parts. -/
theorem append_delim_inj {a b s t : List α} (hs : d ∉ s) (ht : d ∉ t)
    (h : a ++ d :: s = b ++ d :: t) : a = b ∧ s = t := by
  have hrev : ∀ (x y : List α), d ∉ y → (x ++ d :: y).reverse.takeWhile (! · == d) = y.reverse := by
    intro x y hy
    rw [List.reverse_append, List.reverse_cons, List.append_assoc]
    refine List.takeWhile_append_of_pos (fun c hc => ?_) |>.trans (by simp)
    have : c ≠ d := fun he => hy (he ▸ List.mem_reverse.mp hc)
    simpa using this
  have hst : s.reverse = t.reverse := by rw [← hrev a s hs, h, hrev b t ht]
  have hst := List.reverse_injective hst
  subst hst
  exact ⟨List.append_cancel_right h, rfl⟩

end Delimited

/-! ### Decimal numerals -/

/-- The decimal text of an integer. -/
def intText : ℤ → List Char
  | .ofNat n => Nat.toDigits 10 n
  | .negSucc n => '-' :: Nat.toDigits 10 (n + 1)

/-- The value of a run of digits, in which single underscores may stand between digits. -/
def readDigits (s : List Char) : Option ℕ :=
  if (s.splitOn '_').all (fun g => !g.isEmpty && g.all Char.isDigit) then
    some (Nat.ofDigitChars 10 (s.filter (· != '_')) 0)
  else none

/-- The value of a signed run of digits. -/
def readSigned : List Char → Option ℤ
  | '-' :: s => (readDigits s).map fun n => -(n : ℤ)
  | '+' :: s => (readDigits s).map fun n => (n : ℤ)
  | s => (readDigits s).map fun n => (n : ℤ)

/-- The text without the blanks at its ends. -/
def strip (s : List Char) : List Char :=
  ((s.dropWhile Char.isWhitespace).reverse.dropWhile Char.isWhitespace).reverse

/-- The value of a decimal text. -/
def readInt (s : List Char) : Option ℤ := readSigned (strip s)

theorem isDigit_of_mem_toDigits {n : ℕ} {c : Char} (h : c ∈ Nat.toDigits 10 n) :
    c.isDigit = true := Nat.isDigit_of_mem_toDigits (by decide) (by decide) h

theorem readDigits_toDigits (n : ℕ) : readDigits (Nat.toDigits 10 n) = some n := by
  have hu : '_' ∉ Nat.toDigits 10 n := Nat.underscore_not_in_toDigits
  have hall : (Nat.toDigits 10 n).all Char.isDigit = true :=
    List.all_eq_true.mpr fun c hc => isDigit_of_mem_toDigits hc
  have hf : (Nat.toDigits 10 n).filter (· != '_') = Nat.toDigits 10 n :=
    List.filter_eq_self.mpr fun c hc => by
      have : c ≠ '_' := fun he => hu (he ▸ hc)
      simpa using this
  unfold readDigits
  rw [List.splitOn_eq_singleton hu, hf]
  simp [hall, Nat.toDigits_ne_nil, Nat.ofDigitChars_ten_toDigits]

theorem isDigit_or_minus_of_mem_intText {z : ℤ} {c : Char} (h : c ∈ intText z) :
    c.isDigit = true ∨ c = '-' := by
  cases z with
  | ofNat n => exact Or.inl (isDigit_of_mem_toDigits h)
  | negSucc n =>
    rcases List.mem_cons.mp h with h | h
    · exact Or.inr h
    · exact Or.inl (isDigit_of_mem_toDigits h)

theorem notMem_intText {z : ℤ} {c : Char} (hd : c.isDigit = false) (hm : c ≠ '-') :
    c ∉ intText z := by
  intro h
  rcases isDigit_or_minus_of_mem_intText h with h | h
  · rw [hd] at h; exact absurd h (by decide)
  · exact hm h

theorem intText_ne_nil (z : ℤ) : intText z ≠ [] := by
  cases z with
  | ofNat n => exact Nat.toDigits_ne_nil
  | negSucc n => exact List.cons_ne_nil _ _

theorem dropWhile_of_forall {α : Type} {p : α → Bool} {l : List α} (h : ∀ c ∈ l, p c = false) :
    l.dropWhile p = l := by
  rw [List.dropWhile_eq_self_iff]
  intro hl hp
  rw [h _ (List.getElem_mem hl)] at hp
  exact absurd hp (by decide)

theorem strip_of_forall {s : List Char} (h : ∀ c ∈ s, c.isWhitespace = false) : strip s = s := by
  unfold strip
  rw [dropWhile_of_forall h, dropWhile_of_forall fun c hc => h c (List.mem_reverse.mp hc),
    List.reverse_reverse]

theorem isWhitespace_of_isDigit {c : Char} (h : c.isDigit = true) : c.isWhitespace = false := by
  by_contra hc
  have hc : c.isWhitespace = true := by simpa using hc
  simp only [Char.isWhitespace, Bool.or_eq_true, decide_eq_true_eq] at hc
  rcases hc with ((rfl | rfl) | rfl) | rfl <;> exact absurd h (by decide)

theorem readSigned_toDigits (n : ℕ) : readSigned (Nat.toDigits 10 n) = some (n : ℤ) := by
  have hhead : ∀ {c s}, Nat.toDigits 10 n = c :: s → c.isDigit = true := fun {c s} hs =>
    isDigit_of_mem_toDigits (n := n) (by rw [hs]; exact List.mem_cons_self)
  unfold readSigned
  split
  · next s hs => exact absurd (hhead hs) (by decide)
  · next s hs => exact absurd (hhead hs) (by decide)
  · rw [readDigits_toDigits]; rfl

/-- **Reading back a numeral.** -/
theorem readInt_intText (z : ℤ) : readInt (intText z) = some z := by
  have hs : strip (intText z) = intText z := strip_of_forall fun c hc => by
    rcases isDigit_or_minus_of_mem_intText hc with h | rfl
    · exact isWhitespace_of_isDigit h
    · decide
  rw [readInt, hs]
  cases z with
  | ofNat n => exact readSigned_toDigits n
  | negSucc n =>
    show readSigned ('-' :: Nat.toDigits 10 (n + 1)) = _
    simp only [readSigned, readDigits_toDigits]
    rfl

theorem intText_injective : Function.Injective intText := fun a b h => by
  have := congrArg readInt h
  rw [readInt_intText, readInt_intText] at this
  exact Option.some.inj this

/-! ### Self-delimiting texts -/

/-- Where a text of `f` ends is seen from the text. -/
def SelfDelimiting {α : Type} (f : α → List Char) : Prop :=
  ∀ a b t u, f a ++ t = f b ++ u → a = b ∧ t = u

/-- A list, with a mark before each entry and another at the end. -/
def listText {α : Type} (f : α → List Char) : List α → List Char
  | [] => [';']
  | a :: l => ':' :: f a ++ listText f l

section SelfDelimiting
variable {α β : Type} {f : α → List Char} {g : β → List Char}

theorem SelfDelimiting.injective (h : SelfDelimiting f) : Function.Injective f := fun a b hab =>
  (h a b [] [] (by rw [hab])).1

theorem selfDelimiting_single : SelfDelimiting fun c : Char => [c] := fun a b t u h => by
  simpa using h

theorem SelfDelimiting.pair (hf : SelfDelimiting f) (hg : SelfDelimiting g) :
    SelfDelimiting fun p : α × β => f p.1 ++ g p.2 := by
  rintro ⟨a, b⟩ ⟨a', b'⟩ t u h
  simp only [List.append_assoc] at h
  obtain ⟨rfl, hrest⟩ := hf _ _ _ _ h
  obtain ⟨rfl, rfl⟩ := hg _ _ _ _ hrest
  exact ⟨rfl, rfl⟩

theorem SelfDelimiting.list (hf : SelfDelimiting f) : SelfDelimiting (listText f) := by
  intro l
  induction l with
  | nil =>
    rintro (_ | ⟨b, m⟩) t u h
    · exact ⟨rfl, by simpa [listText] using h⟩
    · simp [listText] at h
  | cons a l ih =>
    rintro (_ | ⟨b, m⟩) t u h
    · simp [listText] at h
    · simp only [listText, List.cons_append, List.cons.injEq, true_and, List.append_assoc] at h
      obtain ⟨rfl, hrest⟩ := hf _ _ _ _ h
      obtain ⟨rfl, rfl⟩ := ih _ _ _ hrest
      exact ⟨rfl, rfl⟩

end SelfDelimiting

end TokenPlugin.Lib.Text
