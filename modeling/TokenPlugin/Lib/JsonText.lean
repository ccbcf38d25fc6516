import Mathlib.Data.List.Basic
import Mathlib.Data.List.TakeWhile

/-! # The text of a flat JSON object

The keys of the object stand in quotes, with quotes and backslashes escaped; its values are numbers,
booleans or other tokens, written and read by a pair of functions given as parameters. What is written
is read back (`readObject_writeObject`). -/

namespace TokenPlugin.Lib.JsonText

/-! ### Quoted texts -/

/-- A character between quotes. -/
def escape (c : Char) : List Char := if c = '\x22' ∨ c = '\x5c' then ['\x5c', c] else [c]

def quote (s : List Char) : List Char := '\x22' :: s.flatMap escape ++ ['\x22']

/-- What follows an opening quote: the text up to the closing one, and the rest. -/
def unquote : List Char → Option (List Char × List Char)
  | [] => none
  | '\x22' :: t => some ([], t)
  | '\x5c' :: c :: t => (unquote t).map fun r => (c :: r.1, r.2)
  | c :: t => (unquote t).map fun r => (c :: r.1, r.2)

theorem unquote_cons {c : Char} (hq : c ≠ '\x22') (hb : c ≠ '\x5c') (t : List Char) :
    unquote (c :: t) = (unquote t).map fun r => (c :: r.1, r.2) := by
  conv_lhs => unfold unquote
  split
  · next h => cases h
  · next h => exact absurd (List.cons.inj h).1 hq
  · next h => exact absurd (List.cons.inj h).1 hb
  · next h =>
    obtain ⟨rfl, rfl⟩ := List.cons.inj h
    rfl

theorem unquote_escape (c : Char) (t : List Char) :
    unquote (escape c ++ t) = (unquote t).map fun r => (c :: r.1, r.2) := by
  unfold escape
  split_ifs with h
  · rfl
  · push Not at h
    exact unquote_cons h.1 h.2 t

theorem unquote_flatMap (s t : List Char) :
    unquote (s.flatMap escape ++ '\x22' :: t) = some (s, t) := by
  induction s with
  | nil => rfl
  | cons c s ih => rw [List.flatMap_cons, List.append_assoc, unquote_escape, ih]; rfl

/-! ### Objects -/

section Objects
variable {V : Type} (write : V → List Char) (read : List Char → Option V)

/-- The end of a value. -/
def ends (c : Char) : Bool := c = ',' ∨ c = '\x7d'

/-- The entries and the closing brace. -/
def writeEntries : List (List Char × V) → List Char
  | [] => ['\x7d']
  | e :: l => quote e.1 ++ ':' :: (write e.2 ++
      match l with
      | [] => ['\x7d']
      | _ :: _ => ',' :: writeEntries l)

def writeObject (l : List (List Char × V)) : List Char := '\x7b' :: writeEntries write l

/-- The entries of a text that ends with the closing brace, `fuel` of them at most. -/
def readEntries : ℕ → List Char → Option (List (List Char × V))
  | fuel + 1, '\x22' :: t => do
    let (k, t) ← unquote t
    match t with
    | ':' :: t => do
      let v ← read (t.takeWhile (!ends ·))
      match t.dropWhile (!ends ·) with
      | ['\x7d'] => some [(k, v)]
      | ',' :: t => (readEntries fuel t).map ((k, v) :: ·)
      | _ => none
    | _ => none
  | _, _ => none

def readObject : List Char → Option (List (List Char × V))
  | ['\x7b', '\x7d'] => some []
  | '\x7b' :: t => readEntries read t.length t
  | _ => none

variable {write read}

/-- A value is read up to the first end. -/
theorem takeWhile_ends {s : List Char} (h : ∀ c ∈ s, ends c = false) {d : Char} (hd : ends d = true)
    (t : List Char) : (s ++ d :: t).takeWhile (!ends ·) = s ∧ (s ++ d :: t).dropWhile (!ends ·) = d :: t := by
  have hs : ∀ c ∈ s, (!ends c) = true := fun c hc => by rw [h c hc]; rfl
  constructor
  · rw [List.takeWhile_append_of_pos hs]
    simp [hd]
  · rw [List.dropWhile_append_of_pos hs]
    simp [hd]

theorem length_le_writeEntries (write : V → List Char) (l : List (List Char × V)) :
    l.length ≤ (writeEntries write l).length := by
  induction l with
  | nil => exact Nat.zero_le _
  | cons e l ih =>
    cases l with
    | nil => simp [writeEntries, quote]
    | cons f l =>
      rw [writeEntries]
      simp only [List.length_append, List.length_cons, quote] at ih ⊢
      omega

theorem readEntries_writeEntries (hread : ∀ v, read (write v) = some v)
    (hends : ∀ v, ∀ c ∈ write v, ends c = false) {l : List (List Char × V)} (hl : l ≠ []) {fuel : ℕ}
    (hfuel : l.length ≤ fuel) : readEntries read fuel (writeEntries write l) = some l := by
  induction l generalizing fuel with
  | nil => exact absurd rfl hl
  | cons e l ih =>
    obtain ⟨fuel, rfl⟩ : ∃ n, fuel = n + 1 := ⟨fuel - 1, by simp at hfuel; omega⟩
    obtain ⟨k, v⟩ := e
    cases l with
    | nil =>
      obtain ⟨htake, hdrop⟩ := takeWhile_ends (hends v) (d := '\x7d') rfl []
      simp [writeEntries, quote, readEntries, unquote_flatMap, htake, hdrop, hread]
    | cons f l =>
      obtain ⟨htake, hdrop⟩ := takeWhile_ends (hends v) (d := ',') rfl (writeEntries write (f :: l))
      have hrec : readEntries read fuel (writeEntries write (f :: l)) = some (f :: l) :=
        ih (List.cons_ne_nil f l) (by simp at hfuel ⊢; omega)
      rw [writeEntries]
      simp only [quote, List.cons_append, List.append_assoc, List.nil_append, readEntries,
        unquote_flatMap, Option.bind_eq_bind, Option.bind_some, htake, hdrop, hread, hrec,
        Option.map_some]

/-- **Reading back an object.** -/
theorem readObject_writeObject (hread : ∀ v, read (write v) = some v)
    (hends : ∀ v, ∀ c ∈ write v, ends c = false) (l : List (List Char × V)) :
    readObject read (writeObject write l) = some l := by
  cases l with
  | nil => rfl
  | cons e l =>
    have hne : writeEntries write (e :: l) ≠ ['\x7d'] := by simp [writeEntries, quote]
    have hcons := readEntries_writeEntries hread hends (List.cons_ne_nil e l)
      (length_le_writeEntries write (e :: l))
    unfold writeObject readObject
    split
    · next h => exact absurd (List.cons.inj h).2 hne
    · next h =>
      obtain ⟨-, rfl⟩ := List.cons.inj h
      exact hcons
    · next h => exact absurd rfl (h _)

end Objects

end TokenPlugin.Lib.JsonText
