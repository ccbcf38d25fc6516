import Mathlib
import TokenPlugin.Lib.Text
import TokenPlugin.Lib.Program

/-! # The Python values and exceptions the plugin uses

Texts, the integers of a JSON value (`bool` is a subtype of `int`, and `True == 1`), `str` and `int`,
JSON values, and the exception classes that the code raises or catches, each with its message. -/

namespace TokenPlugin.Python

open Lib.Text (intText readInt)
open Lib.Program

/-- A Python `str`, or the `bytes` of one. -/
abbrev Str : Type := List Char

instance : Coe String Str := ⟨String.toList⟩

instance : LawfulBEq Str := inferInstance

/-! ### Integers -/

/-- A value that passes `isinstance(v, int)`. -/
inductive PyInt
  | int (z : ℤ)
  | bool (b : Bool)
deriving DecidableEq

namespace PyInt

/-- The number, as `==`, arithmetic and hashing see it. -/
def val : PyInt → ℤ
  | int z => z
  | bool true => 1
  | bool false => 0

/-- `str(v)`. -/
def str : PyInt → Str
  | int z => intText z
  | bool true => "True"
  | bool false => "False"

/-- A JSON boolean. -/
def isBool : PyInt → Bool
  | int _ => false
  | bool _ => true

@[simp] theorem val_int (z : ℤ) : (int z).val = z := rfl

@[simp] theorem str_int (z : ℤ) : (int z).str = intText z := rfl

@[simp] theorem isBool_int (z : ℤ) : (int z).isBool = false := rfl

@[simp] theorem isBool_bool (b : Bool) : (bool b).isBool = true := rfl

theorem isBool_eq_false {v : PyInt} : v.isBool = false ↔ v = int v.val := by
  cases v <;> simp

theorem colon_notMem_str (v : PyInt) : ':' ∉ v.str := by
  rcases v with z | (_ | _)
  · exact Lib.Text.notMem_intText (by decide) (by decide)
  · decide
  · decide

theorem str_ne_nil (v : PyInt) : v.str ≠ [] := by
  rcases v with z | (_ | _)
  · exact Lib.Text.intText_ne_nil z
  · decide
  · decide

/-- The text of a boolean is no numeral. -/
theorem readInt_str_bool (b : Bool) : readInt (bool b).str = none := by
  cases b <;> decide

theorem str_injective : Function.Injective str := by
  have hz : ∀ (z : ℤ) (b : Bool), intText z ≠ (bool b).str := by
    intro z b h
    have := Lib.Text.readInt_intText z
    rw [h, readInt_str_bool] at this
    cases this
  intro v w h
  rcases v with z | b <;> rcases w with z' | b'
  · rw [Lib.Text.intText_injective h]
  · exact absurd h (hz z b')
  · exact absurd h.symm (hz z' b)
  · revert h
    cases b <;> cases b' <;> decide

theorem readInt_str_eq_some {v : PyInt} {z : ℤ} : readInt v.str = some z ↔ v = int z := by
  rcases v with z' | b
  · simp [Lib.Text.readInt_intText]
  · simp [readInt_str_bool]

end PyInt

/-! ### JSON values -/

/-- A deserialised JSON value. -/
inductive Json
  | null
  | bool (b : Bool)
  | int (z : ℤ)
  | float (text : Str)
  | str (s : Str)
  | list (l : List Json)
  | obj (l : List (Str × Json))

mutual

/-- Equality of values, entry by entry. -/
def Json.beq : Json → Json → Bool
  | .null, .null => true
  | .bool b, .bool b' => b == b'
  | .int z, .int z' => z == z'
  | .float s, .float s' => s == s'
  | .str s, .str s' => s == s'
  | .list l, .list l' => Json.beqList l l'
  | .obj l, .obj l' => Json.beqFields l l'
  | _, _ => false

/-- Equality of lists of values. -/
def Json.beqList : List Json → List Json → Bool
  | [], [] => true
  | v :: l, v' :: l' => v.beq v' && Json.beqList l l'
  | _, _ => false

/-- Equality of the entries of maps. -/
def Json.beqFields : List (Str × Json) → List (Str × Json) → Bool
  | [], [] => true
  | (k, v) :: l, (k', v') :: l' => k == k' && v.beq v' && Json.beqFields l l'
  | _, _ => false

end

mutual

theorem Json.beq_eq (v w : Json) : v.beq w = true ↔ v = w := by
  cases v <;> cases w <;> simp [Json.beq, Json.beqList_eq, Json.beqFields_eq]

theorem Json.beqList_eq (l m : List Json) : Json.beqList l m = true ↔ l = m := by
  cases l <;> cases m <;> simp [Json.beqList, Json.beqList_eq, Json.beq_eq]

theorem Json.beqFields_eq (l m : List (Str × Json)) : Json.beqFields l m = true ↔ l = m := by
  match l, m with
  | [], [] => simp [Json.beqFields]
  | [], _ :: _ => simp [Json.beqFields]
  | _ :: _, [] => simp [Json.beqFields]
  | (k, v) :: l, (k', w) :: m =>
    simp [Json.beqFields, Json.beq_eq v, Json.beqFields_eq l, and_assoc]

end

instance : DecidableEq Json := fun v w => decidable_of_iff _ (Json.beq_eq v w)

/-- `bool(v)`; a number that is no integer is given by its `repr`. -/
def Json.truthy : Json → Bool
  | .null => false
  | .bool b => b
  | .int z => z ≠ 0
  | .float text => text ∉ [("0.0" : Str), "-0.0"]
  | .str s => !s.isEmpty
  | .list l => !l.isEmpty
  | .obj l => !l.isEmpty

/-- `isinstance(v, int)`. -/
def Json.asInt : Json → Option PyInt
  | .int z => some (.int z)
  | .bool b => some (.bool b)
  | _ => none

/-- The value of a key of a map. -/
def Json.field (l : List (Str × Json)) (k : Str) : Option Json := l.lookup k

/-! ### Exceptions -/

/-- The exception classes that the code raises, catches or lets through. -/
inductive ErrClass
  | utxoError
  | utxoNotFound
  | utxoAddressNotFound
  | operationError
  | invalidClientMessage
  | invalidClientRequest
  | unauthorizedClientRequest
  | invalidFunds
  | extraFunds
  | insufficientFunds
  | unknownIdentifier
  | invalidSignatureFormat
  | insufficientCorrectSignatures
  | tokenValueError
  | plenumValueError
  | logicError
  | keyError
  | valueError
  | typeError
  | attributeError
  | indexError
deriving DecidableEq

/-- `UTXOError` and its subclasses. -/
def ErrClass.isUTXOError : ErrClass → Bool
  | utxoError | utxoNotFound | utxoAddressNotFound => true
  | _ => false

/-- `InvalidClientMessageException` and its subclasses. -/
def ErrClass.isInvalidClientMessage : ErrClass → Bool
  | invalidClientMessage | invalidClientRequest | unauthorizedClientRequest
  | invalidFunds | extraFunds | insufficientFunds => true
  | _ => false

/-- An exception: its class and its message. -/
structure PyErr where
  cls : ErrClass
  msg : Str
deriving DecidableEq

/-- A loop returns when every turn of it does. -/
theorem forM_eq_ok {α : Type} {l : List α} {f : α → Except PyErr Unit} :
    l.forM f = .ok () ↔ ∀ x ∈ l, f x = .ok () := by
  induction l with
  | nil => exact iff_of_true rfl (by simp)
  | cons x l ih =>
    rw [List.forall_mem_cons, ← ih]
    show (f x >>= fun _ => l.forM f) = .ok () ↔ _
    rcases f x with e | u
    · simp [bind, Except.bind]
    · simp [bind, Except.bind]

/-- A stateful computation that may raise. -/
abbrev Py (S α : Type) := Prog PyErr S α

/-- `int(s)`. -/
def pyInt (s : Str) : Except PyErr ℤ :=
  match readInt s with
  | some z => .ok z
  | none => .error ⟨.valueError, ("invalid literal for int() with base 10: " : Str) ++ s⟩

theorem pyInt_eq_ok {s : Str} {z : ℤ} : pyInt s = .ok z ↔ readInt s = some z := by
  unfold pyInt
  cases readInt s <;> simp

/-- `str` of a list of texts. -/
def showStrs (l : List Str) : Str :=
  let q := Char.ofNat 39
  '[' :: (", " : Str).intercalate (l.map fun s => q :: s ++ [q]) ++ [']']

/-- `str` of a set of integers. -/
def showSet (l : List PyInt) : Str :=
  '\x7b' :: (", " : Str).intercalate (l.map PyInt.str) ++ ['\x7d']

end TokenPlugin.Python
