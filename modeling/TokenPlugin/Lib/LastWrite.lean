import Mathlib.Data.List.AList
import Mathlib.Logic.Function.Basic

/-! # Histories of partial updates

A map that is updated by one map after the other, each overriding the keys it has and keeping the
others. For every key the outcome has the value of the last map that has the key (`lookup_merged`). The
same for a function that is updated key by key (`applied_apply`). -/

namespace TokenPlugin.Lib.LastWrite

variable {α : Type*} {β : α → Type*} [DecidableEq α]

/-- The map after all updates. -/
def merged (H : List (AList β)) : AList β := H.foldl (fun d e => e ∪ d) ∅

/-- The value of a key in the last map that has it. -/
def lastOf (a : α) : List (AList β) → Option (β a)
  | [] => none
  | e :: H => (lastOf a H).or (e.lookup a)

theorem lookup_union (a : α) (d e : AList β) : (d ∪ e).lookup a = (d.lookup a).or (e.lookup a) := by
  by_cases h : a ∈ d
  · obtain ⟨b, hb⟩ := Option.isSome_iff_exists.mp (AList.lookup_isSome.mpr h)
    rw [AList.lookup_union_left h, hb, Option.some_or]
  · rw [AList.lookup_union_right h, AList.lookup_eq_none.mpr h, Option.none_or]

theorem lookup_foldl (a : α) (H : List (AList β)) (d : AList β) :
    (H.foldl (fun d e => e ∪ d) d).lookup a = (lastOf a H).or (d.lookup a) := by
  induction H generalizing d with
  | nil => rfl
  | cons e H ih => rw [List.foldl_cons, ih, lookup_union, lastOf, Option.or_assoc]

/-- **The outcome of a history.** -/
theorem lookup_merged (a : α) (H : List (AList β)) : (merged H).lookup a = lastOf a H := by
  rw [merged, lookup_foldl, AList.lookup_empty, Option.or_none]

theorem merged_concat (H : List (AList β)) (e : AList β) : merged (H ++ [e]) = e ∪ merged H := by
  simp [merged]

theorem lastOf_concat (a : α) (H : List (AList β)) (e : AList β) :
    lastOf a (H ++ [e]) = (e.lookup a).or (lastOf a H) := by
  rw [← lookup_merged, merged_concat, lookup_union, lookup_merged]

/-- A key has a value when some map of the history has it. -/
theorem lastOf_isSome {a : α} {H : List (AList β)} : (lastOf a H).isSome ↔ ∃ e ∈ H, a ∈ e := by
  induction H with
  | nil => simp [lastOf]
  | cons e H ih =>
    rw [lastOf, Option.isSome_or, Bool.or_eq_true, ih, AList.lookup_isSome]
    simp [or_comm]

/-! ### Single writes -/

section Single
variable {K V : Type*} [DecidableEq K] {ws vs : List (K × V)} {m : K → V} {k : K}

/-- The function after the writes. -/
def applied (ws : List (K × V)) (m : K → V) : K → V := ws.foldl (fun m w => Function.update m w.1 w.2) m

/-- The value that is written under a key last. -/
def lastValue (k : K) : List (K × V) → Option V
  | [] => none
  | w :: ws => (lastValue k ws).or (if w.1 = k then some w.2 else none)

@[simp] theorem applied_nil : applied [] m = m := rfl

theorem applied_append : applied (ws ++ vs) m = applied vs (applied ws m) := List.foldl_append ..

theorem applied_apply : applied ws m k = (lastValue k ws).getD (m k) := by
  induction ws generalizing m with
  | nil => rfl
  | cons w ws ih =>
    have hstep : applied (w :: ws) m = applied ws (Function.update m w.1 w.2) := rfl
    rw [hstep, ih, lastValue]
    cases lastValue k ws with
    | some x => rfl
    | none =>
      rw [Option.none_or, Option.getD_none]
      by_cases hk : w.1 = k
      · rw [if_pos hk, ← hk, Function.update_self, Option.getD_some]
      · rw [if_neg hk, Function.update_of_ne (Ne.symm hk), Option.getD_none]

/-- **When writes change nothing**: the last value under each key was there. -/
theorem applied_eq_self : applied ws m = m ↔ ∀ k x, lastValue k ws = some x → m k = x := by
  constructor
  · intro h k x hx
    rw [← congrFun h k, applied_apply, hx, Option.getD_some]
  · intro h
    funext k
    rw [applied_apply]
    cases hx : lastValue k ws with
    | none => rfl
    | some x => exact (h k x hx).symm

end Single

end TokenPlugin.Lib.LastWrite
