import Mathlib.Data.List.Basic
import Mathlib.Tactic.Common

/-! # Programs with a state and exceptions

`Prog ε S α` is a program that changes a state and returns a value or raises an exception; what it did
to the state before it raised stays done. `Returns x s a t` says that from the state `s` the program
returns `a` and leaves `t`, `Raises x s t` that it raises an exception and leaves `t`; the lemmas of
their simp sets take a program apart into its steps. `Sim R` relates programs over two types of state
along a relation between them. -/

namespace TokenPlugin.Lib.Program

/-- A program with state `S` and exceptions `ε`. -/
def Prog (ε S α : Type) : Type := S → Except ε α × S

variable {ε S T α β : Type}

namespace Prog

/-- Sequencing; an exception skips the rest. -/
def andThen (x : Prog ε S α) (f : α → Prog ε S β) : Prog ε S β := fun s =>
  match x s with
  | (.ok a, s') => f a s'
  | (.error e, s') => (.error e, s')

instance : Monad (Prog ε S) where
  pure a := fun s => (.ok a, s)
  bind := andThen

/-- Raise an exception. -/
def raise (e : ε) : Prog ε S α := fun s => (.error e, s)

/-- The state. -/
def get : Prog ε S S := fun s => (.ok s, s)

/-- Change the state. -/
def modify (f : S → S) : Prog ε S Unit := fun s => (.ok (), f s)

/-- The outcome of a computation without state. -/
def ofExcept (x : Except ε α) : Prog ε S α := fun s => (x, s)

/-- Prog, and where an exception is one that the handler catches, go on with what it says. -/
def catching (x : Prog ε S α) (h : ε → Option (Prog ε S α)) : Prog ε S α := fun s =>
  match x s with
  | (.ok a, s') => (.ok a, s')
  | (.error e, s') => ((h e).getD (raise e)) s'

/-- The outcome of a program, exceptions included. -/
def attempt (x : Prog ε S α) : Prog ε S (Except ε α) := fun s => (.ok (x s).1, (x s).2)

/-- A program on a part of the state. -/
def zoom (view : S → T) (put : T → S → S) (x : Prog ε T α) : Prog ε S α := fun s =>
  ((x (view s)).1, put (x (view s)).2 s)

end Prog

open Prog (raise get modify ofExcept catching attempt zoom)

/-! ### Normal returns -/

/-- From `s` the program returns `a` and leaves `t`. -/
def Returns (x : Prog ε S α) (s : S) (a : α) (t : S) : Prop := x s = (.ok a, t)

theorem Returns.unique {x : Prog ε S α} {s t t' : S} {a a' : α} (h : Returns x s a t)
    (h' : Returns x s a' t') : a = a' ∧ t = t' := by
  have := (show x s = _ from h).symm.trans h'
  simpa using this

theorem returns_of_fst {x : Prog ε S α} {s : S} {a : α} (h : (x s).1 = .ok a) :
    Returns x s a (x s).2 :=
  Prod.ext h rfl

@[simp] theorem returns_pure {a b : α} {s t : S} :
    Returns (pure a : Prog ε S α) s b t ↔ a = b ∧ s = t := by
  simp [Returns, pure]

@[simp] theorem returns_bind {x : Prog ε S α} {f : α → Prog ε S β} {s t : S} {b : β} :
    Returns (x >>= f) s b t ↔ ∃ a u, Returns x s a u ∧ Returns (f a) u b t := by
  unfold Returns
  show Prog.andThen x f s = _ ↔ _
  unfold Prog.andThen
  rcases h : x s with ⟨e | a, u⟩ <;> simp

@[simp] theorem returns_map {x : Prog ε S α} {f : α → β} {s t : S} {b : β} :
    Returns (f <$> x) s b t ↔ ∃ a, Returns x s a t ∧ f a = b := by
  show Returns (x >>= fun a => pure (f a)) s b t ↔ _
  simp only [returns_bind, returns_pure]
  constructor
  · rintro ⟨a, u, h, he, rfl⟩; exact ⟨a, h, he⟩
  · rintro ⟨a, h, he⟩; exact ⟨a, t, h, he, rfl⟩

@[simp] theorem returns_raise {e : ε} {s t : S} {a : α} :
    Returns (raise e : Prog ε S α) s a t ↔ False := by
  simp [Returns, Prog.raise]

@[simp] theorem returns_get {s t u : S} : Returns (get : Prog ε S S) s u t ↔ s = u ∧ s = t := by
  simp [Returns, Prog.get]

@[simp] theorem returns_modify {f : S → S} {s t : S} {u : Unit} :
    Returns (modify f : Prog ε S Unit) s u t ↔ f s = t := by
  simp [Returns, Prog.modify]

@[simp] theorem returns_ofExcept {x : Except ε α} {s t : S} {a : α} :
    Returns (ofExcept x) s a t ↔ x = .ok a ∧ s = t := by
  simp [Returns, Prog.ofExcept]

theorem returns_ite {p : Prop} [Decidable p] {x y : Prog ε S α} {s t : S} {a : α} :
    Returns (if p then x else y) s a t ↔ (p ∧ Returns x s a t) ∨ (¬p ∧ Returns y s a t) := by
  by_cases h : p <;> simp [h]

@[simp] theorem returns_forM_nil {f : α → Prog ε S Unit} {s t : S} {u : Unit} :
    Returns (([] : List α).forM f) s u t ↔ s = t := by
  show Returns (pure PUnit.unit) s u t ↔ _
  rw [returns_pure]
  exact ⟨And.right, fun h => ⟨rfl, h⟩⟩

@[simp] theorem returns_forM_cons {f : α → Prog ε S Unit} {x : α} {xs : List α} {s t : S} {u : Unit} :
    Returns ((x :: xs).forM f) s u t ↔ ∃ r, Returns (f x) s () r ∧ Returns (xs.forM f) r () t := by
  show Returns (f x >>= fun _ => xs.forM f) s u t ↔ _
  rw [returns_bind]
  exact ⟨fun ⟨_, r, h, h'⟩ => ⟨r, h, h'⟩, fun ⟨r, h, h'⟩ => ⟨(), r, h, h'⟩⟩

theorem returns_forM_append {f : α → Prog ε S Unit} {xs ys : List α} {s t : S} {u : Unit} :
    Returns ((xs ++ ys).forM f) s u t ↔ ∃ r, Returns (xs.forM f) s () r ∧ Returns (ys.forM f) r () t := by
  induction xs generalizing s with
  | nil => simp
  | cons x xs ih =>
    simp only [List.cons_append, returns_forM_cons, ih]
    constructor
    · rintro ⟨r, hx, q, hxs, hys⟩
      exact ⟨q, ⟨r, hx, hxs⟩, hys⟩
    · rintro ⟨q, ⟨r, hx, hxs⟩, hys⟩
      exact ⟨r, hx, q, hxs, hys⟩

/-- A program returns with a handler when it does so without, or when the handler does. -/
theorem returns_catching_iff {x : Prog ε S α} {h : ε → Option (Prog ε S α)} {s t : S} {a : α} :
    Returns (catching x h) s a t ↔ Returns x s a t ∨
      ∃ e y u, x s = (.error e, u) ∧ h e = some y ∧ Returns y u a t := by
  unfold Returns Prog.catching
  rcases hx : x s with ⟨e | b, u⟩
  · cases he : h e with
    | none => simp [he, Prog.raise]
    | some y => simp [he]
  · simp

/-- A handler that only turns exceptions into others does not change when a program returns. -/
theorem returns_catching {x : Prog ε S α} {h : ε → Option (Prog ε S α)} {s t : S} {a : α}
    (hh : ∀ e y, h e = some y → ∃ e', y = raise e') :
    Returns (catching x h) s a t ↔ Returns x s a t := by
  unfold Returns Prog.catching
  rcases hx : x s with ⟨e | b, u⟩
  · cases he : h e with
    | none => simp [he, Prog.raise]
    | some y =>
      obtain ⟨e', rfl⟩ := hh e y he
      simp [he, Prog.raise]
  · simp

@[simp] theorem returns_zoom {view : S → T} {put : T → S → S} {x : Prog ε T α} {s t : S} {a : α} :
    Returns (zoom view put x) s a t ↔ ∃ u, Returns x (view s) a u ∧ put u s = t := by
  unfold Returns Prog.zoom
  rcases h : x (view s) with ⟨e | b, u⟩ <;> simp

/-! ### Exceptions -/

section Raises

/-- From `s` the program raises an exception and leaves `t`. -/
def Raises (x : Prog ε S α) (s t : S) : Prop := ∃ e, x s = (.error e, t)

/-- A program returns or raises, and does not do both. -/
theorem not_raises_iff {x : Prog ε S α} {s : S} : (¬∃ t, Raises x s t) ↔ ∃ a t, Returns x s a t := by
  unfold Raises Returns
  rcases x s with ⟨e | a, u⟩ <;> simp

theorem Raises.unique {x : Prog ε S α} {s t t' : S} (h : Raises x s t) (h' : Raises x s t') : t = t' := by
  obtain ⟨e, he⟩ := h
  obtain ⟨e', he'⟩ := h'
  exact congrArg Prod.snd (he.symm.trans he')

@[simp] theorem raises_pure {a : α} {s t : S} : Raises (pure a : Prog ε S α) s t ↔ False := by
  simp [Raises, pure]

@[simp] theorem raises_bind {x : Prog ε S α} {f : α → Prog ε S β} {s t : S} :
    Raises (x >>= f) s t ↔ Raises x s t ∨ ∃ a u, Returns x s a u ∧ Raises (f a) u t := by
  unfold Raises Returns
  show (∃ e, Prog.andThen x f s = _) ↔ _
  unfold Prog.andThen
  rcases h : x s with ⟨e | a, u⟩ <;> simp

@[simp] theorem raises_get {s t : S} : Raises (get : Prog ε S S) s t ↔ False := by
  simp [Raises, Prog.get]

@[simp] theorem raises_modify {f : S → S} {s t : S} :
    Raises (modify f : Prog ε S Unit) s t ↔ False := by
  simp [Raises, Prog.modify]

@[simp] theorem raises_ofExcept {x : Except ε α} {s t : S} :
    Raises (ofExcept x) s t ↔ (∃ e, x = .error e) ∧ s = t := by
  simp [Raises, Prog.ofExcept]

@[simp] theorem raises_forM_nil {f : α → Prog ε S Unit} {s t : S} :
    Raises (([] : List α).forM f) s t ↔ False := raises_pure (a := PUnit.unit)

@[simp] theorem raises_forM_cons {f : α → Prog ε S Unit} {x : α} {xs : List α} {s t : S} :
    Raises ((x :: xs).forM f) s t ↔
      Raises (f x) s t ∨ ∃ r, Returns (f x) s () r ∧ Raises (xs.forM f) r t := by
  show Raises (f x >>= fun _ => xs.forM f) s t ↔ _
  rw [raises_bind]
  exact or_congr_right ⟨fun ⟨_, r, h, h'⟩ => ⟨r, h, h'⟩, fun ⟨r, h, h'⟩ => ⟨(), r, h, h'⟩⟩

/-- A loop raises at some turn, after the turns before it. -/
theorem raises_forM {f : α → Prog ε S Unit} {xs : List α} {s t : S} : Raises (xs.forM f) s t ↔
    ∃ ys x zs u, xs = ys ++ x :: zs ∧ Returns (ys.forM f) s () u ∧ Raises (f x) u t := by
  induction xs generalizing s with
  | nil => simp
  | cons x xs ih =>
    rw [raises_forM_cons]
    constructor
    · rintro (h | ⟨r, hr, h⟩)
      · exact ⟨[], x, xs, s, rfl, returns_forM_nil.mpr rfl, h⟩
      · obtain ⟨ys, y, zs, u, rfl, hu, hy⟩ := ih.mp h
        exact ⟨x :: ys, y, zs, u, rfl, returns_forM_cons.mpr ⟨r, hr, hu⟩, hy⟩
    · rintro ⟨_ | ⟨y, ys⟩, z, zs, u, he, hu, hz⟩
      · obtain ⟨rfl, rfl⟩ := List.cons.inj he
        obtain rfl := returns_forM_nil.mp hu
        exact .inl hz
      · obtain ⟨rfl, rfl⟩ := List.cons.inj he
        obtain ⟨r, hr, hu⟩ := returns_forM_cons.mp hu
        exact .inr ⟨r, hr, ih.mpr ⟨ys, z, zs, u, rfl, hu, hz⟩⟩

theorem raises_of_isOk {x : Prog ε S α} {s : S} (h : (x s).1.isOk = false) : Raises x s (x s).2 := by
  unfold Raises
  rcases hx : x s with ⟨e | a, u⟩
  · exact ⟨e, rfl⟩
  · rw [hx] at h
    cases h

/-- A handler that only turns exceptions into others does not change when a program raises. -/
theorem raises_catching {x : Prog ε S α} {h : ε → Option (Prog ε S α)} {s t : S}
    (hh : ∀ e y, h e = some y → ∃ e', y = raise e') : Raises (catching x h) s t ↔ Raises x s t := by
  unfold Raises Prog.catching
  rcases hx : x s with ⟨e | b, u⟩
  · cases he : h e with
    | none => simp [he, Prog.raise]
    | some y =>
      obtain ⟨e', rfl⟩ := hh e y he
      simp [he, Prog.raise]
  · simp

end Raises

/-! ### What programs keep -/

section Keeps
variable {p : S → Prop}

/-- Whatever the outcome, the property still holds after the program. -/
def Keeps (p : S → Prop) (x : Prog ε S α) : Prop := ∀ s, p s → p (x s).2

theorem keeps_pure (a : α) : Keeps p (pure a : Prog ε S α) := fun _ h => h

theorem keeps_modify {f : S → S} (h : ∀ s, p s → p (f s)) : Keeps p (modify f : Prog ε S Unit) := h

theorem Keeps.bind {x : Prog ε S α} {g : α → Prog ε S β} (h : Keeps p x) (hg : ∀ a, Keeps p (g a)) :
    Keeps p (x >>= g) := by
  intro s hs
  show p (Prog.andThen x g s).2
  unfold Prog.andThen
  have hu := h s hs
  rcases hx : x s with ⟨e | a, u⟩ <;> simp only [hx] at hu
  · exact hu
  · exact hg a u hu

theorem Keeps.catching {x : Prog ε S α} {h : ε → Option (Prog ε S α)} (hx : Keeps p x)
    (hh : ∀ e y, h e = some y → ∃ e', y = raise e') : Keeps p (catching x h) := by
  intro s hs
  have hu := hx s hs
  unfold Prog.catching
  rcases he : x s with ⟨e | a, u⟩ <;> simp only [he] at hu
  · show p ((h e).getD (raise e) u).2
    cases hy : h e with
    | none => exact hu
    | some y =>
      obtain ⟨e', rfl⟩ := hh e y hy
      exact hu
  · exact hu

theorem keeps_forM {xs : List α} {x : α → Prog ε S Unit} (h : ∀ a ∈ xs, Keeps p (x a)) :
    Keeps p (xs.forM x) := by
  induction xs with
  | nil => exact keeps_pure _
  | cons a xs ih =>
    exact (h a List.mem_cons_self).bind fun _ => ih fun b hb => h b (List.mem_cons_of_mem _ hb)

end Keeps

/-! ### Programs that only read -/

section ReadOnly

/-- The program leaves the state as it is. -/
def ReadOnly (x : Prog ε S α) : Prop := ∀ s, (x s).2 = s

theorem ReadOnly.eq {x : Prog ε S α} (h : ReadOnly x) {s t : S} {a : α} (hx : Returns x s a t) :
    t = s := by
  have := h s
  rwa [show x s = _ from hx] at this

theorem readOnly_pure (a : α) : ReadOnly (pure a : Prog ε S α) := fun _ => rfl

theorem readOnly_raise (e : ε) : ReadOnly (raise e : Prog ε S α) := fun _ => rfl

theorem readOnly_get : ReadOnly (get : Prog ε S S) := fun _ => rfl

theorem readOnly_ofExcept (x : Except ε α) : ReadOnly (ofExcept x : Prog ε S α) := fun _ => rfl

theorem ReadOnly.bind {x : Prog ε S α} {g : α → Prog ε S β} (h : ReadOnly x)
    (hg : ∀ a, ReadOnly (g a)) : ReadOnly (x >>= g) := by
  intro s
  show (Prog.andThen x g s).2 = s
  unfold Prog.andThen
  have hs := h s
  rcases hx : x s with ⟨e | a, u⟩ <;> simp only [hx] at hs <;> subst hs
  · rfl
  · exact hg a u

theorem ReadOnly.keeps {x : Prog ε S α} (h : ReadOnly x) {p : S → Prop} : Keeps p x := fun s hs =>
  (h s).symm ▸ hs

theorem ReadOnly.ite {p : Prop} [Decidable p] {x y : Prog ε S α} (hx : ReadOnly x)
    (hy : ReadOnly y) : ReadOnly (if p then x else y) := by
  by_cases h : p <;> simpa [h]

theorem ReadOnly.catching {x : Prog ε S α} {g : ε → Option (Prog ε S α)} (h : ReadOnly x)
    (hg : ∀ e y, g e = some y → ReadOnly y) : ReadOnly (Prog.catching x g) := by
  intro s
  unfold Prog.catching
  have hs := h s
  rcases hx : x s with ⟨e | a, u⟩ <;> simp only [hx] at hs <;> subst hs
  · show ((g e).getD (raise e) u).2 = u
    cases he : g e with
    | none => rfl
    | some y => exact hg e y he u
  · rfl

theorem readOnly_forM {xs : List α} {x : α → Prog ε S Unit} (h : ∀ a, ReadOnly (x a)) :
    ReadOnly (xs.forM x) := by
  induction xs with
  | nil => exact readOnly_pure _
  | cons a xs ih => exact (h a).bind fun _ => ih

theorem ReadOnly.zoom {view : S → T} {put : T → S → S} {x : Prog ε T α} (h : ReadOnly x)
    (hput : ∀ s, put (view s) s = s) : ReadOnly (Prog.zoom view put x) := fun s => by
  show put (x (view s)).2 s = s
  rw [h, hput]

end ReadOnly

/-! ### Programs over two types of state -/

section Sim
variable {R : S → T → Prop}

/-- From related states the two programs have the same outcome and lead to related states. -/
def Sim (R : S → T → Prop) (x : Prog ε S α) (y : Prog ε T α) : Prop :=
  ∀ s t, R s t → (y t).1 = (x s).1 ∧ R (x s).2 (y t).2

/-- What the first program returns, the second returns. -/
theorem Sim.returns {x : Prog ε S α} {y : Prog ε T α} (h : Sim R x y) {s s' : S} {t : T} {a : α}
    (hR : R s t) (hx : Returns x s a s') : ∃ t', Returns y t a t' ∧ R s' t' := by
  obtain ⟨h1, h2⟩ := h s t hR
  rw [show x s = _ from hx] at h1 h2
  exact ⟨(y t).2, Prod.ext h1 rfl, h2⟩

/-- What the second program returns, the first returns. -/
theorem Sim.returns_of {x : Prog ε S α} {y : Prog ε T α} (h : Sim R x y) {s : S} {t t' : T} {a : α}
    (hR : R s t) (hy : Returns y t a t') : ∃ s', Returns x s a s' ∧ R s' t' := by
  obtain ⟨h1, h2⟩ := h s t hR
  rw [show y t = _ from hy] at h1 h2
  exact ⟨(x s).2, Prod.ext h1.symm rfl, h2⟩

/-- Where the first program raises, the second does. -/
theorem Sim.raises {x : Prog ε S α} {y : Prog ε T α} (h : Sim R x y) {s s' : S} {t : T}
    (hR : R s t) (hx : Raises x s s') : ∃ t', Raises y t t' ∧ R s' t' := by
  obtain ⟨h1, h2⟩ := h s t hR
  obtain ⟨e, he⟩ := hx
  rw [he] at h1 h2
  exact ⟨(y t).2, ⟨e, Prod.ext h1 rfl⟩, h2⟩

/-- Where the second program raises, the first does. -/
theorem Sim.raises_of {x : Prog ε S α} {y : Prog ε T α} (h : Sim R x y) {s : S} {t t' : T}
    (hR : R s t) (hy : Raises y t t') : ∃ s', Raises x s s' ∧ R s' t' := by
  obtain ⟨h1, h2⟩ := h s t hR
  obtain ⟨e, he⟩ := hy
  rw [he] at h1 h2
  exact ⟨(x s).2, ⟨e, Prod.ext h1.symm rfl⟩, h2⟩

theorem sim_pure (a : α) : Sim R (pure a : Prog ε S α) (pure a) := fun _ _ h => ⟨rfl, h⟩

theorem Sim.bind {x : Prog ε S α} {y : Prog ε T α} {g : α → Prog ε S β} {g' : α → Prog ε T β}
    (h : Sim R x y) (hg : ∀ a, Sim R (g a) (g' a)) : Sim R (x >>= g) (y >>= g') := by
  intro s t hR
  show (Prog.andThen y g' t).1 = (Prog.andThen x g s).1 ∧
    R (Prog.andThen x g s).2 (Prog.andThen y g' t).2
  obtain ⟨h1, h2⟩ := h s t hR
  unfold Prog.andThen
  rcases hx : x s with ⟨e | a, u⟩ <;> rcases hy : y t with ⟨e' | b, w⟩ <;>
    simp only [hx, hy, reduceCtorEq, Except.ok.injEq, Except.error.injEq] at h1 h2
  · exact ⟨by rw [h1], h2⟩
  · exact h1 ▸ hg b u w h2

theorem sim_raise (e : ε) : Sim R (raise e : Prog ε S α) (raise e) := fun _ _ h => ⟨rfl, h⟩

theorem sim_ofExcept (x : Except ε α) : Sim R (ofExcept x : Prog ε S α) (ofExcept x) :=
  fun _ _ h => ⟨rfl, h⟩

theorem sim_modify {g : S → S} {g' : T → T} (h : ∀ s t, R s t → R (g s) (g' t)) :
    Sim R (modify g : Prog ε S Unit) (modify g') := fun s t hR => ⟨rfl, h s t hR⟩

theorem sim_get_bind {g : S → Prog ε S α} {g' : T → Prog ε T α}
    (h : ∀ s t, R s t → Sim R (g s) (g' t)) : Sim R (get >>= g) (get >>= g') :=
  fun s t hR => h s t hR s t hR

theorem sim_ite {p : Prop} [Decidable p] {x x' : Prog ε S α} {y y' : Prog ε T α} (h : Sim R x y)
    (h' : Sim R x' y') : Sim R (if p then x else x') (if p then y else y') := by
  by_cases hp : p <;> simpa [hp]

theorem sim_forM {xs : List α} {x : α → Prog ε S Unit} {y : α → Prog ε T Unit}
    (h : ∀ a, Sim R (x a) (y a)) : Sim R (xs.forM x) (xs.forM y) := by
  induction xs with
  | nil => exact sim_pure _
  | cons a xs ih => exact (h a).bind fun _ => ih

/-- Related programs on parts of the states. -/
theorem Sim.zoom {S' T' : Type} {R' : S' → T' → Prop} {view : S → S'} {put : S' → S → S}
    {view' : T → T'} {put' : T' → T → T} {x : Prog ε S' α} {y : Prog ε T' α} (h : Sim R' x y)
    (hview : ∀ s t, R s t → R' (view s) (view' t))
    (hput : ∀ s t u w, R s t → R' u w → R (put u s) (put' w t)) :
    Sim R (zoom view put x) (zoom view' put' y) := fun s t hR =>
  ⟨(h _ _ (hview s t hR)).1, hput s t _ _ hR (h _ _ (hview s t hR)).2⟩

theorem Sim.attempt {x : Prog ε S α} {y : Prog ε T α} (h : Sim R x y) :
    Sim R (Prog.attempt x) (Prog.attempt y) := fun s t hR =>
  ⟨congrArg Except.ok (h s t hR).1, (h s t hR).2⟩

theorem Sim.catching {x : Prog ε S α} {y : Prog ε T α} {g : ε → Option (Prog ε S α)}
    {g' : ε → Option (Prog ε T α)} (h : Sim R x y)
    (hg : ∀ e, Sim R ((g e).getD (raise e)) ((g' e).getD (raise e))) :
    Sim R (Prog.catching x g) (Prog.catching y g') := by
  intro s t hR
  obtain ⟨h1, h2⟩ := h s t hR
  unfold Prog.catching
  rcases hx : x s with ⟨e | a, u⟩ <;> rcases hy : y t with ⟨e' | b, w⟩ <;>
    simp only [hx, hy, reduceCtorEq, Except.ok.injEq, Except.error.injEq] at h1 h2
  · exact h1 ▸ hg e' u w h2
  · exact ⟨by rw [h1], h2⟩

end Sim

end TokenPlugin.Lib.Program
