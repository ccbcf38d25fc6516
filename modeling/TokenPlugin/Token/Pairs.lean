import TokenPlugin.Token.Amounts
import TokenPlugin.Token.Views

/-! # The pairs of an address

The cache keeps a text for each address that lists pairs of a number and an amount. Here the texts may be
any. `spend_output` and `add_output` rewrite the text of one address, or raise and leave it; `spend_input`
and `add_new_output` have written to the state by then. -/

namespace TokenPlugin.Token.Pairs

open Python Token.Types Token.UtxoCache Token.TokenUtils Token.Views Token.Amounts Lib.Text Lib.Program
open Lib.Program.Prog (modify ofExcept)

variable {v v' : View} {c r : Bool} {a : Str} {s : PyInt}

/-! ### The pairs of an address -/

/-- The pairs that the cache lists for an address; none where the text is not one of pairs. -/
def pairsAt (m : Str → Option Str) (a : Str) : Option (List (Str × Str)) := pairs ':' ((m a).getD [])

theorem init_of_pairs {d : Option Str} {l : List (Str × Str)} (h : pairs ':' (d.getD []) = some l) :
    UTXOAmounts.init a d = .ok ⟨a, flat l⟩ := by
  obtain ⟨hl, hd⟩ := pairs_eq_some.mp h
  have hsame : UTXOAmounts.init a d = UTXOAmounts.init a (some (d.getD [])) := by
    cases d <;> rfl
  rw [hsame, hd]
  exact init_render hl

theorem init_of_not_pairs {d : Option Str} (h : pairs ':' (d.getD []) = none) :
    ∃ e, UTXOAmounts.init a d = .error e := by
  unfold pairs fields at h
  unfold UTXOAmounts.init
  split
  · next hnil => simp [hnil] at h
  · next hne =>
    have hempty : (d.getD []).isEmpty ≠ true := fun he => hne (List.isEmpty_iff.mp he)
    rw [if_neg hempty] at h
    split_ifs at h with hodd
    exact ⟨_, if_neg hodd⟩

/-- `get_amounts` with leave to make a new list. -/
theorem amountsOf_true (a : Str) (d : Option Str) : amountsOf a true d = UTXOAmounts.init a d := by
  cases d <;> rfl

theorem returns_getAmounts {b : Bool} {u : UTXOAmounts} :
    Returns (getAmounts a b c) v u v' ↔ amountsOf a b (v.cache a) = .ok u ∧ v = v' := by
  unfold getAmounts
  simp [TokenStores.cacheGet, and_comm]

/-- A text that lists some pairs is determined by them. -/
theorem eq_of_pairsAt {m m' : Str → Option Str} {l : List (Str × Str)} (h : pairsAt m a = some l)
    (h' : pairsAt m' a = some l) (hne : l ≠ []) : m a = m' a := by
  have hsome : ∀ m : Str → Option Str, pairsAt m a = some l → m a = some (render ':' l) := by
    intro m hm
    have htext := (pairs_eq_some.mp hm).2
    cases hma : m a with
    | none =>
      rw [hma] at htext
      exact absurd (render_eq_nil.mp htext.symm) hne
    | some t =>
      rw [hma] at htext
      exact congrArg some htext
  rw [hsome m h, hsome m' h']

theorem pairsAt_update_self {m : Str → Option Str} {l : List (Str × Str)} (h : Clean ':' l) :
    pairsAt (Function.update m a (some (render ':' l))) a = some l := by
  rw [pairsAt, Function.update_self]
  exact pairs_render h

theorem pairsAt_update_of_ne {m : Str → Option Str} {b : Str} (h : b ≠ a) (t : Option Str) :
    pairsAt (Function.update m a t) b = pairsAt m b := by
  rw [pairsAt, Function.update_of_ne h, pairsAt]

/-! ### A write to both stores -/

/-- A value is written to the state, and then the text of an address is rewritten in the cache, which may
raise. -/
def writeBoth (k : Str) (x : Option Str) (a : Str) (f : Option Str → Except PyErr Str) : Py View Unit :=
  fun v => ((f (v.cache a)).map fun _ => (), ⟨Function.update v.state k x,
    match f (v.cache a) with
    | .ok t => Function.update v.cache a (some t)
    | .error _ => v.cache⟩)

section WriteBoth
variable {k : Str} {x : Option Str} {f : Option Str → Except PyErr Str}

theorem returns_writeBoth : Returns (writeBoth k x a f) v () v' ↔ ∃ t, f (v.cache a) = .ok t ∧
    v' = ⟨Function.update v.state k x, Function.update v.cache a (some t)⟩ := by
  unfold Returns writeBoth
  rcases f (v.cache a) with e | t
  · simp [Except.map]
  · simp [Except.map, eq_comm]

theorem raises_writeBoth : Raises (writeBoth k x a f) v v' ↔ (¬∃ t, f (v.cache a) = .ok t) ∧
    v' = ⟨Function.update v.state k x, v.cache⟩ := by
  unfold Raises writeBoth
  rcases f (v.cache a) with e | t
  · simp [Except.map, eq_comm]
  · simp [Except.map]

end WriteBoth

/-- The text of an address after a change of what it lists. -/
def rewritten (a : Str) (makeNew : Bool) (g : UTXOAmounts → Except PyErr UTXOAmounts) (data : Option Str) :
    Except PyErr Str := do
  let u ← amountsOf a makeNew data
  let u ← g u
  u.asStr

section Stores
variable {S : Type} [TokenStores S]

/-- Reading the text of an address, changing it and writing it back. -/
theorem rewriteCache_eq {b : Bool} {g : UTXOAmounts → Except PyErr UTXOAmounts} (w : S) :
    (getAmounts a b c >>= fun u => ofExcept (g u) >>= fun u => ofExcept u.asStr >>= fun t =>
      modify fun s => TokenStores.cacheSet s a t c : Py S Unit) w =
      ((rewritten a b g (TokenStores.cacheGet w a c)).map fun _ => (),
        match rewritten a b g (TokenStores.cacheGet w a c) with
        | .ok t => TokenStores.cacheSet w a t c
        | .error _ => w) := by
  simp only [getAmounts, rewritten, bind, Prog.andThen, Prog.get, Prog.ofExcept, Except.bind]
  rcases amountsOf a b (TokenStores.cacheGet w a c) with e | u
  · rfl
  · rcases hu : g u with e | u'
    · simp only [hu]
      rfl
    · simp only [hu]
      rcases u'.asStr with e | t <;> rfl

end Stores

/-! ### One input -/

/-- What becomes of the value under a spent key. -/
def blank (r : Bool) : Option Str := if r then none else some []

/-- The cache lists the number under the address. -/
def Listed (m : Str → Option Str) (a : Str) (s : PyInt) (l : List (Str × Str)) : Prop :=
  pairsAt m a = some l ∧ s.str ∈ l.map Prod.fst

/-- The pairs without the first one of a number. -/
def without (s : PyInt) (l : List (Str × Str)) : List (Str × Str) := l.eraseP (·.1 = s.str)

theorem clean_without {l : List (Str × Str)} (h : Clean ':' l) : Clean ':' (without s l) := fun p hp =>
  h p (List.mem_of_mem_eraseP hp)

/-- What `spend_output` makes of the text of an address. -/
def spentText (a : Str) (s : PyInt) : Option Str → Except PyErr Str := rewritten a false (·.removeSeqNo s)

theorem spentText_eq_ok {m : Str → Option Str} {t : Str} :
    spentText a s (m a) = .ok t ↔ ∃ l, Listed m a s l ∧ t = render ':' (without s l) := by
  unfold spentText rewritten Listed pairsAt
  cases hma : m a with
  | none => simp [amountsOf, bind, Except.bind, pairs, fields, unflat]
  | some data =>
    cases hl : pairs ':' data with
    | none =>
      obtain ⟨e, he⟩ := init_of_not_pairs (a := a) (d := some data) hl
      simp [amountsOf, he, bind, Except.bind, hl]
    | some l =>
      have hinit := init_of_pairs (a := a) (d := some data) hl
      simp only [amountsOf, hinit, bind, Except.bind, Option.getD_some, hl, Option.some.injEq,
        exists_eq_left', and_assoc]
      by_cases hs : s.str ∈ l.map Prod.fst
      · simp only [removeSeqNo_flat hs, asStr_flat, hs, true_and, Except.ok.injEq]
        exact eq_comm
      · obtain ⟨msg, hmsg⟩ := removeSeqNo_flat_of_notMem (a := a) hs
        simp [hmsg, hs]

/-- **`spend_output`.** -/
theorem spendOutput_eq {S : Type} [TokenStores S] (x : Option PyInt) (w : S) : spendOutput ⟨a, s, x⟩ c w =
    ((spentText a s (TokenStores.cacheGet w a c)).map fun _ => (),
      match spentText a s (TokenStores.cacheGet w a c) with
      | .ok t => TokenStores.cacheSet w a t c
      | .error _ => w) := rewriteCache_eq w

theorem spendInput_eq :
    spendInput a s c r = writeBoth (createStateKey a s) (blank r) a (spentText a s) := by
  have hrest : ∀ (k : Str) (x : Option Str) (v : View),
      spendOutput ⟨a, s, none⟩ c (⟨Function.update v.state k x, v.cache⟩ : View) =
        writeBoth k x a (spentText a s) v := fun k x v => by
    refine (spendOutput_eq none _).trans ?_
    unfold writeBoth
    show ((spentText a s (v.cache a)).map fun _ => (), _) = _
    rcases spentText a s (v.cache a) with e | t <;> rfl
  funext v
  unfold spendInput blank
  cases r
  · exact hrest _ _ v
  · exact hrest _ _ v

/-- **Spending an input.** -/
theorem returns_spendInput : Returns (spendInput a s c r) v () v' ↔ ∃ l, Listed v.cache a s l ∧
    v' = ⟨Function.update v.state (createStateKey a s) (blank r),
      Function.update v.cache a (some (render ':' (without s l)))⟩ := by
  rw [spendInput_eq, returns_writeBoth]
  simp only [spentText_eq_ok]
  constructor
  · rintro ⟨_, ⟨l, hl, rfl⟩, rfl⟩
    exact ⟨l, hl, rfl⟩
  · rintro ⟨l, hl, rfl⟩
    exact ⟨_, ⟨l, hl, rfl⟩, rfl⟩

/-- **Where spending an input raises**, its key has been written already. -/
theorem raises_spendInput : Raises (spendInput a s c r) v v' ↔ (¬∃ l, Listed v.cache a s l) ∧
    v' = ⟨Function.update v.state (createStateKey a s) (blank r), v.cache⟩ := by
  rw [spendInput_eq, raises_writeBoth]
  simp only [spentText_eq_ok]
  exact and_congr_left fun _ => not_congr ⟨fun ⟨_, l, hl, _⟩ => ⟨l, hl⟩, fun ⟨l, hl⟩ => ⟨_, l, hl, rfl⟩⟩

/-! ### One output -/

/-- What `add_output` makes of the text of an address. -/
def addedText (a : Str) (s x : PyInt) : Option Str → Except PyErr Str :=
  rewritten a true (·.addAmount s (some x))

theorem addedText_eq_ok {m : Str → Option Str} {x : PyInt} {t : Str} : addedText a s x (m a) = .ok t ↔
    ∃ l, pairsAt m a = some l ∧ t = render ':' (l ++ [(s.str, x.str)]) := by
  unfold addedText rewritten pairsAt
  rw [amountsOf_true]
  cases hl : pairs ':' ((m a).getD []) with
  | none =>
    obtain ⟨e, he⟩ := init_of_not_pairs (a := a) hl
    simp [he, bind, Except.bind]
  | some l =>
    simp only [init_of_pairs hl, bind, Except.bind, addAmount_flat, asStr_flat, Except.ok.injEq,
      Option.some.injEq, exists_eq_left']
    exact eq_comm

/-- **`add_output`.** -/
theorem addOutput_eq {S : Type} [TokenStores S] {x : PyInt} (w : S) : addOutput ⟨a, s, some x⟩ c w =
    ((addedText a s x (TokenStores.cacheGet w a c)).map fun _ => (),
      match addedText a s x (TokenStores.cacheGet w a c) with
      | .ok t => TokenStores.cacheSet w a t c
      | .error _ => w) := rewriteCache_eq w

theorem addNewOutput_eq {x : PyInt} : addNewOutput ⟨a, s, some x⟩ c =
    writeBoth (createStateKey a s) (some x.str) a (addedText a s x) := by
  funext v
  refine (addOutput_eq (⟨Function.update v.state (createStateKey a s) (some x.str), v.cache⟩ : View)).trans ?_
  unfold writeBoth
  show ((addedText a s x (v.cache a)).map fun _ => (), _) = _
  rcases addedText a s x (v.cache a) with e | t <;> rfl

/-- **Adding an output.** -/
theorem returns_addNewOutput {x : PyInt} : Returns (addNewOutput ⟨a, s, some x⟩ c) v () v' ↔
    ∃ l, pairsAt v.cache a = some l ∧ v' = ⟨Function.update v.state (createStateKey a s) (some x.str),
      Function.update v.cache a (some (render ':' (l ++ [(s.str, x.str)])))⟩ := by
  rw [addNewOutput_eq, returns_writeBoth]
  simp only [addedText_eq_ok]
  constructor
  · rintro ⟨_, ⟨l, hl, rfl⟩, rfl⟩
    exact ⟨l, hl, rfl⟩
  · rintro ⟨l, hl, rfl⟩
    exact ⟨_, ⟨l, hl, rfl⟩, rfl⟩

/-- **Where adding an output raises**, its key has been written already. -/
theorem raises_addNewOutput {x : PyInt} : Raises (addNewOutput ⟨a, s, some x⟩ c) v v' ↔
    pairsAt v.cache a = none ∧
      v' = ⟨Function.update v.state (createStateKey a s) (some x.str), v.cache⟩ := by
  rw [addNewOutput_eq, raises_writeBoth]
  simp only [addedText_eq_ok, Option.eq_none_iff_forall_ne_some]
  exact and_congr_left fun _ => ⟨fun h l hl => h ⟨_, l, hl, rfl⟩, fun h ⟨_, l, hl, _⟩ => h l hl⟩

end TokenPlugin.Token.Pairs
