import Mathlib.Data.List.Infix

/-! # A ledger with batches

A list of entries of which the first are committed, the next lie in closed batches, and the last in the
batch that is open. Entries join at the end, the oldest batch can be committed and the latest rejected,
everything uncommitted can be dropped, and a ledger with nothing uncommitted can be extended. `ok L t`
says that `t` may follow the entries `L`; it is asked of each entry when it joins.

What the rest uses: whatever is in the ledger after a run, committed or not, has joined validly
(`Run.follows`), and what is committed stays (`Run.prefix_committed`). -/

namespace TokenPlugin.Lib.StagedLedger

variable {T : Type}

/-- The entries that are committed, the closed batches of uncommitted ones, oldest first, and the entries
of the open batch. -/
@[ext] structure Ledger (T : Type) where
  committed : List T
  batches : List (List T)
  opened : List T

/-- What can happen to a ledger. -/
inductive Event (T : Type)
  | append (ts : List T)
  | close
  | reject
  | commit
  | drop
  | extend (ts : List T)

namespace Ledger

/-- No entries. -/
def empty : Ledger T := ⟨[], [], []⟩

/-- All entries, committed first. -/
def all (s : Ledger T) : List T := s.committed ++ s.batches.flatten ++ s.opened

/-- The ledger after an event. -/
def next (s : Ledger T) : Event T → Ledger T
  | .append ts => { s with opened := s.opened ++ ts }
  | .close => { s with batches := s.batches ++ [s.opened], opened := [] }
  | .reject => { s with batches := s.batches.dropLast }
  | .commit => { s with committed := s.committed ++ s.batches.head?.getD [], batches := s.batches.tail }
  | .drop => ⟨s.committed, [], []⟩
  | .extend ts => { s with committed := s.committed ++ ts }

end Ledger

/-! ### Entries that may follow -/

section Follows
variable (ok : List T → T → Prop)

/-- The entries may follow, one after the other. -/
def Follows : List T → List T → Prop
  | _, [] => True
  | L, t :: ts => ok L t ∧ Follows (L ++ [t]) ts

variable {ok}

theorem follows_append {L M N : List T} :
    Follows ok L (M ++ N) ↔ Follows ok L M ∧ Follows ok (L ++ M) N := by
  induction M generalizing L with
  | nil => simp [Follows]
  | cons t M ih => simp [Follows, ih, and_assoc]

theorem follows_concat {L M : List T} {t : T} :
    Follows ok L (M ++ [t]) ↔ Follows ok L M ∧ ok (L ++ M) t := by
  simp [follows_append, Follows]

theorem Follows.of_prefix {L M N : List T} (h : Follows ok L N) (hp : M <+: N) : Follows ok L M := by
  obtain ⟨R, rfl⟩ := hp
  exact (follows_append.mp h).1

end Follows

/-! ### Runs -/

section Runs
variable (ok : List T → T → Prop)

/-- When an event can happen. Batches are rejected and committed only while none is open. -/
def Allowed (s : Ledger T) : Event T → Prop
  | .append ts => Follows ok s.all ts
  | .close | .drop => True
  | .reject | .commit => s.batches ≠ [] ∧ s.opened = []
  | .extend ts => s.batches = [] ∧ s.opened = [] ∧ Follows ok s.committed ts

/-- The events can happen one after the other, and lead from the first ledger to the last. -/
def Run : Ledger T → List (Event T) → Ledger T → Prop
  | s, [], s' => s = s'
  | s, e :: es, s' => Allowed ok s e ∧ Run (s.next e) es s'

variable {ok} {s s' : Ledger T} {e : Event T} {es : List (Event T)}

theorem run_concat : Run ok s (es ++ [e]) s' ↔
    ∃ m, Run ok s es m ∧ Allowed ok m e ∧ s' = m.next e := by
  induction es generalizing s with
  | nil => simp [Run, eq_comm]
  | cons d es ih =>
    simp only [List.cons_append, Run, ih]
    constructor
    · rintro ⟨hd, m, hr, hm⟩
      exact ⟨m, ⟨hd, hr⟩, hm⟩
    · rintro ⟨m, ⟨hd, hr⟩, hm⟩
      exact ⟨hd, m, hr, hm⟩

theorem prefix_flatten_dropLast (bs : List (List T)) : bs.dropLast.flatten <+: bs.flatten := by
  rcases List.eq_nil_or_concat' bs with rfl | ⟨bs, b, rfl⟩
  · exact List.prefix_rfl
  · rw [List.dropLast_concat, List.flatten_append]
    exact List.prefix_append _ _

/-- One event keeps the ledger valid. -/
theorem follows_next (h : Follows ok [] s.all) (ha : Allowed ok s e) :
    Follows ok [] (s.next e).all := by
  cases e with
  | append ts =>
    have hall : (s.next (.append ts)).all = s.all ++ ts := by simp [Ledger.next, Ledger.all]
    rw [hall]
    exact follows_append.mpr ⟨h, ha⟩
  | close =>
    have hall : (s.next .close).all = s.all := by simp [Ledger.next, Ledger.all]
    rwa [hall]
  | reject =>
    refine h.of_prefix ?_
    show s.committed ++ s.batches.dropLast.flatten ++ s.opened <+: _
    rw [Ledger.all, ha.2, List.append_nil, List.append_nil]
    exact (List.prefix_append_right_inj _).mpr (prefix_flatten_dropLast _)
  | commit =>
    have hall : (s.next .commit).all = s.all := by
      obtain ⟨b, bs, hb⟩ := List.exists_cons_of_ne_nil ha.1
      simp [Ledger.next, Ledger.all, hb]
    rwa [hall]
  | drop =>
    refine h.of_prefix ?_
    rw [Ledger.all, List.append_assoc]
    simp [Ledger.next, Ledger.all]
  | extend ts =>
    obtain ⟨hb, ho, ht⟩ := ha
    have hall : s.all = s.committed := by simp [Ledger.all, hb, ho]
    have hnext : (s.next (.extend ts)).all = s.committed ++ ts := by
      simp [Ledger.next, Ledger.all, hb, ho]
    rw [hall] at h
    rw [hnext]
    exact follows_append.mpr ⟨h, ht⟩

/-- **Everything in the ledger has joined validly.** -/
theorem Run.follows (h : Run ok s es s') (hs : Follows ok [] s.all) : Follows ok [] s'.all := by
  induction es generalizing s with
  | nil => exact (show s = s' from h) ▸ hs
  | cons e es ih => exact ih h.2 (follows_next hs h.1)

theorem prefix_committed_next (s : Ledger T) (e : Event T) : s.committed <+: (s.next e).committed := by
  cases e with
  | append | close | reject | drop => exact List.prefix_rfl
  | commit | extend => exact List.prefix_append _ _

/-- **What is committed stays.** -/
theorem Run.prefix_committed (h : Run ok s es s') : s.committed <+: s'.committed := by
  induction es generalizing s with
  | nil => exact (show s = s' from h) ▸ List.prefix_rfl
  | cons e es ih => exact (prefix_committed_next s e).trans (ih h.2)

end Runs

/-! ### Batches by their sizes -/

section Cut

/-- A list cut where the sizes say, counted from `k`; the last part is what is left. -/
def cut (k : ℕ) : List ℕ → List T → List (List T) × List T
  | [], xs => ([], xs)
  | m :: ms, xs => (xs.take (m - k) :: (cut m ms (xs.drop (m - k))).1, (cut m ms (xs.drop (m - k))).2)

/-- Parts in a row are cut out again at the sizes up to the end of each. -/
theorem cut_flatten {R : Type} {part : R → List T} {size : R → ℕ} {rs : List R} {rest : List T} {k : ℕ}
    (hs : ∀ (qs : List R) (r : R), qs ++ [r] <+: rs →
      size r = k + (qs.flatMap part).length + (part r).length) :
    cut k (rs.map size) (rs.flatMap part ++ rest) = (rs.map part, rest) := by
  induction rs generalizing k with
  | nil => rfl
  | cons r rs ih =>
    have hr := hs [] r (by simp)
    simp only [List.flatMap_nil, List.length_nil, Nat.add_zero] at hr
    have htake : (List.flatMap part (r :: rs) ++ rest).take (size r - k) = part r := by
      rw [List.flatMap_cons, List.append_assoc, hr, Nat.add_sub_cancel_left, List.take_left]
    have hdrop : (List.flatMap part (r :: rs) ++ rest).drop (size r - k) = rs.flatMap part ++ rest := by
      rw [List.flatMap_cons, List.append_assoc, hr, Nat.add_sub_cancel_left, List.drop_left]
    have htail := @ih (size r) fun qs q hq => by
      have := hs (r :: qs) q (by simpa using hq)
      rw [this, hr, List.flatMap_cons, List.length_append]
      omega
    rw [List.map_cons, cut, htake, hdrop, htail]
    rfl

end Cut

end TokenPlugin.Lib.StagedLedger
