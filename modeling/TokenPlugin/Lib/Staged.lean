import Mathlib.Data.List.Basic
import Mathlib.Logic.Function.Basic

/-! # Uncommitted work over a committed base

Four structures for state that is staged in batches, the oldest of which can be committed and the
latest rejected:

* `Overlay`, a key-value store under a queue of batches of writes and the writes of the batch that
  is still open;
* `Log`, a list of entries with an uncommitted tail;
* `Track`, what is known of the committed base and after each uncommitted batch;
* `Linked`, a list of records each of which starts where the one before it ended. -/

namespace TokenPlugin.Lib.Staged

/-! ### Writes -/

section Writes
variable {K V I : Type} [DecidableEq K]

/-- Writes in the order they were made. -/
abbrev Writes (K V : Type) := List (K × V)

/-- A map after a list of writes. -/
def writeAll (m : K → Option V) (ws : Writes K V) : K → Option V :=
  ws.foldl (fun m w => Function.update m w.1 (some w.2)) m

/-- A map after the writes of a queue of batches, oldest first. -/
def through (bs : List (I × Writes K V)) (m : K → Option V) : K → Option V :=
  bs.foldl (fun m b => writeAll m b.2) m

@[simp] theorem writeAll_nil (m : K → Option V) : writeAll m [] = m := rfl

@[simp] theorem writeAll_concat (m : K → Option V) (ws : Writes K V) (k : K) (v : V) :
    writeAll m (ws ++ [(k, v)]) = Function.update (writeAll m ws) k (some v) := by
  simp [writeAll]

@[simp] theorem through_nil (m : K → Option V) :
    through ([] : List (I × Writes K V)) m = m := rfl

@[simp] theorem through_cons (b : I × Writes K V) (bs : List (I × Writes K V)) (m : K → Option V) :
    through (b :: bs) m = through bs (writeAll m b.2) := rfl

theorem through_append (bs bs' : List (I × Writes K V)) (m : K → Option V) :
    through (bs ++ bs') m = through bs' (through bs m) := List.foldl_append ..

@[simp] theorem through_concat (bs : List (I × Writes K V)) (b : I × Writes K V)
    (m : K → Option V) : through (bs ++ [b]) m = writeAll (through bs m) b.2 := by
  rw [through_append]; rfl

end Writes

/-! ### The overlay -/

/-- A store, the closed batches over it, oldest first, and the writes of the open batch. -/
structure Overlay (K V I : Type) where
  store : K → Option V
  batches : List (I × Writes K V)
  ops : Writes K V

namespace Overlay
variable {K V I : Type} [DecidableEq K]

/-- Nothing stored, nothing pending. -/
def empty : Overlay K V I := ⟨fun _ => none, [], []⟩

/-- What an uncommitted read sees. -/
def read (o : Overlay K V I) : K → Option V := writeAll (through o.batches o.store) o.ops

/-- What a read sees, committed or not. -/
def get (o : Overlay K V I) (committed : Bool) : K → Option V :=
  if committed then o.store else o.read

/-- A write, straight to the store or into the open batch. -/
def set (o : Overlay K V I) (committed : Bool) (k : K) (v : V) : Overlay K V I :=
  if committed then { o with store := Function.update o.store k (some v) }
  else { o with ops := o.ops ++ [(k, v)] }

/-- The open batch joins the queue. -/
def close (o : Overlay K V I) (i : I) : Overlay K V I :=
  { o with batches := o.batches ++ [(i, o.ops)], ops := [] }

/-- The oldest batch is written to the store. -/
def commit (o : Overlay K V I) : Option (Overlay K V I) :=
  match o.batches with
  | [] => none
  | b :: bs => some { o with store := writeAll o.store b.2, batches := bs }

/-- The latest batch is dropped. -/
def reject (o : Overlay K V I) : Option (Overlay K V I) :=
  if o.batches = [] then none else some { o with batches := o.batches.dropLast }

/-- The identifier of the oldest batch. -/
def firstIdr (o : Overlay K V I) : Option I := o.batches.head?.map Prod.fst

@[simp] theorem read_set_false (o : Overlay K V I) (k : K) (v : V) :
    (o.set false k v).read = Function.update o.read k (some v) := by
  simp [set, read]

@[simp] theorem store_set_false (o : Overlay K V I) (k : K) (v : V) :
    (o.set false k v).store = o.store := rfl

@[simp] theorem store_set_true (o : Overlay K V I) (k : K) (v : V) :
    (o.set true k v).store = Function.update o.store k (some v) := rfl

@[simp] theorem batches_set (o : Overlay K V I) (c : Bool) (k : K) (v : V) :
    (o.set c k v).batches = o.batches := by cases c <;> rfl

@[simp] theorem ops_set_true (o : Overlay K V I) (k : K) (v : V) :
    (o.set true k v).ops = o.ops := rfl

@[simp] theorem read_close (o : Overlay K V I) (i : I) : (o.close i).read = o.read := by
  simp [close, read]

end Overlay

/-! ### The log -/

/-- The entries that are committed and those that are not yet, in order. -/
structure Log (T : Type) where
  committed : List T
  uncommitted : List T

namespace Log
variable {T : Type}

/-- No entries. -/
def empty : Log T := ⟨[], []⟩

/-- All entries, committed first. -/
def all (l : Log T) : List T := l.committed ++ l.uncommitted

/-- New entries are uncommitted. -/
def append (l : Log T) (ts : List T) : Log T := { l with uncommitted := l.uncommitted ++ ts }

/-- The last `n` uncommitted entries are dropped. -/
def discard (l : Log T) (n : ℕ) : Log T :=
  { l with uncommitted := l.uncommitted.take (l.uncommitted.length - n) }

/-- The first `n` uncommitted entries become committed. -/
def commit (l : Log T) (n : ℕ) : Log T :=
  ⟨l.committed ++ l.uncommitted.take n, l.uncommitted.drop n⟩

@[simp] theorem all_append (l : Log T) (ts : List T) : (l.append ts).all = l.all ++ ts := by
  simp [append, all]

@[simp] theorem committed_append (l : Log T) (ts : List T) :
    (l.append ts).committed = l.committed := rfl

@[simp] theorem committed_discard (l : Log T) (n : ℕ) : (l.discard n).committed = l.committed := rfl

@[simp] theorem all_commit (l : Log T) (n : ℕ) : (l.commit n).all = l.all := by
  simp [commit, all]

/-- Discarding the entries of the last append. -/
theorem all_discard {l : Log T} {xs ts : List T} (hc : l.committed <+: xs)
    (h : l.all = xs ++ ts) : (l.discard ts.length).all = xs := by
  obtain ⟨us, rfl⟩ := hc
  have hu : l.uncommitted = us ++ ts := by
    rw [all, List.append_assoc] at h
    exact List.append_cancel_left h
  simp [discard, all, hu]

/-- Committing the entries of the first append. -/
theorem committed_commit {l : Log T} {ts rest : List T} (h : l.all = l.committed ++ ts ++ rest) :
    (l.commit ts.length).committed = l.committed ++ ts := by
  have hu : l.uncommitted = ts ++ rest := by
    rw [all, List.append_assoc] at h
    exact List.append_cancel_left h
  simp [commit, hu]

end Log

/-! ### The tracker -/

/-- What is known of a state: its root, the root of its log, and the size of its log. -/
structure Mark (R H : Type) where
  root : R
  logRoot : H
  size : ℕ

/-- The committed base and the state after each uncommitted batch, oldest first. -/
structure Track (R H : Type) where
  last : Mark R H
  pending : List (Mark R H)

namespace Track
variable {R H : Type}

/-- A batch joins the queue. -/
def apply (t : Track R H) (m : Mark R H) : Track R H := { t with pending := t.pending ++ [m] }

/-- The oldest batch becomes the base: its roots, and by how much it grew the log. -/
def commit (t : Track R H) : Option (R × H × ℕ) × Track R H :=
  match t.pending with
  | [] => (none, t)
  | m :: ms => (some (m.root, m.logRoot, m.size - t.last.size), ⟨m, ms⟩)

/-- The latest batch is dropped: the roots before it, and by how much it had grown the log. -/
def reject (t : Track R H) : Option (R × H × ℕ) × Track R H :=
  match t.pending.getLast? with
  | none => (none, t)
  | some m =>
    let ms := t.pending.dropLast
    let prev := ms.getLast?.getD t.last
    (some (prev.root, prev.logRoot, m.size - prev.size), { t with pending := ms })

end Track

/-! ### Records in a row -/

section Linked
variable {R X : Type} (before after : R → X)

/-- The records lead from the first point to the last, each starting where the one before it ended. -/
def Linked : X → List R → X → Prop
  | x, [], y => x = y
  | x, r :: rs, y => before r = x ∧ Linked (after r) rs y

variable {before after}

theorem linked_concat {rs : List R} {r : R} {x z : X} :
    Linked before after x (rs ++ [r]) z ↔ Linked before after x rs (before r) ∧ after r = z := by
  induction rs generalizing x with
  | nil => simp [Linked, eq_comm]
  | cons r' rs ih => simp [Linked, ih, and_assoc]

theorem Linked.last {rs : List R} {x y : X} (h : Linked before after x rs y) :
    y = (rs.getLast?.map after).getD x := by
  rcases List.eq_nil_or_concat' rs with rfl | ⟨rs, r, rfl⟩
  · exact Eq.symm h
  · simp [(linked_concat.mp h).2]

/-- What holds of the first point and is kept by every record holds of the last. -/
theorem Linked.carry {rs : List R} {x y : X} {p : X → Prop} (h : Linked before after x rs y)
    (hx : p x) (hr : ∀ r ∈ rs, p (before r) → p (after r)) : p y := by
  induction rs generalizing x with
  | nil => exact h ▸ hx
  | cons r rs ih =>
    obtain ⟨rfl, h⟩ := h
    exact ih h (hr r List.mem_cons_self hx) fun r' hr' => hr r' (List.mem_cons_of_mem _ hr')

/-- A log that every record extends is extended from the first point to the last. -/
theorem Linked.append {T : Type} {rs : List R} {x y : X} {f : X → List T} {g : R → List T}
    (h : Linked before after x rs y) (hr : ∀ r ∈ rs, f (after r) = f (before r) ++ g r) :
    f y = f x ++ rs.flatMap g := by
  induction rs generalizing x with
  | nil => simp [show x = y from h]
  | cons r rs ih =>
    obtain ⟨rfl, h⟩ := h
    rw [ih h fun r' hr' => hr r' (List.mem_cons_of_mem _ hr'), hr r List.mem_cons_self]
    simp

/-- A map that every record writes to, seen through the queue of the records that wrote. -/
theorem Linked.through {K V I : Type} [DecidableEq K] {rs : List R} {x y : X}
    {f : X → K → Option V} {g : R → Option (I × Writes K V)} (h : Linked before after x rs y)
    (hr : ∀ r ∈ rs, f (after r) = through (g r).toList (f (before r))) :
    through (rs.filterMap g) (f x) = f y := by
  induction rs generalizing x with
  | nil => simp [show x = y from h]
  | cons r rs ih =>
    obtain ⟨rfl, h⟩ := h
    have hr' := hr r List.mem_cons_self
    rw [← ih h fun r' hr' => hr r' (List.mem_cons_of_mem _ hr'), hr']
    cases hg : g r <;> simp [hg]

end Linked

end TokenPlugin.Lib.Staged
