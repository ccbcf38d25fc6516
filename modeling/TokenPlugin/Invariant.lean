import TokenPlugin.Effects

/-! # What holds between the steps of a run

A `Point` is what batches change and rejections take back: the head of the token state, the
transactions of the token ledger, and the uncommitted reads of the cache. The uncommitted batches lead
from the committed point to the present one, each from the point where the one before it ended
(`Queue`); the queues of the cache, of the tracker and of plenum hold what these batches have left in
them (`Inv`). -/

namespace TokenPlugin.Invariant

open Python Token.Types Token.Handlers Token.Views Token.History Database Node Steps Effects
open Fees.DomainFeeHandler Lib.Program Lib.Staged

variable {P : Platform}

/-! ### Points -/

/-- A head of the token state, a token ledger, and a cache. -/
@[ext] structure Point (P : Platform) where
  head : P.state.Root
  txns : List TokenTxn
  cache : Str → Option Str

/-- The point of the uncommitted reads. -/
def point (n : Node P) : Point P :=
  ⟨P.state.headHash n.stores.tokenState, tokenTxns n, (P.cache.contents n.stores.utxoCache).read⟩

/-- The point of the committed reads. -/
def committedPoint (n : Node P) : Point P :=
  ⟨P.state.committedHeadHash n.stores.tokenState, (P.ledger.contents n.tokenLedger).committed,
    (P.cache.contents n.stores.utxoCache).store⟩

/-- The stores at a point. -/
def Point.view (x : Point P) : View := ⟨P.state.lookup x.head, x.cache⟩

/-- What the tracker keeps of a point. -/
def Point.mark (x : Point P) : Mark P.state.Root P.ledger.Hash :=
  ⟨x.head, P.ledger.treeRoot x.txns, x.txns.length⟩

/-- The stores at a point are built by its ledger, labelled as far as it goes. -/
structure BuiltAt (Q : Entry → View → Prop) (labels : List Label) (x : Point P) : Prop where
  length_le : x.txns.length ≤ labels.length
  built : Built Q (x.txns.zip labels) x.view

variable {Q : Entry → View → Prop} {labels : List Label} {x y : Point P}

theorem zip_take {α β : Type} {xs : List α} {ys : List β} {k : ℕ} (h : xs.length ≤ k) :
    xs.zip (ys.take k) = xs.zip ys := by
  induction xs generalizing ys k with
  | nil => simp
  | cons x xs ih =>
    obtain ⟨k, rfl⟩ : ∃ m, k = m + 1 := ⟨k - 1, by simp at h; omega⟩
    cases ys with
    | nil => simp
    | cons y ys => simp [ih (Nat.le_of_succ_le_succ h)]

theorem BuiltAt.take (h : BuiltAt Q labels x) {k : ℕ} (hk : x.txns.length ≤ k) :
    BuiltAt Q (labels.take k) x where
  length_le := by rw [List.length_take]; exact Nat.le_min.mpr ⟨hk, h.length_le⟩
  built := by rw [zip_take hk]; exact h.built

theorem BuiltAt.extend (h : BuiltAt Q labels x) (ls : List Label) : BuiltAt Q (labels ++ ls) x where
  length_le := by rw [List.length_append]; exact h.length_le.trans (Nat.le_add_right _ _)
  built := by
    rw [← zip_take h.length_le, List.take_left']
    · exact h.built
    · rfl

theorem BuiltAt.imp {Q' : Entry → View → Prop} (hQ : ∀ e v, Q e v → Q' e v)
    (h : BuiltAt Q labels x) : BuiltAt Q' labels x := ⟨h.length_le, h.built.imp hQ⟩

/-! ### Batches -/

/-- A FEES transaction names the domain transaction it was appended for, and has inputs. -/
def FeeOk (P : Platform) (d : DomainTxn × Option TokenTxn) : Prop :=
  ∀ t ∈ d.2, t.ref = some (getRefForTxnFees P d.1.seqNo) ∧ t.inputs ≠ []

/-- What holds of every closed batch. -/
structure RecOk (r : BatchRec P) : Prop where
  txns : tokenTxns r.after = tokenTxns r.before ++ r.newTxns
  token : r.ledgerId = .token → r.domain = []
  domain : r.ledgerId = .domain → r.newTxns = r.feeTxns
  touched : r.Touched → ∃ ws, r.cacheBatch = some ((point r.after).head, ws) ∧
    (point r.after).cache = writeAll (point r.before).cache ws
  untouched : ¬r.Touched → point r.after = point r.before
  fees : ∀ d ∈ r.domain, FeeOk P d

/-- The batches lead from one point to another. -/
structure Queue (x : Point P) (rs : List (BatchRec P)) (y : Point P) : Prop where
  linked : Linked (fun r => point r.before) (fun r => point r.after) x rs y
  ok : ∀ r ∈ rs, RecOk r

namespace Queue
variable {rs : List (BatchRec P)} {r : BatchRec P}

theorem nil : Queue x [] x := ⟨rfl, by simp⟩

theorem concat_iff : Queue x (rs ++ [r]) y ↔
    Queue x rs (point r.before) ∧ RecOk r ∧ point r.after = y := by
  constructor
  · rintro ⟨hl, hok⟩
    obtain ⟨hl, hy⟩ := linked_concat.mp hl
    exact ⟨⟨hl, fun s hs => hok s (List.mem_append_left _ hs)⟩, hok r (by simp), hy⟩
  · rintro ⟨⟨hl, hok⟩, hr, hy⟩
    refine ⟨linked_concat.mpr ⟨hl, hy⟩, fun s hs => ?_⟩
    rcases List.mem_append.mp hs with hs | hs
    · exact hok s hs
    · exact List.mem_singleton.mp hs ▸ hr

theorem cons_iff : Queue x (r :: rs) y ↔
    point r.before = x ∧ RecOk r ∧ Queue (point r.after) rs y := by
  constructor
  · rintro ⟨⟨hx, hl⟩, hok⟩
    exact ⟨hx, hok r List.mem_cons_self, hl, fun s hs => hok s (List.mem_cons_of_mem _ hs)⟩
  · rintro ⟨hx, hr, hl, hok⟩
    exact ⟨⟨hx, hl⟩, List.forall_mem_cons.mpr ⟨hr, hok⟩⟩

/-- The first of the batches lead to a point from which the others go on. -/
theorem of_append {rs' : List (BatchRec P)} (h : Queue x (rs ++ rs') y) :
    ∃ z, Queue x rs z ∧ Queue z rs' y := by
  induction rs generalizing x with
  | nil => exact ⟨x, nil, h⟩
  | cons r rs ih =>
    obtain ⟨hx, hr, h⟩ := cons_iff.mp h
    obtain ⟨z, hz, hy⟩ := ih h
    exact ⟨z, cons_iff.mpr ⟨hx, hr, hz⟩, hy⟩

/-- The queue of the cache leads to the cache of the last point. -/
theorem cache (h : Queue x rs y) : through (rs.filterMap BatchRec.cacheBatch) x.cache = y.cache := by
  refine h.linked.through (f := Point.cache) fun r hr => ?_
  by_cases ht : r.Touched
  · obtain ⟨ws, hb, hc⟩ := (h.ok r hr).touched ht
    simp [hb, hc]
  · rw [(h.ok r hr).untouched ht, BatchRec.cacheBatch, if_neg ht]
    rfl

theorem txns (h : Queue x rs y) : y.txns = x.txns ++ rs.flatMap BatchRec.newTxns :=
  h.linked.append (f := Point.txns) fun r hr => (h.ok r hr).txns

/-- The ledger only grows along the batches. -/
theorem prefix_of_mem (h : Queue x rs y) (hr : r ∈ rs) : (point r.after).txns <+: y.txns := by
  obtain ⟨rs₁, rs₂, rfl⟩ := List.append_of_mem hr
  induction rs₁ generalizing x with
  | nil =>
    obtain ⟨-, -, h⟩ := cons_iff.mp h
    rw [h.txns]
    exact List.prefix_append _ _
  | cons s rs₁ ih => exact ih (cons_iff.mp h).2.2 (by simp)

end Queue

/-! ### The invariant -/

/-- What holds while requests are applied to a batch of the ledger. -/
structure OpenOk (n : Node P) (g : Trace P) (l : LedgerId) (b : OpenBatch P)
    (newTxns : List TokenTxn) : Prop where
  prev : b.prevStateRoot = (point g.start).head
  txns : tokenTxns n = tokenTxns g.start ++ newTxns
  token : l = .token → g.domain = [] ∧ b.count = newTxns.length
  domain : l = .domain → b.count = g.domain.length ∧ newTxns = g.domain.filterMap Prod.snd
  still : l = .domain → newTxns = [] →
    point n = point g.start ∧ (P.cache.contents n.stores.utxoCache).ops = []

/-- What holds of the domain transactions and the fees tracker. -/
structure DomainOk (n : Node P) (g : Trace P) : Prop where
  uncommitted : (P.domainLedger.contents n.domainLedger).uncommitted =
    (g.pending.flatMap BatchRec.domain ++ g.domain).map Prod.fst
  seqNo : ∀ i txn, (domainTxns n)[i]? = some txn → txn.seqNo = i + 1
  marks : ∀ d ∈ g.pending.flatMap BatchRec.domain ++ g.domain, d.2.isSome →
    hasDeductedFees n.feesTracker d.1.type d.1.seqNo
  counter : n.feesTracker.feesInCurrentBatch = (g.domain.filterMap Prod.snd).length
  fees : ∀ d ∈ g.domain, FeeOk P d

/-- What holds of a node and the record of its run. -/
structure Inv (Q : Entry → View → Prop) (n : Node P) (g : Trace P) : Prop where
  labels : g.labels.length = (tokenTxns n).length
  queue : Queue (committedPoint n) g.pending (point g.start)
  base : BuiltAt Q g.labels (committedPoint n)
  pending : ∀ r ∈ g.pending, BuiltAt Q g.labels (point r.after)
  built : BuiltAt Q g.labels (point n)
  tracker : P.tracker.contents n.tokenTracker =
    ⟨(committedPoint n).mark, g.pending.map fun r => (point r.after).mark⟩
  cache : (P.cache.contents n.stores.utxoCache).batches = g.pending.filterMap BatchRec.cacheBatch
  batches : n.batches = g.pending.map BatchRec.plenumBatch
  domain : DomainOk n g
  start : n.openBatch = none → g.start = n ∧ g.domain = [] ∧
    (P.cache.contents n.stores.utxoCache).ops = []
  opened : ∀ b ∈ n.openBatch, ∃ newTxns, OpenOk n g b.ledgerId b newTxns

theorem Inv.imp {Q' : Entry → View → Prop} {n : Node P} {g : Trace P} (hQ : ∀ e v, Q e v → Q' e v)
    (h : Inv Q n g) : Inv Q' n g where
  labels := h.labels
  queue := h.queue
  base := h.base.imp hQ
  pending := fun r hr => (h.pending r hr).imp hQ
  built := h.built.imp hQ
  tracker := h.tracker
  cache := h.cache
  batches := h.batches
  domain := h.domain
  start := h.start
  opened := h.opened

end TokenPlugin.Invariant
