import TokenPlugin.Reference

/-! # Rejecting a batch restores the state before it

Whatever happens between the closing of a batch and its rejection, batches on top of it that are closed
and rejected, older ones that are committed, the rejection leads back to the token state, the token
ledger and the uncommitted cache that the first request of the batch found. -/

namespace TokenPlugin.Properties.Restoration

open Python Token.Types Database Node Steps Effects Invariant Rejecting Runs Lib.Program Lib.Staged
open Reference

variable {P : Platform} {n n₁ n₂ m m' : Node P} {g : Trace P} {l : LedgerId} {k older later : ℕ}

/-! ### Between two batches -/

/-- What holds at every point between batches: no write of the cache is pending, the tracker has the
head, the root and the size that each uncommitted batch left, and the cache has a batch for each of
those that wrote to it. -/
structure Between (n : Node P) (g : Trace P) : Prop where
  batches : n.batches = g.pending.map BatchRec.plenumBatch
  ops : (P.cache.contents n.stores.utxoCache).ops = []
  tracker : (P.tracker.contents n.tokenTracker).pending = g.pending.map fun r => (point r.after).mark
  cache : (P.cache.contents n.stores.utxoCache).batches.map Prod.fst =
    (g.pending.filter fun r => r.Touched).map fun r => (point r.after).head

/-- The batches of the cache are named by the heads that the batches left. -/
theorem map_fst_cacheBatch {rs : List (BatchRec P)} (h : ∀ r ∈ rs, RecOk r) :
    (rs.filterMap BatchRec.cacheBatch).map Prod.fst =
      (rs.filter fun r => r.Touched).map fun r => (point r.after).head := by
  induction rs with
  | nil => rfl
  | cons r rs ih =>
    have hrest := ih fun s hs => h s (List.mem_cons_of_mem _ hs)
    by_cases ht : r.Touched
    · obtain ⟨ws, hb, -⟩ := (h r List.mem_cons_self).touched ht
      rw [List.filterMap_cons, hb, List.filter_cons_of_pos (by simpa using ht), List.map_cons,
        List.map_cons, hrest]
    · rw [List.filterMap_cons, BatchRec.cacheBatch, if_neg ht,
        List.filter_cons_of_neg (by simpa using ht), hrest]

theorem between {Q : Token.History.Entry → Token.Views.View → Prop} (h : Inv Q n g)
    (ho : n.openBatch = none) : Between n g where
  batches := h.batches
  ops := (h.start ho).2.2
  tracker := by rw [h.tracker]
  cache := by rw [h.cache, map_fst_cacheBatch h.queue.ok]

/-! ### A batch, and what comes after it -/

/-- Requests for a ledger are applied to a node. -/
inductive Filled (l : LedgerId) (n : Node P) : Node P → Prop
  | nil : Filled l n n
  | apply {m m' : Node P} {r : Request} {version : XferVersion} {auths : List AuthConstraint} {time : ℤ}
      (h : Filled l n m) (hl : ledgerOf r.operation = some l)
      (he : Enabled m (.apply r version auths time))
      (hs : Returns (step (.apply r version auths time)) m () m') : Filled l n m'

/-- A batch of the ledger, which may be empty, is applied and closed. -/
def Batch (l : LedgerId) (n n' : Node P) : Prop :=
  ∃ m, Filled l n m ∧ Enabled m (.close l) ∧ Returns (step (.close l)) m () n'

/-- The steps after a batch has been closed on top of `k` others. `older` of these are still there, and
so are `later` batches that were closed after it. -/
inductive Since (n : Node P) (k : ℕ) : ℕ → ℕ → Node P → Prop
  | closed : Since n k k 0 n
  | apply {older later : ℕ} {m m' : Node P} {r : Request} {version : XferVersion}
      {auths : List AuthConstraint} {time : ℤ} (h : Since n k older later m)
      (he : Enabled m (.apply r version auths time))
      (hs : Returns (step (.apply r version auths time)) m () m') : Since n k older later m'
  | config {older later : ℕ} {m m' : Node P} {fees : FeesMap} (h : Since n k older later m)
      (he : Enabled m (.config fees)) (hs : Returns (step (.config fees)) m () m') :
      Since n k older later m'
  | close {older later : ℕ} {m m' : Node P} {l : LedgerId} (h : Since n k older later m)
      (he : Enabled m (.close l)) (hs : Returns (step (.close l)) m () m') :
      Since n k older (later + 1) m'
  | reject {older later : ℕ} {m m' : Node P} (h : Since n k older (later + 1) m)
      (he : Enabled m .reject) (hs : Returns (step .reject) m () m') : Since n k older later m'
  | commit {older later : ℕ} {m m' : Node P} (h : Since n k (older + 1) later m)
      (he : Enabled m .commit) (hs : Returns (step .commit) m () m') : Since n k older later m'

/-- A request for one of the ledgers leaves the batch open. -/
theorem openBatch_of_apply {r : Request} {version : XferVersion} {auths : List AuthConstraint} {time : ℤ}
    (hl : ledgerOf r.operation = some l) (he : ApplyEffect r version auths time m m') :
    m'.openBatch.isNone = false := by
  cases he with
  | mint | xfer | domain | domainFees => rfl
  | config hop => rw [hop] at hl; cases hl

/-- While requests are applied, the record keeps the node before the first of them. -/
theorem Filled.reach (h : Filled l n m) (hr : Reach (fun _ => True) n g) (hg : g.start = n) :
    ∃ g', Reach (fun _ => True) m g' ∧ g'.start = n ∧ g'.pending = g.pending := by
  induction h with
  | nil => exact ⟨g, hr, hg, rfl⟩
  | @apply m m' r version auths time _ hl he hs ih =>
    obtain ⟨g', hr', hstart, hp⟩ := ih
    refine ⟨g'.next m m' (.apply r version auths time), .step hr' trivial he hs, ?_, hp⟩
    have hopen := openBatch_of_apply hl (applyEffect he.1 hs)
    show (if m'.openBatch.isNone then m' else g'.start) = n
    rw [hopen, ← hstart]
    rfl

/-- The batch keeps its place among the uncommitted ones. -/
theorem Since.reach (h : Since n k older later m) {r : BatchRec P}
    (hr : ∃ g os, Reach (fun _ => True) n g ∧ g.pending = os ++ [r] ∧ os.length = k) :
    ∃ g os ls, Reach (fun _ => True) m g ∧ g.pending = os ++ r :: ls ∧ os.length = older ∧
      ls.length = later := by
  induction h with
  | closed =>
    obtain ⟨g, os, hr, hp, hlen⟩ := hr
    exact ⟨g, os, [], hr, hp, hlen, rfl⟩
  | apply _ he hs ih | config _ he hs ih =>
    obtain ⟨g, os, ls, hr, hp, hrest⟩ := ih
    exact ⟨_, os, ls, .step hr trivial he hs, hp, hrest⟩
  | @close _ _ m m' l _ he hs ih =>
    obtain ⟨g, os, ls, hr, hp, hos, hls⟩ := ih
    refine ⟨_, os, ls ++ [⟨l, g.start, m', g.domain⟩], .step hr trivial he hs, ?_, hos, by simp [hls]⟩
    show g.pending ++ _ = _
    rw [hp, List.append_assoc, List.cons_append]
  | reject _ he hs ih =>
    obtain ⟨g, os, ls, hr, hp, hos, hls⟩ := ih
    obtain ⟨ls', s, rfl⟩ := (List.eq_nil_or_concat' ls).resolve_left fun hnil => by simp [hnil] at hls
    refine ⟨_, os, ls', .step hr trivial he hs, ?_, hos, by simpa using hls⟩
    show g.pending.dropLast = _
    rw [hp, ← List.cons_append, ← List.append_assoc, List.dropLast_concat]
  | commit _ he hs ih =>
    obtain ⟨g, os, ls, hr, hp, hos, hls⟩ := ih
    obtain ⟨s, os', rfl⟩ := List.exists_cons_of_length_eq_add_one hos
    refine ⟨_, os', ls, .step hr trivial he hs, ?_, by simpa using hos, hls⟩
    show g.pending.tail = _
    rw [hp]
    rfl

/-- **Rejecting a batch restores the state before it.** In every reachable state between two batches the
queues are in step, and a batch applied and closed there, rejected when every batch closed after it has
been rejected, leads back to the token state, the token ledger and the uncommitted cache of that state. -/
theorem restored (h : Reach (fun _ => True) n g) (ho : n.openBatch = none) : Between n g ∧
    ∀ {l : LedgerId} {n₁ n₂ : Node P} {older : ℕ}, Batch l n n₁ →
      Since n₁ n.batches.length older 0 n₂ → Enabled n₂ .reject →
      ∃ n₃, Returns (step .reject) n₂ () n₃ ∧ point n₃ = point n := by
  have hinv := reach_inv_true h
  refine ⟨between hinv ho, ?_⟩
  rintro l n₁ n₂ older ⟨m, hfill, hclose, hs⟩ hsince he
  obtain ⟨g', hr', hstart, hp⟩ := hfill.reach h (hinv.start ho).1
  have hlen : g.pending.length = n.batches.length := by rw [hinv.batches, List.length_map]
  obtain ⟨g₂, os, ls, hr₂, hp₂, -, hls⟩ := hsince.reach (r := ⟨l, g'.start, n₁, g'.domain⟩)
    ⟨_, g.pending, .step hr' trivial hclose hs, by rw [← hp]; rfl, hlen⟩
  obtain rfl : ls = [] := List.length_eq_zero_iff.mp hls
  obtain ⟨n₃, hn₃, hpoint, -⟩ := exists_rejectStep (reach_inv_true hr₂) he hp₂
  exact ⟨n₃, hn₃, by rw [hpoint, hstart]⟩

/-! ### A batch with a fee -/

/-- Tokens are minted, and a fee for NYM is set. -/
def minted : List Action := [.config [("nym", 10)], mint 100, .close .token]

theorem minted_isSome : (run ref minted).isSome := by decide +kernel

/-- The node after that, with the record of the run. -/
def mintedRun : Node ref × Trace ref := (run ref minted).get minted_isSome

/-- A NYM with a fee is applied. -/
def nymApplied : Node ref := (step (nymWithFees (section_ 1 90)) mintedRun.1).2

/-- Its batch is closed, an empty one is closed on top of it and rejected, and the batch of the mint is
committed. -/
def nymClosed : Node ref := (step (.close .domain) nymApplied).2

def emptyClosed : Node ref := (step (.close .token) nymClosed).2

def emptyRejected : Node ref := (step .reject emptyClosed).2

def mintCommitted : Node ref := (step .commit emptyRejected).2

theorem restored_nym : Between mintedRun.1 mintedRun.2 ∧
    ∃ n₃, Returns (step .reject) mintCommitted () n₃ ∧ point n₃ = point mintedRun.1 := by
  have hstep : ∀ {a : Action} {n : Node ref}, (step a n).1 = .ok () → Returns (step a) n () (step a n).2 :=
    fun h => Prod.ext h rfl
  obtain ⟨hbetween, hrestore⟩ := restored
    (reach_run (Option.some_get minted_isSome).symm fun _ _ => trivial) (by rfl)
  have hbatch : Batch .domain mintedRun.1 nymClosed :=
    ⟨nymApplied, .apply .nil rfl (by decide +kernel) (hstep (by decide +kernel)), by decide +kernel,
      hstep (by decide +kernel)⟩
  have hsince : Since nymClosed mintedRun.1.batches.length 0 0 mintCommitted :=
    .commit (.reject (.close .closed (by decide +kernel) (hstep (by decide +kernel)))
      (by decide +kernel) (hstep (by decide +kernel))) (by decide +kernel) (hstep (by decide +kernel))
  exact ⟨hbetween, hrestore hbatch hsince (by decide +kernel)⟩

end TokenPlugin.Properties.Restoration
