import TokenPlugin.Refinement

/-! # Taking back every batch

Before a view change and before a catch-up plenum rejects every uncommitted batch, the latest first. -/

namespace TokenPlugin.Properties.ViewChange

open Token.Types Token.Views Token.History Database Node Steps Invariant Runs Rejecting Replay
open Lifecycle Refinement Properties.CatchUp Lib.Program Lib.Staged Lib.StagedLedger Reference

variable {P : Platform} {S : Storage P} {Q : Entry → View → Prop} {n n' : Node P} {g g' : Trace P}

/-- The node has nothing left but what the other one has committed. -/
structure TakenBack (n n' : Node P) : Prop where
  idle : Idle n'
  head : P.state.headHash n'.stores.tokenState = P.state.committedHeadHash n.stores.tokenState
  ledger : tokenTxns n' = ledgerTxns n
  domainLedger : domainTxns n' = domainLedgerTxns n
  uncommitted : uncommitted n'.stores = committed n.stores
  committed : committedPoint n' = committedPoint n
  configFees : n'.configFees = n.configFees

theorem takenBack_of_nil (h : Inv Q n g) (ho : n.openBatch = none) (hp : g.pending = []) :
    TakenBack n n := by
  have hidle : Idle n := ⟨by rw [h.batches, hp]; rfl, ho⟩
  have hpoint := point_of_idle h hidle
  have hdomain : (P.domainLedger.contents n.domainLedger).uncommitted = [] := by
    rw [h.domain.uncommitted, hp, (h.start ho).2.1]
    rfl
  refine ⟨hidle, congrArg Point.head hpoint.symm, congrArg Point.txns hpoint.symm, ?_,
    congrArg Point.view hpoint.symm, rfl, rfl⟩
  rw [domainTxns, Log.all, hdomain, List.append_nil]
  rfl

/-- What one rejection leaves committed. -/
theorem TakenBack.of_rejected {m : Node P} {rs : List (BatchRec P)} (hr : Rejected n m rs)
    (h : TakenBack m n') : TakenBack n n' where
  idle := h.idle
  head := h.head.trans (congrArg Point.head hr.committed)
  ledger := h.ledger.trans (congrArg Point.txns hr.committed)
  domainLedger := h.domainLedger.trans (by rw [domainLedgerTxns, hr.domain]; rfl)
  uncommitted := h.uncommitted.trans (congrArg Point.view hr.committed)
  committed := h.committed.trans hr.committed
  configFees := h.configFees.trans hr.configFees

/-- The batches are taken back one by one, by induction on how many there are. -/
theorem exists_takenBack {k : ℕ} (h : Lived S Current n g) (ho : n.openBatch = none)
    (hk : g.pending.length = k) :
    ∃ n' g', Onward S Current n g (List.replicate k .reject) n' g' ∧ TakenBack n n' := by
  have hinv := lived_inv_notOld h
  induction k generalizing n g with
  | zero => exact ⟨n, g, .refl, takenBack_of_nil hinv ho (List.length_eq_zero_iff.mp hk)⟩
  | succ k ih =>
    obtain ⟨rs, r, hp⟩ : ∃ rs r, g.pending = rs ++ [r] :=
      (List.eq_nil_or_concat' g.pending).resolve_left fun hnil => by rw [hnil] at hk; cases hk
    obtain ⟨m, hm, -, hrej, hinv'⟩ := exists_rejectStep hinv ho hp
    have hstep : Returns (step .reject) n () m := hm
    have hl : Lived S Current m (g.next n m .reject) := .step h trivial ho hstep
    have hpending : (g.next n m .reject).pending = rs := by simp [Trace.next, hp]
    have hlen : rs.length = k := by
      rw [hp, List.length_append] at hk
      exact Nat.succ_injective hk
    obtain ⟨n', g', hon, htaken⟩ := ih hl hrej.openBatch (by rw [hpending, hlen]) hinv'
    exact ⟨n', g', hon.cons (a := .reject) trivial ho hstep, htaken.of_rejected hrej⟩

theorem length_batches (h : Inv Q n g) : g.pending.length = n.batches.length := by
  rw [h.batches, List.length_map]

/-- **Every batch can be taken back.** Between two batches, rejecting as many batches as there are never
raises, and leaves the node with what it had committed: the roots, the ledgers, and every read. -/
theorem takesBack (h : Lived S Current n g) (ho : n.openBatch = none) :
    ∃ n' g', Onward S Current n g (List.replicate n.batches.length .reject) n' g' ∧ TakenBack n n' :=
  exists_takenBack h ho (length_batches (lived_inv_notOld h))

theorem takesBack_sample : ∃ n' g', Onward storage Current sampleNode sampleTrace
    (List.replicate sampleNode.batches.length .reject) n' g' ∧ TakenBack sampleNode n' :=
  takesBack lived_sample (by decide +kernel)

end TokenPlugin.Properties.ViewChange
