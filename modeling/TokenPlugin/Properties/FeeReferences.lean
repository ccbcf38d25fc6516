import TokenPlugin.Refinement

/-! # Each FEES transaction and the transaction it pays for

A fee is taken on the token ledger for a transaction of the domain ledger, which the FEES transaction
names in its `ref`. The two ledgers are appended to, rejected, committed, lost and caught up side by
side, and stay matched. -/

namespace TokenPlugin.Properties.FeeReferences

open Python Token.Types Token.Handlers Token.Views Token.History Database Node Steps Effects Invariant
open Applying Closing Rejecting Committing Runs Replay Lifecycle Refinement Properties.CatchUp
open Fees.DomainFeeHandler Lib.Text Lib.Program Lib.Staged Lib.StagedLedger Reference

variable {P : Platform} {S : Storage P} {Q : Entry → View → Prop} {n n' : Node P} {g g' : Trace P}
  {a : Action} {L M : List TokenTxn}

/-! ### Matched ledgers -/

/-- The FEES transactions of a token ledger. -/
def feesOf (L : List TokenTxn) : List TokenTxn := L.filter (·.type = feeTxn)

/-- The FEES transaction was paid for the domain transaction: it names it, it has the identifier of its
request and its time, and it spends something. -/
structure PaidFor (P : Platform) (d : DomainTxn) (t : TokenTxn) : Prop where
  ref : t.ref = some (getRefForTxnFees P d.seqNo)
  reqId : t.reqId = d.reqId
  txnTime : t.txnTime = d.txnTime
  inputs : t.inputs ≠ []

/-- `ds` lists the domain transactions `D`, each with the FEES transaction that was paid for it, if any;
these are the FEES transactions of `L`, in the same order. -/
structure Matched (P : Platform) (D : List DomainTxn) (L : List TokenTxn)
    (ds : List (DomainTxn × Option TokenTxn)) : Prop where
  domain : ds.map Prod.fst = D
  fees : ds.filterMap Prod.snd = feesOf L
  paid : ∀ d ∈ ds, ∀ t ∈ d.2, PaidFor P d.1 t

theorem feesOf_append (L M : List TokenTxn) : feesOf (L ++ M) = feesOf L ++ feesOf M :=
  List.filter_append ..

theorem feesOf_of_ne {t : TokenTxn} (h : t.type ≠ feeTxn) : feesOf [t] = [] := by simp [feesOf, h]

theorem Matched.append {D D' : List DomainTxn} {ds es : List (DomainTxn × Option TokenTxn)}
    (h : Matched P D L ds) (h' : Matched P D' M es) : Matched P (D ++ D') (L ++ M) (ds ++ es) where
  domain := by rw [List.map_append, h.domain, h'.domain]
  fees := by rw [List.filterMap_append, feesOf_append, h.fees, h'.fees]
  paid d hd := (List.mem_append.mp hd).elim (h.paid d) (h'.paid d)

/-! ### The invariant -/

/-- What is committed is matched, and so is what each batch has added. -/
structure FeesOk (n : Node P) (g : Trace P) : Prop where
  base : ∃ ds, Matched P (domainLedgerTxns n) (ledgerTxns n) ds
  pending : ∀ r ∈ g.pending, Matched P (r.domain.map Prod.fst) r.newTxns r.domain
  opened : Matched P (g.domain.map Prod.fst) ((tokenTxns n).drop (tokenTxns g.start).length) g.domain

theorem matched_nil : Matched P [] [] [] := ⟨rfl, rfl, nofun⟩

theorem matched_rest : Matched P [] ((tokenTxns n).drop (tokenTxns n).length) [] := by
  rw [List.drop_length]
  exact matched_nil

/-- A token transaction that is no FEES transaction joins the open batch. -/
theorem Matched.withToken {ds : List (DomainTxn × Option TokenTxn)} {D : List DomainTxn} {t : TokenTxn}
    (h : Matched P D L ds) (ht : t.type ≠ feeTxn) : Matched P D (L ++ [t]) ds where
  domain := h.domain
  fees := by rw [feesOf_append, feesOf_of_ne ht, List.append_nil, h.fees]
  paid := h.paid

variable {r : Request} {version : XferVersion} {auths : List AuthConstraint} {time : ℤ}

/-- Applying a request keeps the ledgers matched. -/
theorem feesOk_apply (hinv : Inv Q n g) (h : FeesOk n g) (hst : StaticOk P r)
    (he : ApplyEffect r version auths time n n') :
    FeesOk n' (g.next n n' (.apply r version auths time)) := by
  have hle : (tokenTxns g.start).length ≤ (tokenTxns n).length := by
    rw [tokenTxns_eq hinv, List.length_append]
    exact Nat.le_add_right _ _
  cases he with
  | mint | xfer =>
    rw [next_apply _ [] (tokenTxns_withToken _ _) (by simp)]
    refine ⟨by simpa [domainLedgerTxns, ledgerTxns, withToken] using h.base, h.pending, ?_⟩
    simp only [List.map_nil, List.append_nil, tokenTxns_withToken]
    rw [if_neg (by simp [withToken]), List.drop_append_of_le_length hle]
    exact h.opened.withToken (by simp [mintTxn, xferTxn]; decide)
  | @domain typ hop hf _ =>
    rw [next_apply [] _ (by simp) (domainTxns_withDomain _)]
    refine ⟨by simpa [domainLedgerTxns, ledgerTxns, withDomain] using h.base, h.pending, ?_⟩
    simp only [List.map_cons, List.map_nil, List.head?_nil, tokenTxns_withDomain, List.map_append]
    rw [if_neg (by simp [withDomain])]
    refine List.append_nil ((tokenTxns n).drop _) ▸ h.opened.append (M := []) ⟨rfl, rfl, ?_⟩
    intro d hd t ht
    obtain rfl := List.mem_singleton.mp hd
    cases ht
  | @domainFees typ section_ fees s hop hf _ _ hs =>
    rw [next_apply _ _ (tokenTxns_withFees ..) (domainTxns_withFees ..)]
    refine ⟨by simpa [domainLedgerTxns, ledgerTxns, withFees, withDomain] using h.base, h.pending, ?_⟩
    simp only [List.map_cons, List.map_nil, List.head?_cons, tokenTxns_withFees, List.map_append]
    rw [if_neg (by simp [withFees, withDomain]), List.drop_append_of_le_length hle]
    have hins : section_.inputs ≠ [] := by
      have hfees := hst.2
      rw [hf] at hfees
      exact List.ne_nil_of_length_pos hfees.1.2
    refine h.opened.append ⟨rfl, rfl, ?_⟩
    intro d hd t ht
    obtain rfl := List.mem_singleton.mp hd
    obtain rfl := Option.mem_some_iff.mp ht
    exact ⟨rfl, rfl, rfl, hins⟩
  | config hop fees =>
    rw [next_apply [] [] (by simp [tokenTxns]) (by simp [domainTxns])]
    refine ⟨h.base, h.pending, ?_⟩
    simp only [List.map_nil, List.append_nil]
    cases hb : n.openBatch with
    | none =>
      rw [(hinv.start hb).2.1]
      exact matched_rest
    | some b => exact h.opened

/-- What a commit moves from the uncommitted to the committed transactions. -/
theorem ledgers_commit {b : BatchRec P} {rs : List (BatchRec P)} (h : Inv Q n g)
    (ho : n.openBatch = none) (hp : g.pending = b :: rs) (hcom : committedPoint n' = point b.after)
    (hc : Committed n n' b rs) : ledgerTxns n' = ledgerTxns n ++ b.newTxns ∧
      domainLedgerTxns n' = domainLedgerTxns n ++ b.domain.map Prod.fst := by
  constructor
  · exact ledgerTxns_commit h hp hcom
  · rw [domainLedgerTxns, hc.domain, Log.commit, uncommitted_domain_eq h ho hp,
      List.take_left' (List.length_map _)]
    rfl

/-- **One step keeps the ledgers matched.** -/
theorem feesOk_step (hinv : Inv Q n g) (h : FeesOk n g) (he : Enabled n a)
    (hs : Returns (step a) n () n') : FeesOk n' (g.next n n' a) := by
  cases a with
  | apply r version auths time => exact feesOk_apply hinv h he.1 (applyEffect he.1 hs)
  | close l =>
    obtain rfl := returns_closeStep.mp hs
    refine ⟨h.base, fun b hb => ?_, matched_rest⟩
    rcases List.mem_append.mp hb with hb | hb
    · exact h.pending b hb
    · obtain rfl := List.mem_singleton.mp hb
      exact h.opened
  | reject =>
    obtain ⟨rs, b, hp, -, hrej, -⟩ := rejected_of_returns hinv he hs
    have hnext : g.next n n' .reject = ⟨rs, n', [], g.labels.take (tokenTxns n').length⟩ := by
      simp [Trace.next, hp, (hinv.start he).2.1]
    rw [hnext]
    refine ⟨?_, fun c hc => h.pending c (by rw [hp]; exact List.mem_append_left _ hc), matched_rest⟩
    rw [show ledgerTxns n' = ledgerTxns n from congrArg Point.txns hrej.committed, domainLedgerTxns,
      hrej.domain]
    exact h.base
  | commit =>
    obtain ⟨replies, m, hc, hm⟩ := returns_bind.mp hs
    obtain ⟨-, rfl⟩ := returns_pure.mp hm
    obtain ⟨b, rs, hp, -, hcom, hcommitted, -⟩ := committed_of_returns hinv he hc
    have hnext : g.next n m .commit = ⟨rs, m, [], g.labels⟩ := by
      simp [Trace.next, hp, (hinv.start he).2.1]
    obtain ⟨hl, hdl⟩ := ledgers_commit hinv he hp hcom hcommitted
    obtain ⟨ds, hds⟩ := h.base
    rw [hnext]
    refine ⟨⟨ds ++ b.domain, ?_⟩, fun c hc => h.pending c (by rw [hp]; exact List.mem_cons_of_mem _ hc),
      matched_rest⟩
    rw [hl, hdl]
    exact hds.append (h.pending b (by rw [hp]; exact List.mem_cons_self))
  | config fees =>
    obtain rfl := returns_modify.mp hs
    refine ⟨h.base, h.pending, ?_⟩
    have hopened := h.opened
    rw [(hinv.start he).1] at hopened
    exact hopened

/-- A node with nothing uncommitted. -/
theorem feesOk_idle {labels : List Label}
    (h : ∃ ds, Matched P (domainLedgerTxns n) (ledgerTxns n) ds) : FeesOk n (idleTrace n labels) :=
  ⟨h, fun _ hr => absurd hr List.not_mem_nil, matched_rest⟩

/-- **Every life keeps the ledgers matched.** -/
theorem feesOk_lived (h : Lived S Current n g) : FeesOk n g := by
  induction h with
  | new =>
    refine feesOk_idle ⟨[], ?_⟩
    rw [domainLedgerTxns, ledgerTxns, show (.new : Node P).domainLedger = P.domainLedger.new from rfl,
      show (.new : Node P).tokenLedger = P.ledger.new from rfl, P.domainLedger.contents_new,
      P.ledger.contents_new]
    exact matched_nil
  | step h _ he hs ih => exact feesOk_step (lived_inv_notOld h) ih he hs
  | restart fees h ih =>
    refine feesOk_idle ?_
    simpa [domainLedgerTxns, ledgerTxns, Storage.restart] using ih.base
  | @catchUp n n' d g gd txns dtxns h hd hi ht hdt hs _ ihd =>
    obtain ⟨hup, -⟩ := upTo_of_returns (lived_inv_notOld h) (lived_inv_notOld hd) (fun _ _ => id) hi ht
      hdt hs
    refine feesOk_idle ?_
    rw [domainLedgerTxns, ledgerTxns, hup.domainLedger, hup.ledger]
    exact ihd.base

/-! ### The whole ledgers -/

/-- The batches in a row. -/
theorem matched_flatMap {rs : List (BatchRec P)}
    (h : ∀ b ∈ rs, Matched P (b.domain.map Prod.fst) b.newTxns b.domain) :
    Matched P ((rs.flatMap BatchRec.domain).map Prod.fst) (rs.flatMap BatchRec.newTxns)
      (rs.flatMap BatchRec.domain) := by
  induction rs with
  | nil => exact matched_nil
  | cons b rs ih =>
    rw [List.flatMap_cons, List.flatMap_cons, List.map_append]
    exact (h b List.mem_cons_self).append (ih fun c hc => h c (List.mem_cons_of_mem _ hc))

/-- The two ledgers of a node: what is committed on one is matched with what is committed on the other,
so is the whole, and no two FEES transactions name the same domain transaction. -/
structure MatchedLedgers (n : Node P) (ds : List (DomainTxn × Option TokenTxn)) : Prop where
  all : Matched P (domainTxns n) (tokenTxns n) ds
  committed : Matched P (domainLedgerTxns n) (ledgerTxns n) (ds.take (domainLedgerTxns n).length)
  refs : ((feesOf (tokenTxns n)).map TokenTxn.ref).Nodup

/-- The references follow the order of the domain ledger. -/
theorem nodup_refs {D : List DomainTxn} {ds : List (DomainTxn × Option TokenTxn)} (h : Matched P D L ds)
    (hn : (D.map DomainTxn.seqNo).Nodup) : ((feesOf L).map TokenTxn.ref).Nodup := by
  rw [← h.fees]
  rw [← h.domain, List.map_map] at hn
  have hpaid := h.paid
  clear h
  induction ds with
  | nil => exact List.nodup_nil
  | cons d ds ih =>
    obtain ⟨hnot, hn⟩ := List.nodup_cons.mp hn
    have hrest := ih hn fun e he => hpaid e (List.mem_cons_of_mem _ he)
    obtain ⟨txn, _ | t⟩ := d
    · exact hrest
    · refine List.nodup_cons.mpr ⟨fun hmem => hnot ?_, hrest⟩
      obtain ⟨u, hu, href⟩ := List.mem_map.mp hmem
      obtain ⟨e, he, heu⟩ := List.mem_filterMap.mp hu
      have h₁ := (hpaid (txn, some t) List.mem_cons_self t rfl).ref
      have h₂ := (hpaid e (List.mem_cons_of_mem _ he) u heu).ref
      rw [href, h₁] at h₂
      have hseq := (append_delim_inj (notMem_intText (by decide) (by decide))
        (notMem_intText (by decide) (by decide)) (Option.some.inj h₂)).2
      exact List.mem_map.mpr ⟨e, he, (Int.ofNat_inj.mp (intText_injective hseq)).symm⟩

/-- **Every fee belongs to one domain transaction.** At any time in the life of a node the FEES
transactions of its token ledger are, in order, those that some of its domain transactions have paid,
each names the one it was paid for, no two name the same, and one is committed when the other is. -/
theorem feesMatched (h : Lived S Current n g) : ∃ ds, MatchedLedgers n ds := by
  have hinv := lived_inv_notOld h
  obtain ⟨⟨ds, hds⟩, hpending, hopened⟩ := feesOk_lived h
  have hall := (hds.append (matched_flatMap hpending)).append hopened
  have htoken : ledgerTxns n ++ g.pending.flatMap BatchRec.newTxns ++
      (tokenTxns n).drop (tokenTxns g.start).length = tokenTxns n := by
    rw [show ledgerTxns n ++ g.pending.flatMap BatchRec.newTxns = tokenTxns g.start from
      hinv.queue.txns.symm]
    exact (tokenTxns_eq hinv).symm
  have hdomain : domainLedgerTxns n ++ (g.pending.flatMap BatchRec.domain).map Prod.fst ++
      g.domain.map Prod.fst = domainTxns n := by
    rw [domainTxns, Log.all, hinv.domain.uncommitted, List.map_append, List.append_assoc]
    rfl
  rw [htoken, hdomain] at hall
  refine ⟨_, hall, ?_, nodup_refs hall (nodup_seqNo_domainTxns hinv)⟩
  rw [List.append_assoc, List.take_left' (by rw [← hds.domain, List.length_map])]
  exact hds

theorem feesMatched_joinedNode : ∃ ds, MatchedLedgers joinedNode ds := feesMatched lived_joinedNode

end TokenPlugin.Properties.FeeReferences
