import TokenPlugin.Lifecycle

/-! # Nodes that agree

Two nodes may hold the same ledgers and have come to them in different ways: by other batches, with
other rejections, by catching up. `Alike` nodes read the same uncommitted data. What a request does to
them is the same, whether it is accepted or raises, and nodes with the same ledgers are alike. -/

namespace TokenPlugin.Replicas

open Python Token.Types Token.UtxoCache Token.TokenUtils Token.Handlers Token.Views Token.History
open Database Node Steps Effects Invariant Replay Lifecycle Lib.Program
open Fees.FeesAuthorizer Fees.DomainFeeHandler Fees.AuthRuleFeeHandler

/-! ### The programs of the fees plugin on related stores -/

section Related
variable {S T : Type} [TokenStores S] [TokenStores T] {R : S → T → Prop}

theorem sim_doValidateInputsOutputs (h : StoresRel R false false) (ins : List Input)
    (outs : List OutputSpec) :
    Sim R (doValidateInputsOutputs ins outs) (doValidateInputsOutputs ins outs) := by
  have hsum : Sim R (sumInputsOf ins false) (sumInputsOf ins false) := by
    refine (sim_sumInputs h ins).catching fun e => ?_
    by_cases he : e.cls.isUTXOError <;> simp only [he, if_true] <;> exact sim_raise _
  refine Sim.bind (hsum.catching fun e => ?_) fun _ => sim_ofExcept _
  by_cases he : e.cls.isInvalidClientMessage <;> simp only [he, if_true] <;> exact sim_raise _

theorem sim_calculateFeesFromReq (h : StoresRel R false false) (r : Request) :
    Sim R (calculateFeesFromReq r) (calculateFeesFromReq r) :=
  (sim_ofExcept _).bind fun p =>
    ((sim_sumInputs h p.1).bind fun _ => sim_pure _).catching fun _ => sim_pure _

theorem sim_canPayFees (h : StoresRel R false false) (P : Platform) (r : Request) (amount : ℤ) :
    Sim R (canPayFees P r amount) (canPayFees P r amount) := by
  have hpay : Sim R (canPayFees' P r amount) (canPayFees' P r amount) := by
    refine (sim_ofExcept _).bind fun p => Sim.bind ((sim_sumInputs h p.1).catching fun e => ?_)
      fun _ => sim_ofExcept _
    by_cases he : e.cls.isUTXOError <;> simp only [he, if_true] <;> exact sim_raise _
  refine (hpay.bind fun _ => sim_pure _).catching fun e => ?_
  by_cases he : e.cls.isInvalidClientMessage <;> simp only [he, if_true]
  · exact sim_pure _
  · exact sim_raise _

theorem sim_authorize (h : StoresRel R false false) (P : Platform) (fees : FeesMap) (r : Request)
    (c : AuthConstraint) : Sim R (authorize P fees r c) (authorize P fees r c) := by
  have hpay := sim_canPayFees h P r (feesAmount fees c)
  refine sim_ite (sim_ite (sim_pure _) ?_) hpay
  exact (sim_ite (sim_calculateFeesFromReq h r) (sim_pure _)).bind fun _ =>
    sim_ite (sim_pure _) (sim_ite (sim_pure _) hpay)

end Related

/-! ### Nodes that read the same -/

variable {P : Platform} {n n' m m' : Node P}

/-- The nodes read the same uncommitted data. -/
structure Alike (n m : Node P) : Prop where
  stores : uncommitted n.stores = uncommitted m.stores
  token : tokenTxns n = tokenTxns m
  domain : domainTxns n = domainTxns m
  configFees : n.configFees = m.configFees

/-- Stores with the same uncommitted view are written to in the same way. -/
theorem rel_alike : StoresRel (fun s t : Stores P => uncommitted s = uncommitted t) false false where
  cacheGet s t h k := by
    have := congrFun (congrArg View.cache h) k
    simpa [TokenStores.cacheGet, uncommitted, Lib.Staged.Overlay.get] using this.symm
  cacheSet s t h k x := by
    have hs := ((rel_uncommitted s false).cacheSet s _ ⟨rfl, rfl⟩ k x).1
    have ht := ((rel_uncommitted t false).cacheSet t _ ⟨rfl, rfl⟩ k x).1
    rw [hs, ht, h]
  stateSet s t h k x := by
    have hs := ((rel_uncommitted s false).stateSet s _ ⟨rfl, rfl⟩ k x).1
    have ht := ((rel_uncommitted t false).stateSet t _ ⟨rfl, rfl⟩ k x).1
    rw [hs, ht, h]
  stateRemove s t h k := by
    have hs := ((rel_uncommitted s false).stateRemove s _ ⟨rfl, rfl⟩ k).1
    have ht := ((rel_uncommitted t false).stateRemove t _ ⟨rfl, rfl⟩ k).1
    rw [hs, ht, h]

theorem sim_onStores {α : Type} {x : Py (Stores P) α}
    (h : Sim (fun s t : Stores P => uncommitted s = uncommitted t) x x) :
    Sim Alike (onStores x) (onStores x) :=
  h.zoom (fun _ _ hR => hR.stores) fun _ _ _ _ hR hs => ⟨hs, hR.token, hR.domain, hR.configFees⟩

theorem sim_validate (r : Request) (auths : List AuthConstraint) :
    Sim Alike (validate r auths : Py (Node P) Unit) (validate r auths) := by
  refine sim_forM fun c => sim_get_bind fun s t hR => ?_
  rw [hR.configFees]
  refine (sim_onStores (sim_authorize rel_alike P _ r c)).bind fun p => ?_
  exact sim_ite (sim_pure _) (sim_raise _)

theorem sim_dynamicValidation (r : Request) (auths : List AuthConstraint) (h : Handler) :
    Sim Alike (dynamicValidation r auths h : Py (Node P) Unit) (dynamicValidation r auths h) := by
  have hplain : ∀ ins outs, Sim Alike
      (onStores (doValidateInputsOutputs ins outs) >>= fun _ => validate r auths : Py (Node P) Unit)
      (onStores (doValidateInputsOutputs ins outs) >>= fun _ => validate r auths) := fun ins outs =>
    (sim_onStores (sim_doValidateInputsOutputs rel_alike ins outs)).bind fun _ => sim_validate r auths
  unfold dynamicValidation
  split
  · exact hplain _ _
  · exact hplain _ _
  · exact sim_validate r auths
  · exact sim_validate r auths
  · exact sim_validate r auths
  · exact sim_validate r auths
  · exact sim_get_bind fun s t hR => by rw [hR.configFees]; exact sim_ofExcept _
  · exact sim_get_bind fun s t hR => by rw [hR.configFees]; exact sim_ofExcept _
  · exact sim_pure _

/-! ### Applying -/

theorem sim_appendToTokenLedger (txn : ℕ → TokenTxn) :
    Sim Alike (appendToTokenLedger txn : Py (Node P) TokenTxn) (appendToTokenLedger txn) := by
  refine sim_get_bind fun s t hR => ?_
  have hsize : P.ledger.uncommittedSize s.tokenLedger = P.ledger.uncommittedSize t.tokenLedger := by
    rw [P.ledger.uncommittedSize_eq, P.ledger.uncommittedSize_eq]
    exact congrArg List.length hR.token
  rw [hsize]
  refine Sim.bind (sim_modify fun s t hR => ⟨hR.stores, ?_, hR.domain, hR.configFees⟩) fun _ => sim_pure _
  have htoken : (P.ledger.contents s.tokenLedger).all = (P.ledger.contents t.tokenLedger).all := hR.token
  simp [tokenTxns, htoken]

theorem sim_applyTokenRequest (txn : ℕ → TokenTxn) {upd : TokenTxn → Bool → Py (Stores P) Unit}
    (h : ∀ txn, Sim (fun s t : Stores P => uncommitted s = uncommitted t) (upd txn false) (upd txn false)) :
    Sim Alike (applyTokenRequest txn upd) (applyTokenRequest txn upd) :=
  (sim_appendToTokenLedger txn).bind fun txn => sim_onStores (h txn)

theorem sim_appendToDomainLedger (typ : Str) (r : Request) (time : ℤ) :
    Sim Alike (appendToDomainLedger typ r time : Py (Node P) DomainTxn)
      (appendToDomainLedger typ r time) := by
  refine sim_get_bind fun s t hR => ?_
  have hsize : P.domainLedger.uncommittedSize s.domainLedger =
      P.domainLedger.uncommittedSize t.domainLedger := by
    rw [P.domainLedger.uncommittedSize_eq, P.domainLedger.uncommittedSize_eq]
    exact congrArg List.length hR.domain
  rw [hsize]
  refine Sim.bind (sim_modify fun s t hR => ⟨hR.stores, hR.token, ?_, hR.configFees⟩) fun _ => sim_pure _
  have hdomain : (P.domainLedger.contents s.domainLedger).all =
      (P.domainLedger.contents t.domainLedger).all := hR.domain
  simp [domainTxns, hdomain]

theorem sim_applyRequest (r : Request) (prev : DomainTxn) :
    Sim Alike (applyRequest r prev : Py (Node P) Unit) (applyRequest r prev) := by
  unfold applyRequest
  cases r.fees with
  | none => exact sim_pure _
  | some section_ =>
    exact (sim_onStores (sim_calculateFeesFromReq rel_alike r)).bind fun fees =>
      (sim_appendToTokenLedger _).bind fun txn => (sim_onStores (sim_update rel_alike .fees txn)).bind
        fun _ => Sim.bind (sim_modify fun _ _ hR => ⟨hR.stores, hR.token, hR.domain, hR.configFees⟩)
          fun _ => sim_modify fun _ _ hR => ⟨hR.stores, hR.token, hR.domain, hR.configFees⟩

theorem sim_applyHandler (r : Request) (time : ℤ) (prev : Option DomainTxn) (h : Handler) :
    Sim Alike (applyHandler r time prev h : Py (Node P) (Option DomainTxn)) (applyHandler r time prev h) := by
  unfold applyHandler
  split
  · exact (sim_applyTokenRequest _ fun txn => sim_update rel_alike .mint txn).bind fun _ => sim_pure _
  · exact (sim_applyTokenRequest _ fun txn => sim_update rel_alike .xfer txn).bind fun _ => sim_pure _
  · exact (sim_applyTokenRequest _ fun txn => sim_update rel_alike .xfer txn).bind fun _ => sim_pure _
  · exact (sim_applyTokenRequest _ fun txn => sim_update rel_alike .xfer100 txn).bind fun _ => sim_pure _
  · exact (sim_appendToDomainLedger _ r time).bind fun _ => sim_pure _
  · cases prev with
    | none => exact sim_raise _
    | some txn => exact (sim_applyRequest r txn).bind fun _ => sim_pure _
  · refine Sim.bind (sim_modify fun s t hR => ⟨hR.stores, hR.token, hR.domain, ?_⟩) fun _ => sim_pure _
    show updateFees s.configFees _ = updateFees t.configFees _
    rw [hR.configFees]
  · exact sim_pure _

theorem sim_applyHandlers (r : Request) (time : ℤ) (hs : List Handler) (prev : Option DomainTxn) :
    Sim Alike (applyHandlers r time hs prev : Py (Node P) Unit) (applyHandlers r time hs prev) := by
  induction hs generalizing prev with
  | nil => exact sim_pure _
  | cons h hs ih => exact (sim_applyHandler r time prev h).bind fun res => ih res

/-- **A request does the same to nodes that are alike**: both accept it, or it raises the same exception
on both, and they stay alike. -/
theorem sim_applyStep (r : Request) (version : XferVersion) (auths : List AuthConstraint) (time : ℤ) :
    Sim Alike (applyStep r version auths time : Py (Node P) Unit) (applyStep r version auths time) := by
  have hjoin : ∀ l, Sim Alike (joinBatch l : Py (Node P) Unit) (joinBatch l) := fun l =>
    sim_modify fun _ _ hR => ⟨hR.stores, hR.token, hR.domain, hR.configFees⟩
  refine Sim.bind (sim_forM fun h => sim_dynamicValidation r auths h) fun _ => ?_
  cases ledgerOf r.operation with
  | none => exact sim_applyHandlers r time _ none
  | some l => exact (hjoin l).bind fun _ => sim_applyHandlers r time _ none

end TokenPlugin.Replicas
