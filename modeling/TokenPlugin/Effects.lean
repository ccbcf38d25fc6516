import TokenPlugin.Fees.Acceptance
import TokenPlugin.Steps

/-! # What applying a request does

`ApplyEffect` says everything that `applyStep` can do to a node when it returns; the facts about runs
are derived from it and never look at the handlers again. -/

namespace TokenPlugin.Effects

open Python Token.Types Token.UtxoCache Token.TokenUtils Token.Handlers Token.History
open Database Node Steps Messages.Fields Lib.Program
open Fees.FeesAuthorizer Fees.DomainFeeHandler Fees.Acceptance
open Lib.Program.Prog (raise get modify ofExcept catching)

variable {P : Platform}

/-! ### Dynamic validation -/

theorem readOnly_onStores {α : Type} {x : Py (Stores P) α} (h : ReadOnly x) :
    ReadOnly (onStores x) := h.zoom fun _ => rfl

theorem readOnly_validate (r : Request) (auths : List AuthConstraint) :
    ReadOnly (validate r auths : Py (Node P) Unit) := by
  refine readOnly_forM fun c => readOnly_get.bind fun n =>
    (readOnly_onStores (readOnly_authorize _ _ _)).bind fun p => ReadOnly.ite ?_ ?_
  · exact readOnly_pure _
  · exact readOnly_raise _

theorem readOnly_dynamicValidation (r : Request) (auths : List AuthConstraint) (h : Handler) :
    ReadOnly (dynamicValidation r auths h : Py (Node P) Unit) := by
  unfold dynamicValidation
  split
  · exact (readOnly_onStores (readOnly_doValidate _ _)).bind fun _ => readOnly_validate _ _
  · exact (readOnly_onStores (readOnly_doValidate _ _)).bind fun _ => readOnly_validate _ _
  · exact readOnly_validate _ _
  · exact readOnly_validate _ _
  · exact readOnly_validate _ _
  · exact readOnly_validate _ _
  · exact readOnly_get.bind fun _ => readOnly_ofExcept _
  · exact readOnly_get.bind fun _ => readOnly_ofExcept _
  · exact readOnly_pure _

theorem returns_onStores {α : Type} {x : Py (Stores P) α} {n n' : Node P} {a : α} :
    Returns (onStores x) n a n' ↔ ∃ s, Returns x n.stores a s ∧ n' = { n with stores := s } := by
  unfold onStores
  simp [eq_comm]

/-- The authorizer has accepted the request, each time it was consulted. -/
theorem authorized_of_validate {r : Request} {auths : List AuthConstraint} {n n' : Node P}
    (h : Returns (validate r auths) n () n') : ∀ c ∈ auths,
      ∃ msg, Returns (authorize P n.configFees r c) n.stores (true, msg) n.stores := by
  unfold validate at h
  induction auths with
  | nil => intro c hc; cases hc
  | cons c auths ih =>
    obtain ⟨m, hm, hrest⟩ := returns_forM_cons.mp h
    have hro : ReadOnly (validate r [c] : Py (Node P) Unit) := readOnly_validate r [c]
    obtain rfl : m = n := hro.eq (a := ()) (returns_forM_cons.mpr ⟨m, hm, returns_forM_nil.mpr rfl⟩)
    intro d hd
    rcases List.mem_cons.mp hd with rfl | hd
    · simp only [returns_bind, returns_get, returns_onStores] at hm
      obtain ⟨_, _, ⟨rfl, rfl⟩, ⟨ok, msg⟩, w, ⟨s, ha, rfl⟩, hm⟩ := hm
      obtain rfl := (readOnly_authorize _ _ _).eq ha
      cases ok with
      | true => exact ⟨msg, ha⟩
      | false => simp at hm
    · exact ih hrest d hd

/-- The fee asked for, each time the authorizer was consulted, is paid. -/
def PaysFees (auths : List AuthConstraint) (fees : FeesMap) (ins : List Input)
    (outs : List OutputSpec) (s : Stores P) : Prop :=
  ∀ c ∈ auths, PaysFor ins outs (feesAmount fees c) s

/-! ### Application -/

/-- The open batch once a request for the ledger has joined it. -/
def joined (l : LedgerId) (n : Node P) : OpenBatch P :=
  let b := n.openBatch.getD ⟨l, 0, P.state.headHash n.stores.tokenState⟩
  { b with count := b.count + 1 }

/-- A node once a request has joined the open batch of its ledger. -/
def entered (n : Node P) : Option LedgerId → Node P
  | some l => { n with openBatch := some (joined l n) }
  | none => n

/-- The number of the next transaction of the token ledger. -/
def nextSeqNo (n : Node P) : ℕ := P.ledger.uncommittedSize n.tokenLedger + 1

/-- The domain transaction of a request. -/
def domainTxn (n : Node P) (typ : Str) (r : Request) (time : ℤ) : DomainTxn :=
  ⟨typ, r.reqId, time, P.domainLedger.uncommittedSize n.domainLedger + 1, none⟩

/-- A node after a transaction has been appended to the token ledger and applied to the stores. -/
def withToken (n : Node P) (txn : TokenTxn) (s : Stores P) : Node P :=
  { n with
    stores := s
    tokenLedger := P.ledger.appendTxns n.tokenLedger [txn]
    openBatch := some (joined .token n) }

@[simp] theorem withToken_stores (n : Node P) (txn : TokenTxn) (s : Stores P) :
    (withToken n txn s).stores = s := rfl

/-- A node after a transaction has been appended to the domain ledger. -/
def withDomain (n : Node P) (txn : DomainTxn) : Node P :=
  { n with
    domainLedger := P.domainLedger.appendTxns n.domainLedger [txn]
    openBatch := some (joined .domain n) }

/-- A node after the fee section of a domain request has been applied as well. -/
def withFees (n : Node P) (txn : DomainTxn) (fee : TokenTxn) (fees : ℤ) (s : Stores P) : Node P :=
  { withDomain n txn with
    stores := s
    tokenLedger := P.ledger.appendTxns n.tokenLedger [fee]
    feesTracker := addDeductedFees
      { n.feesTracker with feesInCurrentBatch := n.feesTracker.feesInCurrentBatch + 1 }
      txn.type txn.seqNo fees }

@[simp] theorem withFees_stores (n : Node P) (txn : DomainTxn) (fee : TokenTxn) (fees : ℤ) (s : Stores P) :
    (withFees n txn fee fees s).stores = s := rfl

/-- What becomes of the node when a request has been validated and applied. -/
inductive ApplyEffect (r : Request) (version : XferVersion) (auths : List AuthConstraint) (time : ℤ)
    (n : Node P) : Node P → Prop
  | mint {outs : List OutputSpec} {s : Stores P} (hop : r.operation = .mint outs)
      (hs : Returns (update .mint (mintTxn r outs time (nextSeqNo n)) false) n.stores () s) :
      ApplyEffect r version auths time n (withToken n (mintTxn r outs time (nextSeqNo n)) s)
  | xfer {ins : List Input} {outs : List OutputSpec} {sigs : List Json} {s : Stores P}
      (hop : r.operation = .xfer ins outs sigs)
      (hpays : PaysFees auths n.configFees ins outs n.stores)
      (hplain : version ≠ .registered → PaysFor ins outs 0 n.stores)
      (hs : Returns (update (labelOf n.configFees r version auths).updater
        (xferTxn r ins outs sigs time (nextSeqNo n)) false) n.stores () s) :
      ApplyEffect r version auths time n (withToken n (xferTxn r ins outs sigs time (nextSeqNo n)) s)
  | domain {typ : Str} (hop : r.operation = .domain typ) (hf : r.fees = none)
      (hfree : ∀ c ∈ auths, feesAmount n.configFees c = 0) :
      ApplyEffect r version auths time n (withDomain n (domainTxn n typ r time))
  | domainFees {typ : Str} {section_ : FeesSection} {fees : ℤ} {s : Stores P}
      (hop : r.operation = .domain typ) (hf : r.fees = some section_)
      (hpays : PaysFees auths n.configFees section_.inputs section_.outputs n.stores)
      (hfees : Returns (calculateFeesFromReq r) n.stores fees n.stores)
      (hs : Returns (update .fees
        (feesTxn P section_ (domainTxn n typ r time) fees (nextSeqNo n)) false) n.stores () s) :
      ApplyEffect r version auths time n (withFees n (domainTxn n typ r time)
        (feesTxn P section_ (domainTxn n typ r time) fees (nextSeqNo n)) fees s)
  | config (hop : ledgerOf r.operation = none) (fees : FeesMap) :
      ApplyEffect r version auths time n { n with configFees := fees }

theorem returns_applyTokenRequest {txn : ℕ → TokenTxn} {upd : TokenTxn → Bool → Py (Stores P) Unit}
    {n n' : Node P} {u : Unit} : Returns (applyTokenRequest txn upd) n u n' ↔
      ∃ s, Returns (upd (txn (nextSeqNo n)) false) n.stores () s ∧
        n' = { n with stores := s, tokenLedger := P.ledger.appendTxns n.tokenLedger [txn (nextSeqNo n)] } := by
  unfold applyTokenRequest appendToTokenLedger
  simp only [returns_bind, returns_get, returns_modify, returns_pure, returns_onStores]
  constructor
  · rintro ⟨_, _, ⟨_, _, ⟨rfl, rfl⟩, _, _, rfl, rfl, rfl⟩, s, hs, rfl⟩
    exact ⟨s, hs, rfl⟩
  · rintro ⟨s, hs, rfl⟩
    exact ⟨_, _, ⟨n, n, ⟨rfl, rfl⟩, (), _, rfl, rfl, rfl⟩, s, hs, rfl⟩

theorem returns_applyRequest {r : Request} {prev : DomainTxn} {section_ : FeesSection}
    (hf : r.fees = some section_) {n n' : Node P} {u : Unit} :
    Returns (applyRequest r prev) n u n' ↔ ∃ fees s,
      Returns (calculateFeesFromReq r) n.stores fees n.stores ∧
      Returns (update .fees (feesTxn P section_ prev fees (nextSeqNo n)) false) n.stores () s ∧
      n' = { n with
        stores := s
        tokenLedger := P.ledger.appendTxns n.tokenLedger [feesTxn P section_ prev fees (nextSeqNo n)]
        feesTracker := addDeductedFees
          { n.feesTracker with feesInCurrentBatch := n.feesTracker.feesInCurrentBatch + 1 }
          (txnType P r.operation) prev.seqNo fees } := by
  unfold applyRequest appendToTokenLedger onFeesTracker
  simp only [hf, returns_bind, returns_get, returns_modify, returns_pure, returns_onStores]
  constructor
  · rintro ⟨fees, _, ⟨s₀, hfees, rfl⟩, _, _, ⟨_, _, ⟨rfl, rfl⟩, _, _, rfl, rfl, rfl⟩, _, _,
      ⟨s, hs, rfl⟩, _, _, rfl, rfl⟩
    obtain rfl := (readOnly_calculateFees r).eq hfees
    exact ⟨fees, s, hfees, hs, rfl⟩
  · rintro ⟨fees, s, hfees, hs, rfl⟩
    exact ⟨fees, n, ⟨_, hfees, rfl⟩, _, _, ⟨n, n, ⟨rfl, rfl⟩, (), _, rfl, rfl, rfl⟩, (), _,
      ⟨s, hs, rfl⟩, (), _, rfl, rfl⟩

/-- The handlers of an accepted request, in the order they were registered. -/
theorem returns_applyStep {r : Request} {version : XferVersion} {auths : List AuthConstraint}
    {time : ℤ} {n n' : Node P} {hs : List Handler} (hh : handlersFor P version r.operation = hs) :
    Returns (applyStep r version auths time) n () n' ↔
      Returns (hs.forM (dynamicValidation r auths)) n () n ∧
      Returns (applyHandlers r time hs none) (entered n (ledgerOf r.operation)) () n' := by
  have hro : ReadOnly (hs.forM (dynamicValidation r auths) : Py (Node P) Unit) :=
    readOnly_forM fun h => readOnly_dynamicValidation r auths h
  unfold applyStep
  simp only [hh, returns_bind]
  cases hl : ledgerOf r.operation with
  | none =>
    constructor
    · rintro ⟨_, m, hv, ha⟩
      obtain rfl := hro.eq hv
      exact ⟨hv, ha⟩
    · rintro ⟨hv, ha⟩
      exact ⟨(), n, hv, ha⟩
  | some l =>
    simp only [joinBatch, returns_bind, returns_modify]
    constructor
    · rintro ⟨_, m, hv, _, _, rfl, ha⟩
      obtain rfl := hro.eq hv
      exact ⟨hv, ha⟩
    · rintro ⟨hv, ha⟩
      exact ⟨(), n, hv, (), _, rfl, ha⟩

@[simp] theorem returns_applyHandlers_nil {r : Request} {time : ℤ} {prev : Option DomainTxn}
    {n n' : Node P} : Returns (applyHandlers r time [] prev) n () n' ↔ n = n' := by
  simp [applyHandlers]

@[simp] theorem returns_applyHandlers_cons {r : Request} {time : ℤ} {prev : Option DomainTxn}
    {h : Handler} {hs : List Handler} {n n' : Node P} :
    Returns (applyHandlers r time (h :: hs) prev) n () n' ↔
      ∃ res m, Returns (applyHandler r time prev h) n res m ∧
        Returns (applyHandlers r time hs res) m () n' := by
  simp [applyHandlers]

section Apply
variable {r : Request} {version : XferVersion} {auths : List AuthConstraint} {time : ℤ}
  {n n' : Node P}

theorem applyEffect_mint {outs : List OutputSpec} (hop : r.operation = .mint outs)
    (h : Returns (applyStep r version auths time) n () n') :
    ApplyEffect r version auths time n n' := by
  have hh : handlersFor P version r.operation = [.mint] := by
    rw [hop]; exact registry_mint P
  obtain ⟨-, h⟩ := (returns_applyStep hh).mp h
  rw [show ledgerOf r.operation = some .token by rw [hop]; rfl] at h
  simp only [entered, returns_applyHandlers_cons, returns_applyHandlers_nil, applyHandler, hop,
    returns_bind, returns_applyTokenRequest, returns_pure] at h
  obtain ⟨_, _, ⟨_, _, ⟨s, hs, rfl⟩, -, rfl⟩, rfl⟩ := h
  exact .mint hop hs

theorem paysFees_of_xfer {ins : List Input} {outs : List OutputSpec} {sigs : List Json}
    (hop : r.operation = .xfer ins outs sigs) (h : Returns (validate r auths) n () n') :
    PaysFees auths n.configFees ins outs n.stores := fun c hc => by
  obtain ⟨msg, ha⟩ := authorized_of_validate h c hc
  exact paysFor_of_authorize_xfer hop ha

theorem applyEffect_xfer {ins : List Input} {outs : List OutputSpec} {sigs : List Json}
    (hop : r.operation = .xfer ins outs sigs)
    (h : Returns (applyStep r version auths time) n () n') :
    ApplyEffect r version auths time n n' := by
  have hl : ledgerOf r.operation = some .token := by rw [hop]; rfl
  have hplain : Returns (onStores (doValidateInputsOutputs ins outs) >>= fun _ => validate r auths)
      n () n → PaysFees auths n.configFees ins outs n.stores ∧ PaysFor ins outs 0 n.stores := by
    simp only [returns_bind, returns_onStores]
    rintro ⟨_, _, ⟨s, hs, rfl⟩, hv⟩
    obtain rfl := (readOnly_doValidate _ _).eq hs
    exact ⟨paysFees_of_xfer hop hv, paysFor_of_doValidate hs⟩
  cases version with
  | registered =>
    have hh : handlersFor P .registered r.operation = [.xferFee] := by
      rw [hop]; exact registry_xfer P
    obtain ⟨hv, ha⟩ := (returns_applyStep hh).mp h
    rw [hl] at ha
    simp only [entered, returns_applyHandlers_cons, returns_applyHandlers_nil, returns_forM_cons,
      returns_forM_nil, exists_eq_right, dynamicValidation, applyHandler, hop, returns_bind,
      returns_applyTokenRequest, returns_pure] at hv ha
    obtain ⟨_, _, _, ⟨s, hs, rfl⟩, -, rfl⟩ := ha
    have hlab : (labelOf n.configFees r .registered auths).updater = .xfer := by
      simp only [labelOf, hop]
    exact .xfer hop (paysFees_of_xfer hop hv) (fun hne => absurd rfl hne) (by rw [hlab]; exact hs)
  | withoutFees =>
    have hh : handlersFor P .withoutFees r.operation = [.xfer] := by rw [hop]; rfl
    obtain ⟨hv, ha⟩ := (returns_applyStep hh).mp h
    rw [hl] at ha
    simp only [entered, returns_applyHandlers_cons, returns_applyHandlers_nil, returns_forM_cons,
      returns_forM_nil, exists_eq_right, dynamicValidation, applyHandler, hop, returns_bind,
      returns_applyTokenRequest, returns_pure] at hv ha
    obtain ⟨_, _, _, ⟨s, hs, rfl⟩, -, rfl⟩ := ha
    obtain ⟨hpays, hplain⟩ := hplain (returns_bind.mpr hv)
    have hlab : (labelOf n.configFees r .withoutFees auths).updater = .xfer := by
      simp only [labelOf, hop]
    exact .xfer hop hpays (fun _ => hplain) (by rw [hlab]; exact hs)
  | v100 =>
    have hh : handlersFor P .v100 r.operation = [.xfer100] := by rw [hop]; rfl
    obtain ⟨hv, ha⟩ := (returns_applyStep hh).mp h
    rw [hl] at ha
    simp only [entered, returns_applyHandlers_cons, returns_applyHandlers_nil, returns_forM_cons,
      returns_forM_nil, exists_eq_right, dynamicValidation, applyHandler, hop, returns_bind,
      returns_applyTokenRequest, returns_pure] at hv ha
    obtain ⟨_, _, _, ⟨s, hs, rfl⟩, -, rfl⟩ := ha
    obtain ⟨hpays, hplain⟩ := hplain (returns_bind.mpr hv)
    have hlab : (labelOf n.configFees r .v100 auths).updater = .xfer100 := by
      simp only [labelOf, hop]
    exact .xfer hop hpays (fun _ => hplain) (by rw [hlab]; exact hs)

theorem applyEffect_domain {typ : Str} (hop : r.operation = .domain typ) (ht : typ ∈ P.domainTypes)
    (h : Returns (applyStep r version auths time) n () n') :
    ApplyEffect r version auths time n n' := by
  have hl : ledgerOf r.operation = some .domain := by rw [hop]; rfl
  have hh : handlersFor P version r.operation = [.indy, .domainFee] := by
    rw [hop]; exact registry_domain ht
  have htyp : txnType P r.operation ≠ xferPublic := by
    rw [hop]
    exact fun he => P.types_disjoint _ ht (by rw [show typ = xferPublic from he]; simp)
  obtain ⟨hv, ha⟩ := (returns_applyStep hh).mp h
  rw [hl] at ha
  simp only [entered, returns_applyHandlers_cons, returns_applyHandlers_nil, returns_forM_cons,
    dynamicValidation, applyHandler, appendToDomainLedger, hop, returns_bind, returns_get,
    returns_modify, returns_pure] at hv ha
  obtain ⟨_, hv, -⟩ := hv
  have hauth := authorized_of_validate hv
  obtain ⟨_, _, ⟨_, _, ⟨_, _, ⟨rfl, rfl⟩, _, _, rfl, rfl, rfl⟩, rfl, rfl⟩, _, _, ha, rfl⟩ := ha
  simp only [returns_bind, returns_pure] at ha
  obtain ⟨_, _, ha, -, rfl⟩ := ha
  have hall := fun c hc => (hauth c hc).elim fun _ ha => paysFor_of_authorize htyp ha
  cases hf : r.fees with
  | none =>
    simp only [hf] at hall
    unfold applyRequest at ha
    simp only [hf, returns_pure] at ha
    obtain ⟨-, rfl⟩ := ha
    exact .domain hop hf hall
  | some section_ =>
    simp only [hf] at hall
    obtain ⟨fees, s, hfees, hs, rfl⟩ := (returns_applyRequest hf).mp ha
    have htt : txnType P r.operation = typ := by rw [hop]; rfl
    rw [htt]
    exact .domainFees hop hf hall hfees hs

/-- A handler of a request for another ledger changes the fees map at most. -/
theorem configFees_of_applyHandler {prev res : Option DomainTxn} {hd : Handler}
    (hop : ledgerOf r.operation = none) (h : Returns (applyHandler r time prev hd) n res n') :
    ∃ fees, n' = { n with configFees := fees } := by
  unfold applyHandler at h
  split at h
  case h_7 fees _ =>
    simp only [returns_bind, returns_modify, returns_pure] at h
    obtain ⟨_, _, rfl, -, rfl⟩ := h
    exact ⟨_, rfl⟩
  case h_8 =>
    obtain ⟨-, rfl⟩ := returns_pure.mp h
    exact ⟨n.configFees, rfl⟩
  all_goals
    next ho => rw [ho] at hop; cases hop

theorem applyEffect_config (hop : ledgerOf r.operation = none)
    (h : Returns (applyStep r version auths time) n () n') :
    ApplyEffect r version auths time n n' := by
  have key : ∀ (hs : List Handler) (prev : Option DomainTxn) (m : Node P),
      (∃ fees, m = { n with configFees := fees }) →
      Returns (applyHandlers r time hs prev) m () n' →
      ∃ fees, n' = { n with configFees := fees } := by
    intro hs
    induction hs with
    | nil =>
      intro prev m hm ha
      rwa [returns_applyHandlers_nil.mp ha] at hm
    | cons hd hs ih =>
      rintro prev m ⟨fees, rfl⟩ ha
      obtain ⟨res, m', hm, ha⟩ := returns_applyHandlers_cons.mp ha
      obtain ⟨fees', rfl⟩ := configFees_of_applyHandler hop hm
      exact ih _ _ ⟨fees', rfl⟩ ha
  obtain ⟨-, ha⟩ := (returns_applyStep rfl).mp h
  rw [hop] at ha
  obtain ⟨fees, rfl⟩ := key _ _ _ ⟨n.configFees, rfl⟩ ha
  exact .config hop fees

/-- **What `applyStep` does.** -/
theorem applyEffect (hst : StaticOk P r) (h : Returns (applyStep r version auths time) n () n') :
    ApplyEffect r version auths time n n' := by
  cases hop : r.operation with
  | mint outs => exact applyEffect_mint hop h
  | xfer ins outs sigs => exact applyEffect_xfer hop h
  | domain typ =>
    have ht := hst.1
    rw [hop] at ht
    exact applyEffect_domain hop ht h
  | setFees | authRule | authRules => exact applyEffect_config (by rw [hop]; rfl) h

end Apply

end TokenPlugin.Effects
