import TokenPlugin.Fees.AuthRuleFeeHandler
import TokenPlugin.Fees.BatchHandlers

/-! # A node and its runs

The handlers as `integrate_plugin_in_node` of the two plugins registers them, and the steps of a node:
a request is validated and applied, a batch is closed, the latest batch is rejected, the oldest one is
committed. plenum calls the handlers in a fixed order: a batch holds requests for one ledger, all of
its requests are applied before the next step, and a batch is rejected or committed only once it has
been closed. -/

namespace TokenPlugin.Node

open Python Token.Types Token.UtxoCache Token.Handlers Database Lib.Program
open Fees.FeesAuthorizer Fees.DomainFeeHandler Fees.BatchHandlers Fees.AuthRuleFeeHandler
open Lib.Program.Prog (raise get modify ofExcept)

variable {P : Platform}

/-! ### The registered handlers -/

/-- The handlers of write requests: the plugins' own, and the one that plenum or indy-node has for a
type. -/
inductive Handler
  | indy
  | mint
  | xfer
  | xfer100
  | xferFee
  | setFees
  | domainFee
  | feeTxnCatchup
  | authRuleFee
  | authRulesFee
deriving DecidableEq

/-- The handlers of each type, in the order they were registered. -/
abbrev Registry : Type := List (Str × Handler)

/-- The handlers a request of a type goes through. -/
def Registry.handlersOf (m : Registry) (typ : Str) : List Handler :=
  (m.filter (·.1 = typ)).map Prod.snd

/-- What plenum and indy-node register. -/
def indyRegistry (P : Platform) : Registry :=
  (P.domainTypes ++ [P.authRule, P.authRules]).map fun typ => (typ, .indy)

/-- `register_req_handlers` of sovtoken. -/
def registerTokenHandlers (m : Registry) : Registry :=
  m ++ [(xferPublic, .xfer), (mintPublic, .mint)]

/-- `register_req_handlers` of sovtokenfees. -/
def registerFeesHandlers (P : Platform) (m : Registry) : Registry :=
  let m := m ++ [(Token.Types.setFees, .setFees)]
  let m := m.filter (·.1 ≠ xferPublic)
  let m := m ++ [(xferPublic, .xferFee)]
  let m := m ++ P.domainTypes.map fun typ => (typ, .domainFee)
  m ++ [(feeTxn, .feeTxnCatchup), (P.authRule, .authRuleFee), (P.authRules, .authRulesFee)]

/-- The handlers after both plugins have been integrated. -/
def registry (P : Platform) : Registry :=
  registerFeesHandlers P (registerTokenHandlers (indyRegistry P))

section Registry
variable {m m' : Registry} {typ : Str} {h : Handler}

theorem handlersOf_append : (m ++ m').handlersOf typ = m.handlersOf typ ++ m'.handlersOf typ := by
  simp [Registry.handlersOf]

theorem handlersOf_cons_of_ne {t : Str} (ht : t ≠ typ) :
    Registry.handlersOf ((t, h) :: m) typ = m.handlersOf typ := by
  simp [Registry.handlersOf, ht]

theorem handlersOf_cons_self : Registry.handlersOf ((typ, h) :: m) typ = h :: m.handlersOf typ := by
  simp [Registry.handlersOf]

theorem handlersOf_nil : Registry.handlersOf [] typ = [] := rfl

/-- `remove_req_handler` of another type. -/
theorem handlersOf_filter_of_ne {t : Str} (ht : typ ≠ t) :
    Registry.handlersOf (m.filter (·.1 ≠ t)) typ = m.handlersOf typ := by
  unfold Registry.handlersOf
  rw [List.filter_filter]
  congr 2
  funext e
  by_cases he : e.1 = typ
  · simp [he, ht]
  · simp [he]

theorem handlersOf_filter_self : Registry.handlersOf (m.filter (·.1 ≠ typ)) typ = [] := by
  unfold Registry.handlersOf
  rw [List.filter_filter, List.map_eq_nil_iff, List.filter_eq_nil_iff]
  intro e _
  simp

theorem handlersOf_map_of_notMem {types : List Str} (ht : typ ∉ types) :
    Registry.handlersOf (types.map fun t => (t, h)) typ = [] := by
  unfold Registry.handlersOf
  rw [List.map_eq_nil_iff, List.filter_eq_nil_iff]
  intro e he
  obtain ⟨t, hmem, rfl⟩ := List.mem_map.mp he
  have : t ≠ typ := fun heq => ht (heq ▸ hmem)
  simpa using this

theorem handlersOf_map_of_mem {types : List Str} (hn : types.Nodup) (ht : typ ∈ types) :
    Registry.handlersOf (types.map fun t => (t, h)) typ = [h] := by
  induction types with
  | nil => cases ht
  | cons t types ih =>
    obtain ⟨hnt, hn⟩ := List.nodup_cons.mp hn
    rw [List.map_cons]
    by_cases heq : t = typ
    · subst heq
      rw [handlersOf_cons_self, handlersOf_map_of_notMem hnt]
    · rw [handlersOf_cons_of_ne heq]
      exact ih hn ((List.mem_cons.mp ht).resolve_left (Ne.symm heq))

/-- A transfer goes through the handler of the fees plugin, which has replaced that of the token
plugin. -/
theorem registry_xfer (P : Platform) : (registry P).handlersOf xferPublic = [.xferFee] := by
  have hdom : xferPublic ∉ P.domainTypes := fun h => P.types_disjoint _ h (by simp)
  have h1 : P.authRule ≠ xferPublic := fun h => P.rules_disjoint _ List.mem_cons_self (by rw [h]; decide)
  have h2 : P.authRules ≠ xferPublic := fun h =>
    P.rules_disjoint _ (List.mem_cons_of_mem _ List.mem_cons_self) (by rw [h]; decide)
  unfold registry registerFeesHandlers
  simp only [handlersOf_append, handlersOf_filter_self, handlersOf_cons_self,
    handlersOf_map_of_notMem hdom, handlersOf_nil, handlersOf_cons_of_ne h1,
    handlersOf_cons_of_ne h2, handlersOf_cons_of_ne (show feeTxn ≠ xferPublic by decide),
    List.nil_append, List.append_nil]

/-- A mint goes through the handler of the token plugin. -/
theorem registry_mint (P : Platform) : (registry P).handlersOf mintPublic = [.mint] := by
  have hdom : mintPublic ∉ P.domainTypes := fun h => P.types_disjoint _ h (by simp)
  have h1 : P.authRule ≠ mintPublic := fun h => P.rules_disjoint _ List.mem_cons_self (by rw [h]; decide)
  have h2 : P.authRules ≠ mintPublic := fun h =>
    P.rules_disjoint _ (List.mem_cons_of_mem _ List.mem_cons_self) (by rw [h]; decide)
  have hindy : mintPublic ∉ P.domainTypes ++ [P.authRule, P.authRules] := by
    simp [hdom, Ne.symm h1, Ne.symm h2]
  unfold registry registerFeesHandlers registerTokenHandlers indyRegistry
  simp only [handlersOf_append, handlersOf_cons_self, handlersOf_map_of_notMem hdom,
    handlersOf_map_of_notMem hindy, handlersOf_nil, handlersOf_cons_of_ne h1,
    handlersOf_filter_of_ne (show mintPublic ≠ xferPublic by decide),
    handlersOf_cons_of_ne h2, handlersOf_cons_of_ne (show feeTxn ≠ mintPublic by decide),
    handlersOf_cons_of_ne (show xferPublic ≠ mintPublic by decide),
    handlersOf_cons_of_ne (show Token.Types.setFees ≠ mintPublic by decide),
    List.nil_append, List.append_nil]

/-- A domain request goes through the handler of its type, then through `DomainFeeHandler`. -/
theorem registry_domain {P : Platform} (ht : typ ∈ P.domainTypes) :
    (registry P).handlersOf typ = [.indy, .domainFee] := by
  have hd := P.types_disjoint _ ht
  simp only [List.mem_cons, List.not_mem_nil, or_false, not_or] at hd
  obtain ⟨hmint, hxfer, hset, hfee, hr, hrs⟩ := hd
  have hindy : typ ∉ [P.authRule, P.authRules] := by simp [hr, hrs]
  unfold registry registerFeesHandlers registerTokenHandlers indyRegistry
  simp only [handlersOf_append, List.map_append, handlersOf_filter_of_ne hxfer,
    handlersOf_map_of_mem P.domainTypes_nodup ht, handlersOf_map_of_notMem hindy,
    handlersOf_cons_of_ne (Ne.symm hmint), handlersOf_cons_of_ne (Ne.symm hxfer),
    handlersOf_cons_of_ne (Ne.symm hset), handlersOf_cons_of_ne (Ne.symm hfee),
    handlersOf_cons_of_ne (Ne.symm hr), handlersOf_cons_of_ne (Ne.symm hrs), handlersOf_nil,
    List.append_nil, List.singleton_append]

/-- A FEES transaction has the handler that replays it and no other. -/
theorem registry_feeTxn (P : Platform) : (registry P).handlersOf feeTxn = [.feeTxnCatchup] := by
  have hdom : feeTxn ∉ P.domainTypes := fun h => P.types_disjoint _ h (by simp)
  have h1 : P.authRule ≠ feeTxn := fun h => P.rules_disjoint _ List.mem_cons_self (by rw [h]; decide)
  have h2 : P.authRules ≠ feeTxn := fun h =>
    P.rules_disjoint _ (List.mem_cons_of_mem _ List.mem_cons_self) (by rw [h]; decide)
  have hindy : feeTxn ∉ P.domainTypes ++ [P.authRule, P.authRules] := by
    simp [hdom, Ne.symm h1, Ne.symm h2]
  unfold registry registerFeesHandlers registerTokenHandlers indyRegistry
  simp only [handlersOf_append, handlersOf_cons_self, handlersOf_map_of_notMem hdom,
    handlersOf_map_of_notMem hindy, handlersOf_nil, handlersOf_cons_of_ne h1,
    handlersOf_filter_of_ne (show feeTxn ≠ xferPublic by decide), handlersOf_cons_of_ne h2,
    handlersOf_cons_of_ne (show xferPublic ≠ feeTxn by decide),
    handlersOf_cons_of_ne (show mintPublic ≠ feeTxn by decide),
    handlersOf_cons_of_ne (show Token.Types.setFees ≠ feeTxn by decide),
    List.nil_append, List.append_nil]

end Registry

/-- Which handler a transfer goes through: the registered one, the one of a node without the fees
plugin, or the one of version 1.0.0. -/
inductive XferVersion
  | registered
  | withoutFees
  | v100
deriving DecidableEq

/-- The handlers of an operation. -/
def handlersFor (P : Platform) (version : XferVersion) (op : Operation) : List Handler :=
  match op, version with
  | .xfer _ _ _, .withoutFees => [.xfer]
  | .xfer _ _ _, .v100 => [.xfer100]
  | _, _ => (registry P).handlersOf (txnType P op)

/-! ### Dynamic validation -/

/-- `write_req_validator.validate`: the authorizer is consulted on leaves of the auth rules of the
actions that the handler finds in the request, and has to accept those given. -/
def validate (r : Request) (auths : List AuthConstraint) : Py (Node P) Unit :=
  auths.forM fun c => do
    let n ← get
    let (ok, msg) ← onStores (authorize P n.configFees r c)
    if ok then pure () else raise ⟨.unauthorizedClientRequest, msg⟩

/-- `dynamic_validation` of a handler. -/
def dynamicValidation (r : Request) (auths : List AuthConstraint) (h : Handler) :
    Py (Node P) Unit :=
  match h, r.operation with
  | .xfer, .xfer inputs outputs _ | .xfer100, .xfer inputs outputs _ => do
    onStores (doValidateInputsOutputs inputs outputs)
    validate r auths
  | .indy, _ | .mint, _ | .xferFee, _ | .setFees, _ => validate r auths
  | .authRuleFee, .authRule constraint => do
    ofExcept (feesSpecificValidation (← get).configFees constraint)
  | .authRulesFee, .authRules rules => do
    ofExcept (feesSpecificValidationRules (← get).configFees rules)
  | _, _ => pure ()

/-! ### Application -/

/-- `WriteRequestHandler.apply_request` on the token ledger: the transaction is appended, then the
state is updated. -/
def applyTokenRequest (txn : ℕ → TokenTxn) (updateState : TokenTxn → Bool → Py (Stores P) Unit) :
    Py (Node P) Unit := do
  let txn ← appendToTokenLedger txn
  onStores (updateState txn false)

/-- What the type's own handler does for a domain request: its transaction is appended. -/
def appendToDomainLedger (typ : Str) (r : Request) (time : ℤ) : Py (Node P) DomainTxn := do
  let n ← get
  let txn : DomainTxn := ⟨typ, r.reqId, time, P.domainLedger.uncommittedSize n.domainLedger + 1, none⟩
  modify fun n => { n with domainLedger := P.domainLedger.appendTxns n.domainLedger [txn] }
  pure txn

/-- `current_fees.update(fees_from_req)`. -/
def updateFees (currentFees feesFromReq : FeesMap) : FeesMap :=
  feesFromReq.foldl (fun m e => e :: m.filter (·.1 ≠ e.1)) currentFees

/-- `apply_request` of a handler, given the result of the one before it. -/
def applyHandler (r : Request) (time : ℤ) (prev : Option DomainTxn) (h : Handler) :
    Py (Node P) (Option DomainTxn) :=
  match h, r.operation with
  | .mint, .mint outputs => do
    applyTokenRequest (mintTxn r outputs time) mintUpdateState
    pure none
  | .xfer, .xfer inputs outputs signatures | .xferFee, .xfer inputs outputs signatures => do
    applyTokenRequest (xferTxn r inputs outputs signatures time) xferUpdateState
    pure none
  | .xfer100, .xfer inputs outputs signatures => do
    applyTokenRequest (xferTxn r inputs outputs signatures time) xfer100UpdateState
    pure none
  | .indy, .domain typ => do
    let txn ← appendToDomainLedger typ r time
    pure (some txn)
  | .domainFee, .domain _ =>
    match prev with
    | some txn => do
      applyRequest r txn
      pure (some txn)
    | none => raise ⟨.typeError, "'NoneType' object is not subscriptable"⟩
  | .setFees, .setFees fees => do
    modify fun n => { n with configFees := updateFees n.configFees fees }
    pure none
  | _, _ => pure prev

/-- The handlers in turn. -/
def applyHandlers (r : Request) (time : ℤ) : List Handler → Option DomainTxn → Py (Node P) Unit
  | [], _ => pure ()
  | h :: hs, prev => do
    let result ← applyHandler r time prev h
    applyHandlers r time hs result

/-- The ledger of an operation, where it concerns the plugins. -/
def ledgerOf : Operation → Option LedgerId
  | .mint _ | .xfer _ _ _ => some .token
  | .domain _ => some .domain
  | _ => none

end TokenPlugin.Node
