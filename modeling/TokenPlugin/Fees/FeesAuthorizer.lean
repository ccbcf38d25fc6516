import TokenPlugin.Token.TokenUtils

/-! # `FeesAuthorizer`

An authorizer of indy's write-request validator. For a leaf of the auth rule of an action it looks up
the fee the leaf asks for, and checks that the request pays exactly that: from the operation's own
inputs for a transfer, from the fee section for every other type. -/

namespace TokenPlugin.Fees.FeesAuthorizer

open Python Token.Types Token.UtxoCache Token.TokenUtils Lib.Program
open Lib.Program.Prog (raise ofExcept catching)

variable {S : Type} [TokenStores S]

/-- The type of an operation. -/
def txnType (P : Platform) : Operation → Str
  | .mint _ => mintPublic
  | .xfer _ _ _ => xferPublic
  | .setFees _ => Token.Types.setFees
  | .authRule _ => P.authRule
  | .authRules _ => P.authRules
  | .domain typ => typ

/-- `request.operation[INPUTS]` and `request.operation[OUTPUTS]`. -/
def operationPayment : Operation → Except PyErr (List Input × List OutputSpec)
  | .xfer inputs outputs _ => .ok (inputs, outputs)
  | _ => .error ⟨.keyError, "inputs"⟩

/-- `request.fees[0]` and `get_change_for_fees(request)`. -/
def feesPayment (r : Request) : Except PyErr (List Input × List OutputSpec) :=
  match r.fees with
  | some fees => .ok (fees.inputs, fees.outputs)
  | none => .error ⟨.typeError, "'NoneType' object is not subscriptable"⟩

/-- `has_fees`. -/
def hasFees (r : Request) : Bool := r.fees.isSome

/-- `calculate_fees_from_req`; any exception of the sum over the inputs makes it 0. -/
def calculateFeesFromReq (r : Request) : Py S ℤ := do
  let (inputs, outputs) ← ofExcept (if hasFees r then feesPayment r else operationPayment r.operation)
  catching (do
      let sumIn ← sumInputs inputs false
      pure (sumIn - sumOutputs outputs))
    fun _ => some (pure 0)

/-- `_validate_fees_can_pay`. -/
def validateFeesCanPay (inputs : List Input) (outputs : List OutputSpec) (requiredFees : ℤ) :
    Py S Unit := do
  let sumIn ← catching (sumInputs inputs false) fun ex =>
    if ex.cls.isUTXOError then some (raise ⟨.invalidFunds, ex.msg⟩)
    else some (raise ⟨.unauthorizedClientRequest,
      ("Exception " : Str) ++ ex.msg ++ (" while processing inputs/outputs" : Str)⟩)
  let changeAmount := sumOutputs outputs
  let expectedAmount := changeAmount + requiredFees
  ofExcept (validateGivenInputsOutputs sumIn changeAmount expectedAmount
    (("fees: " : Str) ++ Lib.Text.intText requiredFees))

/-- `_can_pay_fees`. -/
def canPayFees' (P : Platform) (r : Request) (requiredFees : ℤ) : Py S Unit := do
  let (inputs, outputs) ← ofExcept (if txnType P r.operation = xferPublic
    then operationPayment r.operation else feesPayment r)
  validateFeesCanPay inputs outputs requiredFees

/-- `can_pay_fees`. -/
def canPayFees (P : Platform) (r : Request) (requiredFees : ℤ) : Py S (Bool × Str) :=
  catching (do canPayFees' P r requiredFees; pure (true, [])) fun e =>
    if e.cls.isInvalidClientMessage then some (pure (false, e.msg)) else none

/-- `_get_fees_alias_from_constraint`. -/
def getFeesAliasFromConstraint (c : AuthConstraint) : Option Str :=
  List.lookup ("fees" : Str) c.metadata

/-- `fees.get(alias, 0)`. -/
def feesAmount (fees : FeesMap) (c : AuthConstraint) : ℕ :=
  ((getFeesAliasFromConstraint c).bind fun key => List.lookup key fees).getD 0

/-- What a fee section would pay where no fee is asked for. -/
def unaskedFees (amount : ℕ) (r : Request) : Py S ℤ :=
  if amount = 0 ∧ hasFees r then calculateFeesFromReq r else pure 0

/-- `authorize` of a request that is no transfer. -/
def authorizeSection (P : Platform) (amount : ℕ) (r : Request) : Py S (Bool × Str) :=
  if 0 < amount ∧ ¬hasFees r then pure (false, "Fees are required for this txn type")
  else do
    let unasked ← unaskedFees amount r
    if unasked > 0 then pure (false, "Fees are not required for this txn type")
    else if amount = 0 ∧ ¬hasFees r then pure (true, [])
    else canPayFees P r amount

/-- `authorize`, given the fees of the uncommitted config state. -/
def authorize (P : Platform) (fees : FeesMap) (r : Request) (c : AuthConstraint) :
    Py S (Bool × Str) :=
  let amount := feesAmount fees c
  if txnType P r.operation ≠ xferPublic then authorizeSection P amount r
  else canPayFees P r amount

end TokenPlugin.Fees.FeesAuthorizer
