import TokenPlugin.Token.TokenUtils

/-! # The token request handlers

`update_state` of the handlers of MINT_PUBLIC, XFER_PUBLIC and FEES transactions, and the validation
of a transfer against the cache. -/

namespace TokenPlugin.Token.Handlers

open Python Token.Types Token.UtxoCache Token.TokenUtils Lib.Program
open Lib.Program.Prog (raise ofExcept catching)

variable {S : Type} [TokenStores S]

/-- `except UTXOError as ex: raise OperationError(…)`, around every `update_state`. -/
def whileUpdatingState (x : Py S Unit) : Py S Unit :=
  catching x fun ex =>
    if ex.cls.isUTXOError then
      some (raise ⟨.operationError, ("Exception " : Str) ++ ex.msg ++ (" while updating state" : Str)⟩)
    else none

/-- `MintHandler.update_state`. -/
def mintUpdateState (txn : TokenTxn) (isCommitted : Bool) : Py S Unit :=
  whileUpdatingState (addNewOutputs txn.outputs txn.seqNo isCommitted)

/-- `update_state` of the transfer handlers, which differ in what becomes of a spent key. -/
def updateStateWith (removeSpent : Bool) (txn : TokenTxn) (isCommitted : Bool) : Py S Unit :=
  whileUpdatingState do
    spendInputs txn.inputs isCommitted removeSpent
    addNewOutputs txn.outputs txn.seqNo isCommitted

/-- `XferHandler.update_state`, inherited by `XferFeeHandler` and `FeeTxnCatchupHandler`. -/
def xferUpdateState (txn : TokenTxn) (isCommitted : Bool) : Py S Unit :=
  updateStateWith true txn isCommitted

/-- `XferHandler100.update_state`. -/
def xfer100UpdateState (txn : TokenTxn) (isCommitted : Bool) : Py S Unit :=
  updateStateWith false txn isCommitted

/-- `DomainFeeHandler.update_token_state`, which lets a `UTXOError` through as it is. -/
def updateTokenState (txn : TokenTxn) (isCommitted : Bool) : Py S Unit := do
  spendInputs txn.inputs isCommitted true
  addNewOutputs txn.outputs txn.seqNo isCommitted

/-- The code that a token transaction is applied by. -/
inductive Updater
  | mint
  | xfer
  | xfer100
  | fees
deriving DecidableEq

/-- Whether a spent key is removed. -/
def Updater.removeSpent : Updater → Bool
  | xfer100 => false
  | _ => true

/-- `update_state`, or `update_token_state` for the fees of a domain request. -/
def update (u : Updater) (txn : TokenTxn) (isCommitted : Bool) : Py S Unit :=
  match u with
  | .mint => mintUpdateState txn isCommitted
  | .xfer => xferUpdateState txn isCommitted
  | .xfer100 => xfer100UpdateState txn isCommitted
  | .fees => updateTokenState txn isCommitted

/-- `XferHandler._do_validate_inputs_ouputs`. -/
def doValidateInputsOutputs (inputs : List Input) (outputs : List OutputSpec) : Py S Unit := do
  let sumIn ← catching (sumInputsOf inputs false) fun ex =>
    if ex.cls.isInvalidClientMessage then none
    else some (raise ⟨.invalidClientMessage,
      ("Exception " : Str) ++ ex.msg ++ (" while processing inputs/outputs" : Str)⟩)
  let sumOut := sumOutputs outputs
  ofExcept (validateGivenInputsOutputs sumIn sumOut sumOut [])

/-! ### The transaction of a request -/

/-- The transaction of a MINT_PUBLIC request, as it is appended to the ledger. -/
def mintTxn (r : Request) (outputs : List OutputSpec) (txnTime : ℤ) (seqNo : ℕ) : TokenTxn where
  type := mintPublic
  inputs := []
  outputs := outputs
  ref := none
  fees := none
  sigs := r.sigs
  reqId := r.reqId
  txnTime := txnTime
  seqNo := seqNo

/-- `XferHandler._req_to_txn`: the signatures of the inputs join those of the request. -/
def xferTxn (r : Request) (inputs : List Input) (outputs : List OutputSpec) (signatures : List Json)
    (txnTime : ℤ) (seqNo : ℕ) : TokenTxn where
  type := xferPublic
  inputs := inputs
  outputs := outputs
  ref := none
  fees := none
  sigs := r.sigs ++ (inputs.zip signatures).map fun p => (p.1.address, p.2)
  reqId := r.reqId
  txnTime := txnTime
  seqNo := seqNo

end TokenPlugin.Token.Handlers
