import TokenPlugin.Database
import TokenPlugin.Token.Handlers
import TokenPlugin.Fees.FeesAuthorizer

/-! # `DomainFeeHandler`

Registered after the handler of each domain transaction type: when the request has a fee section, a
FEES transaction is appended to the token ledger, its inputs are spent and its change is added. -/

namespace TokenPlugin.Fees.DomainFeeHandler

open Python Token.Types Token.UtxoCache Token.Handlers Database Fees.FeesAuthorizer Lib.Program
open Lib.Program.Prog (raise get modify ofExcept)

/-! ### `BatchFeesTracker` -/

/-- `"{}#{}".format(txn_type, seq_no)`. -/
def feesKey (txnType : Str) (seqNo : ℕ) : Str := txnType ++ '#' :: Lib.Text.intText seqNo

/-- `add_deducted_fees`. -/
def addDeductedFees (t : BatchFeesTracker) (txnType : Str) (seqNo : ℕ) (fees : ℤ) :
    BatchFeesTracker :=
  let key := feesKey txnType seqNo
  { t with deductedFees := (key, fees) :: t.deductedFees.filter (·.1 ≠ key) }

/-- `has_deducted_fees`. -/
def hasDeductedFees (t : BatchFeesTracker) (txnType : Str) (seqNo : ℕ) : Bool :=
  feesKey txnType seqNo ∈ t.deductedFees.map Prod.fst

/-! ### The handler -/

variable {P : Platform}

/-- `_get_ref_for_txn_fees`. -/
def getRefForTxnFees (P : Platform) (seqNo : ℕ) : Str :=
  Lib.Text.intText P.domainLedgerId ++ ':' :: Lib.Text.intText seqNo

/-- `{i[ADDRESS]: s for i, s in zip(inputs, signatures)}`: a later signature of an address replaces
the earlier one. -/
def sigsByAddress (inputs : List Input) (signatures : List Json) : List (Str × Json) :=
  (inputs.zip signatures).foldl (fun sigs p =>
    if p.1.address ∈ sigs.map Prod.fst then
      sigs.map fun e => if e.1 = p.1.address then (e.1, p.2) else e
    else sigs ++ [(p.1.address, p.2)]) []

/-- The FEES transaction of a fee section. -/
def feesTxn (P : Platform) (s : FeesSection) (prev : DomainTxn) (fees : ℤ) (seqNo : ℕ) : TokenTxn where
  type := feeTxn
  inputs := s.inputs
  outputs := s.outputs
  ref := some (getRefForTxnFees P prev.seqNo)
  fees := some fees
  sigs := sigsByAddress s.inputs s.signatures
  reqId := prev.reqId
  txnTime := prev.txnTime
  seqNo := seqNo

/-- `append_txns_metadata` and `appendTxns` on the token ledger: the transaction gets the next
sequence number. -/
def appendToTokenLedger (txn : ℕ → TokenTxn) : Py (Node P) TokenTxn := do
  let n ← get
  let txn := txn (P.ledger.uncommittedSize n.tokenLedger + 1)
  modify fun n => n.setTokenLedger (P.ledger.appendTxns n.tokenLedger [txn])
  pure txn

/-- `apply_request`, given the transaction that the type's own handler has written. -/
def applyRequest (r : Request) (prev : DomainTxn) : Py (Node P) Unit := do
  match r.fees with
  | none => pure ()
  | some section_ =>
    -- the fees map is changed from the config ledger only, so it is what it was at authorisation
    let fees ← onStores (calculateFeesFromReq r)
    let txn ← appendToTokenLedger fun seqNo => feesTxn P section_ prev fees seqNo
    onStores (updateTokenState txn false)
    onFeesTracker fun t => { t with feesInCurrentBatch := t.feesInCurrentBatch + 1 }
    onFeesTracker fun t => addDeductedFees t (txnType P r.operation) prev.seqNo fees

end TokenPlugin.Fees.DomainFeeHandler
