import TokenPlugin.Python

/-! # Requests and transactions

The data that the handlers of the two plugins read and write. -/

namespace TokenPlugin.Token.Types

open Python

/-! ### Constants -/

def mintPublic : Str := "10000"
def xferPublic : Str := "10001"
def getUtxo : Str := "10002"

def setFees : Str := "20000"
def getFees : Str := "20001"
def feeTxn : Str := "20002"
def getFee : Str := "20003"

/-! ### Payments -/

/-- An entry of `inputs`: the output to spend. -/
structure Input where
  address : Str
  seqNo : PyInt
deriving DecidableEq

/-- An entry of `outputs`: the amount to pay to an address. -/
structure OutputSpec where
  address : Str
  amount : PyInt
deriving DecidableEq

/-- `sovtoken.types.Output`; the amount is missing where only the name of an output is meant. -/
structure Output where
  address : Str
  seqNo : PyInt
  amount : Option PyInt
deriving DecidableEq

/-- The `fees` attribute of a request: inputs, change, and a signature for each input. -/
structure FeesSection where
  inputs : List Input
  outputs : List OutputSpec
  signatures : List Json
deriving DecidableEq

/-- The fees set by SET_FEES: what each alias costs. -/
abbrev FeesMap : Type := List (Str × ℕ)

/-- A role constraint: a leaf of an auth rule, with its metadata. -/
structure AuthConstraint where
  metadata : List (Str × Str)
deriving DecidableEq

/-- The constraint of an auth rule. -/
inductive Constraint
  | role (c : AuthConstraint)
  | group (authConstraints : List Constraint)
  | forbidden

/-! ### Requests -/

/-- The operations of the write requests, with the fields that the plugins read. -/
inductive Operation
  | mint (outputs : List OutputSpec)
  | xfer (inputs : List Input) (outputs : List OutputSpec) (signatures : List Json)
  | setFees (fees : FeesMap)
  | authRule (constraint : Constraint)
  | authRules (rules : List Constraint)
  | domain (typ : Str)

/-- A client request. `fees` is `none` where the attribute is missing or null. -/
structure Request where
  identifier : Str
  reqId : ℤ
  operation : Operation
  fees : Option FeesSection
  /-- The signatures of the request itself, one per identifier. -/
  sigs : List (Str × Json)
  payloadDigest : Str

/-! ### Transactions -/

/-- A transaction of the token ledger. `ref` and `fees` are set on FEES transactions only. -/
structure TokenTxn where
  type : Str
  inputs : List Input
  outputs : List OutputSpec
  ref : Option Str
  fees : Option ℤ
  sigs : List (Str × Json)
  reqId : ℤ
  txnTime : ℤ
  seqNo : ℕ
deriving DecidableEq

/-- A transaction of the domain ledger. `fees` is set on the reply when the batch is committed. -/
structure DomainTxn where
  type : Str
  reqId : ℤ
  txnTime : ℤ
  seqNo : ℕ
  fees : Option TokenTxn
deriving DecidableEq

end TokenPlugin.Token.Types
