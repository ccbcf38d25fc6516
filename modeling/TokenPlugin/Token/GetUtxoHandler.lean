import TokenPlugin.Messages.Fields
import TokenPlugin.Token.TokenUtils

/-! # `GetUtxoHandler`

A GET_UTXO request asks for the unspent outputs of an address. The handler lists the entries of the
token state whose keys begin with the address, sorts the outputs by their numbers, and replies with at
most a thousand of them and the number that the next page starts from. The entries and the proof are
those of the current head of the state; the root hash in the reply is that of the committed head. -/

namespace TokenPlugin.Token.GetUtxoHandler

open Python Token.Types Token.TokenUtils Messages.Fields Platform

/-! ### What the handler reads from -/

/-- `generate_state_proof_for_keys_with_prefix`, by the root it walks from: the entries of the keys
with a prefix, and the proof. The order of the entries depends on their keys alone, and the nodes of
a proof start with the root node. -/
structure PrefixReads (p : PruningState) where
  entries : p.Root → Str → List (Str × Str)
  proofNodes : p.Root → Str → Json
  /-- The order of the trie. -/
  before : Str → Str → Prop
  before_asymm : ∀ k l, before k l → ¬before l k
  mem_entries : ∀ r address k v, (k, v) ∈ entries r address ↔ address <+: k ∧ p.lookup r k = some v
  entries_sorted : ∀ r address, (entries r address).Pairwise fun e f => before e.1 f.1
  proofNodes_injective : ∀ address, Function.Injective fun r => proofNodes r address

/-- What a node has to answer with: its serializers, the multi-signatures it has collected, each
under the root it signs, and the limit on the length of a message. -/
structure ReadNode (P : Platform) where
  reads : PrefixReads P.state
  serializeRoot : P.state.Root → Str
  blsStore : Str → Option Json
  dumps : Json → Str
  msgLimit : ℕ

/-- A GET_UTXO request. -/
structure ReadRequest where
  identifier : Str
  reqId : ℤ
  operation : List (Str × Json)

/-! ### Static validation -/

/-- `address_validate`. -/
def addressValidate (P : Platform) (op : List (Str × Json)) : Except PyErr Unit :=
  match Json.field op "address" with
  | none => .error ⟨.invalidClientRequest, "address needs to be provided"⟩
  | some address => do
    match ← publicAddressField P address with
    | some error => .error ⟨.invalidClientRequest, error⟩
    | none => .ok ()

/-- `from_validate`. -/
def fromValidate (op : List (Str × Json)) : Verdict :=
  match Json.field op "from" with
  | none => valid
  | some fromSeqno => (txnSeqNoField fromSeqno).andThen "'from' validation failed: " valid

/-- `GetUtxoHandler.static_validation`. -/
def staticValidation (P : Platform) (op : List (Str × Json)) : Except PyErr Unit := do
  addressValidate P op
  match ← fromValidate op with
  | some error => .error ⟨.invalidClientRequest, error⟩
  | none => .ok ()

/-! ### The outputs of an address -/

/-- `parse_state_key`. -/
def parseStateKey (key : Str) : List Str := key.splitOn ':'

/-- `Output.less_than`. -/
def lessThan (o o' : Output) : Bool := o.seqNo.val < o'.seqNo.val

/-- `SortedItems.add`: the items, least first; an item goes behind those that are not greater. -/
def SortedItems.add (items : List Output) (item : Output) : List Output :=
  items.takeWhile (¬lessThan item ·) ++ item :: items.dropWhile (¬lessThan item ·)

/-- One turn of the loop over the entries; a key without an amount is skipped. -/
def outputOfEntry (k amount : Str) : Except PyErr (Option Output) :=
  match parseStateKey k with
  | [addr, seqNo] =>
    if amount = [] then .ok none
    else do
      let seqNo ← pyInt seqNo
      let amount ← pyInt amount
      .ok (some ⟨addr, .int seqNo, some (.int amount)⟩)
  | _ => .error ⟨.valueError, "wrong number of values to unpack"⟩

/-- The loop over the entries. -/
def addOutputs : List (Str × Str) → List Output → Except PyErr (List Output)
  | [], outputs => .ok outputs
  | (k, amount) :: rv, outputs => do
    match ← outputOfEntry k amount with
    | some output => addOutputs rv (SortedItems.add outputs output)
    | none => addOutputs rv outputs

/-! ### Pages -/

def utxoLimit : ℕ := 1000

/-- `utxos[idx:]`, where an index of 0 is taken for no index. -/
def startFrom (utxos : List Output) (fromSeqno : PyInt) : List Output :=
  match utxos.findIdx? fun utxo => fromSeqno.val ≤ utxo.seqNo.val with
  | some idx => if idx ≠ 0 then utxos.drop idx else []
  | none => []

/-- The outputs from the number asked for on; no number, or 0, asks for all. -/
def startAt (utxos : List Output) : Option PyInt → List Output
  | some fromSeqno => if fromSeqno.val ≠ 0 then startFrom utxos fromSeqno else utxos
  | none => utxos

/-- The number that the next page starts from. -/
def nextSeqno (utxos : List Output) : Option PyInt :=
  if utxoLimit < utxos.length then (utxos[utxoLimit]?).map Output.seqNo else none

/-! ### The reply -/

/-- An integer or a boolean, as it is written. -/
def ofPyInt : PyInt → Json
  | .int z => .int z
  | .bool b => .bool b

/-- An output, as it is written. -/
def ofOutput (o : Output) : Json :=
  .obj [("address", .str o.address), ("seqNo", ofPyInt o.seqNo),
    ("amount", (o.amount.map ofPyInt).getD .null)]

/-- `result[key] = value`. -/
def setItem (result : List (Str × Json)) (key : Str) (value : Json) : List (Str × Json) :=
  (key, value) :: result.filter (·.1 ≠ key)

/-- `result.update(operation)`. -/
def update (result operation : List (Str × Json)) : List (Str × Json) :=
  operation.foldl (fun result e => setItem result e.1 e.2) result

/-- The reply without a proof. -/
def resultOf (r : ReadRequest) (utxos : List Output) : List (Str × Json) :=
  let result : List (Str × Json) := [("identifier", .str r.identifier), ("reqId", .int r.reqId),
    ("outputs", .list ((utxos.take utxoLimit).map ofOutput))]
  let result := update result r.operation
  match nextSeqno utxos with
  | some seqNo => if seqNo.val ≠ 0 then setItem result "next" (ofPyInt seqNo) else result
  | none => result

variable {P : Platform}

/-- The proof, where there is a multi-signature of the committed root. -/
def stateProof (N : ReadNode P) (state : P.state.Carrier) (address : Str) : Option Json :=
  let encodedRootHash := N.serializeRoot (P.state.committedHeadHash state)
  (N.blsStore encodedRootHash).map fun multiSig =>
    .obj [("multi_signature", multiSig), ("root_hash", .str encodedRootHash),
      ("proof_nodes", N.reads.proofNodes (P.state.headHash state) address)]

/-- The reply with the proof, where it is not too long. -/
def attach (N : ReadNode P) (result : List (Str × Json)) : Option Json → List (Str × Json)
  | some proof =>
    let resSub := setItem result "state_proof" proof
    if (N.dumps (.obj resSub)).length ≤ N.msgLimit then resSub else result
  | none => result

/-- `GetUtxoHandler.get_result`, of a request that has passed static validation. -/
def getResult (N : ReadNode P) (state : P.state.Carrier) (r : ReadRequest) :
    Except PyErr (List (Str × Json)) := do
  let address ← getItem r.operation "address"
  let address := (asStr address).getD []
  let fromSeqno := (Json.field r.operation "from").bind Json.asInt
  let outputs ← addOutputs (N.reads.entries (P.state.headHash state) address) []
  let utxos := startAt outputs fromSeqno
  .ok (attach N (resultOf r utxos) (stateProof N state address))

end TokenPlugin.Token.GetUtxoHandler
