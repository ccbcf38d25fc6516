import TokenPlugin.Platform

/-! # The UTXO cache

For each address the cache holds one text, `seqNo:amount:seqNo:amount:…`, the outputs of the address
that are unspent. `UTXOAmounts` is that text taken apart. The cache and the token state are written
side by side, so the programs here and in the handlers run over any `TokenStores`: the stores of a
node, or two plain maps. -/

namespace TokenPlugin.Token.UtxoCache

open Python Token.Types Lib.Program
open Lib.Program.Prog (get modify ofExcept)

/-- The key-value stores that the token handlers read and write. The `Bool` is `is_committed`. -/
class TokenStores (S : Type) where
  cacheGet : S → Str → Bool → Option Str
  cacheSet : S → Str → Str → Bool → S
  stateSet : S → Str → Str → S
  stateRemove : S → Str → S

/-! ### The text of an address, taken apart -/

/-- `UTXOAmounts`: sequence numbers at even places, their amounts after them. -/
structure UTXOAmounts where
  address : Str
  data : List Str

namespace UTXOAmounts

def delimiter : Char := ':'

/-- `__init__`; a missing or empty text gives no outputs. -/
def init (address : Str) (data : Option Str) : Except PyErr UTXOAmounts :=
  match data.getD [] with
  | [] => .ok ⟨address, []⟩
  | d =>
    let split := d.splitOn delimiter
    if split.length % 2 = 0 then .ok ⟨address, split⟩
    else .error ⟨.utxoError, "Stored seqNo-amount pairs is not even"⟩

/-- `add_amount`. -/
def addAmount (u : UTXOAmounts) (seqNo : PyInt) (amount : Option PyInt) : Except PyErr UTXOAmounts :=
  match amount with
  | some v => .ok { u with data := u.data ++ [seqNo.str, v.str] }
  | none => .error ⟨.utxoError,
      ("Adding invalid types -- seqNo:" : Str) ++ seqNo.str ++ (" amount:None" : Str)⟩

/-- The first even place, from `i` on, that holds a text. -/
def indexFrom (s : Str) (i : ℕ) : List Str → Option ℕ
  | [] => none
  | x :: rest =>
    if x = s then some i else
      match rest with
      | [] => none
      | _ :: rest => indexFrom s (i + 2) rest

/-- `remove_seq_no`: the number at the first place it is found and the item after it. -/
def removeSeqNo (u : UTXOAmounts) (seqNo : PyInt) : Except PyErr UTXOAmounts :=
  match indexFrom seqNo.str 0 u.data with
  | none => .error ⟨.utxoNotFound, ("seq_no " : Str) ++ seqNo.str ++
      (" is not found is list of seq_nos_amounts for address -- current list: " : Str) ++
      showStrs u.data⟩
  | some i =>
    if i < u.data.length ∧ i + 1 < u.data.length then
      .ok { u with data := (u.data.eraseIdx i).eraseIdx i }
    else .error ⟨.utxoError, "Unable to remove seq_no from address"⟩

/-- The loop of `sum_amounts`: the total and the numbers not found. It ends early when every number
has been found. -/
def sumLoop : List Str → List PyInt → ℤ → Except PyErr (ℤ × List PyInt)
  | [], seqNos, total => .ok (total, seqNos)
  | x :: rest, seqNos, total => do
    let n ← pyInt x
    match rest with
    | [] =>
      if n ∈ seqNos.map PyInt.val then .error ⟨.indexError, "list index out of range"⟩
      else .ok (total, seqNos)
    | y :: rest =>
      if n ∈ seqNos.map PyInt.val then do
        let m ← pyInt y
        let seqNos' := seqNos.eraseP (·.val = n)
        if seqNos' = [] then .ok (total + m, []) else sumLoop rest seqNos' (total + m)
      else sumLoop rest seqNos total

/-- `sum_amounts`. -/
def sumAmounts (u : UTXOAmounts) (seqNos : List PyInt) : Except PyErr ℤ := do
  let (total, missing) ← sumLoop u.data seqNos 0
  if missing = [] then .ok total
  else .error ⟨.utxoNotFound, ("seq_nos " : Str) ++ showSet missing ++
      (" are not found in list of seq_nos_amounts for address " : Str) ++ u.address ++
      (" -- current list: " : Str) ++ showStrs u.data⟩

/-- The loop of `as_output_list`. -/
def outputList (address : Str) : List Str → Except PyErr (List Output)
  | seqNo :: amount :: rest =>
    match pyInt seqNo, pyInt amount with
    | .ok n, .ok v => do
      let rtn ← outputList address rest
      .ok (⟨address, .int n, some (.int v)⟩ :: rtn)
    | _, _ => .error ⟨.utxoError, ("Invalid data -- not integers -- seq_no:" : Str) ++ seqNo ++
        (" amount:" : Str) ++ amount ++ (", address:" : Str) ++ address⟩
  | _ => .ok []

/-- `as_output_list`. -/
def asOutputList (u : UTXOAmounts) : Except PyErr (List Output) :=
  if u.data.length % 2 = 0 then outputList u.address u.data
  else .error ⟨.utxoError, ("Length of seqNo-amount pairs must be even: items=" : Str) ++
      Lib.Text.intText u.data.length⟩

/-- `as_str`. -/
def asStr (u : UTXOAmounts) : Except PyErr Str :=
  if u.data.length % 2 = 0 then .ok ([delimiter].intercalate u.data)
  else .error ⟨.utxoError, ("Length of seqNo-amount pairs must be even: items=" : Str) ++
      Lib.Text.intText u.data.length⟩

end UTXOAmounts

/-! ### The cache -/

variable {S : Type} [TokenStores S]

/-- `UTXOAmounts.get_amounts`, of what the cache has for the address; `none` is a `KeyError`. -/
def amountsOf (address : Str) (makeNew : Bool) : Option Str → Except PyErr UTXOAmounts
  | some data => UTXOAmounts.init address (some data)
  | none =>
    if makeNew then UTXOAmounts.init address none
    else .error ⟨.utxoAddressNotFound, ("Address " : Str) ++ address ++ (" was not found" : Str)⟩

/-- `UTXOAmounts.get_amounts`. -/
def getAmounts (address : Str) (makeNew isCommitted : Bool) : Py S UTXOAmounts := do
  ofExcept (amountsOf address makeNew (TokenStores.cacheGet (← get) address isCommitted))

/-- `UTXOCache.add_output`. -/
def addOutput (output : Output) (isCommitted : Bool) : Py S Unit := do
  let seqNosAmounts ← getAmounts output.address true isCommitted
  let seqNosAmounts ← ofExcept (seqNosAmounts.addAmount output.seqNo output.amount)
  let text ← ofExcept seqNosAmounts.asStr
  modify fun s => TokenStores.cacheSet s output.address text isCommitted

/-- `UTXOCache.spend_output`. -/
def spendOutput (output : Output) (isCommitted : Bool) : Py S Unit := do
  let seqNosAmounts ← getAmounts output.address false isCommitted
  let seqNosAmounts ← ofExcept (seqNosAmounts.removeSeqNo output.seqNo)
  let text ← ofExcept seqNosAmounts.asStr
  modify fun s => TokenStores.cacheSet s output.address text isCommitted

/-- `UTXOCache.get_unspent_outputs`. -/
def getUnspentOutputs (address : Str) (isCommitted : Bool) : Py S (List Output) := do
  let seqNosAmounts ← getAmounts address true isCommitted
  ofExcept seqNosAmounts.asOutputList

/-- Adding a number to the set of an address; equal numbers are one element. -/
def addSeqNo (address : Str) (seqNo : PyInt) :
    List (Str × List PyInt) → List (Str × List PyInt)
  | [] => [(address, [seqNo])]
  | (a, seqNos) :: rest =>
    if a = address then
      (a, if seqNo.val ∈ seqNos.map PyInt.val then seqNos else seqNos ++ [seqNo]) :: rest
    else (a, seqNos) :: addSeqNo address seqNo rest

/-- The numbers asked for, one set for each address. -/
def groupInputs (inputs : List Input) : List (Str × List PyInt) :=
  inputs.foldl (fun groups inp => addSeqNo inp.address inp.seqNo groups) []

/-- The sum over the addresses. -/
def sumGroups (isCommitted : Bool) : List (Str × List PyInt) → ℤ → Py S ℤ
  | [], outputVal => pure outputVal
  | (addr, seqNos) :: rest, outputVal => do
    let seqNosAmounts ← getAmounts addr false isCommitted
    let total ← ofExcept (seqNosAmounts.sumAmounts seqNos)
    sumGroups isCommitted rest (outputVal + total)

/-- `UTXOCache.sum_inputs`. -/
def sumInputs (inputs : List Input) (isCommitted : Bool) : Py S ℤ :=
  sumGroups isCommitted (groupInputs inputs) 0

theorem readOnly_getAmounts (address : Str) (makeNew isCommitted : Bool) :
    ReadOnly (getAmounts address makeNew isCommitted : Py S UTXOAmounts) :=
  readOnly_get.bind fun _ => readOnly_ofExcept _

end TokenPlugin.Token.UtxoCache
