import TokenPlugin.Token.UtxoCache

/-! # `TokenStaticHelper`

Spending an input and adding an output, each in the token state and in the cache, and the comparison
of what is put in with what is asked for. -/

namespace TokenPlugin.Token.TokenUtils

open Python Token.Types Token.UtxoCache Lib.Program
open Lib.Program.Prog (raise get modify ofExcept catching)

variable {S : Type} [TokenStores S]

/-- `create_state_key`. -/
def createStateKey (address : Str) (seqNo : PyInt) : Str := address ++ ':' :: seqNo.str

/-- `str(amount)`. -/
def amountStr (amount : Option PyInt) : Str := (amount.map PyInt.str).getD "None"

/-- `spend_input`. -/
def spendInput (address : Str) (seqNo : PyInt) (isCommitted removeSpent : Bool) : Py S Unit := do
  let stateKey := createStateKey address seqNo
  if removeSpent then modify fun s => TokenStores.stateRemove s stateKey
  else modify fun s => TokenStores.stateSet s stateKey []
  spendOutput ⟨address, seqNo, none⟩ isCommitted

/-- `add_new_output`. -/
def addNewOutput (output : Output) (isCommitted : Bool) : Py S Unit := do
  let stateKey := createStateKey output.address output.seqNo
  modify fun s => TokenStores.stateSet s stateKey (amountStr output.amount)
  addOutput output isCommitted

/-- `sum_inputs` of a request with the inputs given. -/
def sumInputsOf (inputs : List Input) (isCommitted : Bool) : Py S ℤ :=
  catching (sumInputs inputs isCommitted) fun ex =>
    if ex.cls.isUTXOError then some (raise ⟨.invalidFunds, ex.msg⟩) else none

/-- `sum_outputs`. -/
def sumOutputs (outputs : List OutputSpec) : ℤ := (outputs.map (·.amount.val)).sum

/-- `validate_given_inputs_outputs`. -/
def validateGivenInputsOutputs (inputsSum outputsSum requiredAmount : ℤ) (errorMsgSuffix : Str) :
    Except PyErr Unit :=
  let suffix := if errorMsgSuffix = [] then [] else ' ' :: errorMsgSuffix
  let text := Lib.Text.intText
  if inputsSum = requiredAmount then .ok ()
  else if inputsSum > requiredAmount then
    .error ⟨.extraFunds, ("Extra funds, sum of inputs is " : Str) ++ text inputsSum ++
      (" but required amount: " : Str) ++ text requiredAmount ++
      (" -- sum of outputs: " : Str) ++ text outputsSum ++ suffix⟩
  else if inputsSum < requiredAmount then
    .error ⟨.insufficientFunds, ("Insufficient funds, sum of inputs is " : Str) ++ text inputsSum ++
      ("but required amount is " : Str) ++ text requiredAmount ++
      (". sum of outputs: " : Str) ++ text outputsSum ++ suffix⟩
  else .error ⟨.invalidClientMessage, "Request to not meet minimum requirements"⟩

/-- Spending the inputs of a transaction one by one. -/
def spendInputs (inputs : List Input) (isCommitted removeSpent : Bool) : Py S Unit :=
  inputs.forM fun inp => spendInput inp.address inp.seqNo isCommitted removeSpent

/-- Adding the outputs of transaction number `seqNo` one by one. -/
def addNewOutputs (outputs : List OutputSpec) (seqNo : ℕ) (isCommitted : Bool) : Py S Unit :=
  outputs.forM fun out => addNewOutput ⟨out.address, .int seqNo, some out.amount⟩ isCommitted

theorem validateGivenInputsOutputs_eq_ok {i o r : ℤ} {suffix : Str} {u : Unit} :
    validateGivenInputsOutputs i o r suffix = .ok u ↔ i = r := by
  unfold validateGivenInputsOutputs
  by_cases h : i = r
  · simp [h]
  · rcases Int.lt_or_gt_of_ne h with hlt | hgt
    · have : ¬i > r := by omega
      simp [h, hlt, this]
    · simp [h, hgt]

/-- Funds that do not match are an error of the client. -/
theorem exists_validateGivenInputsOutputs_error {i r : ℤ} (o : ℤ) (suffix : Str) (h : i ≠ r) :
    ∃ e, validateGivenInputsOutputs i o r suffix = .error e ∧ e.cls.isInvalidClientMessage = true := by
  unfold validateGivenInputsOutputs
  rcases Int.lt_or_gt_of_ne h with hlt | hgt
  · have : ¬i > r := by omega
    simp [h, hlt, this, ErrClass.isInvalidClientMessage]
  · simp [h, hgt, ErrClass.isInvalidClientMessage]

end TokenPlugin.Token.TokenUtils
