import Mathlib
import TokenPlugin.Lib.LastWrite
import TokenPlugin.Messages.Fields
import TokenPlugin.Token.GetUtxoHandler
import TokenPlugin.Fees.FeesAuthorizer

/-! # The fees in the config state

SET_FEES writes every fee twice: under a key of its alias, and into a map of all fees under a key of
its own. GET_FEE reads the first, GET_FEES and the authorizer read the second. -/

namespace TokenPlugin.Fees.ConfigState

open Python Token.Types Messages.Fields Platform Lib.Program
open Token.GetUtxoHandler (ofPyInt setItem update)
open Lib.Program.Prog (raise get modify ofExcept)

/-! ### What is stored -/

/-- A `dict` from aliases to amounts. -/
abbrev FeesDict : Type := AList fun _ : Str => PyInt

/-- A value under one of the fees keys: an amount, or the map of all of them. -/
inductive StateValue
  | amount (v : PyInt)
  | all (fees : FeesDict)
deriving DecidableEq

/-- The entries of the map, as they are written. -/
def entriesOf (fees : FeesDict) : List (Str × Json) := fees.entries.map fun e => (e.1, ofPyInt e.2)

/-- The value, as it is written. -/
def StateValue.toJson : StateValue → Json
  | amount v => ofPyInt v
  | all fees => .obj (entriesOf fees)

/-- What the handlers of the config ledger are given: the state, the serializers, the proofs and
multi-signatures of a state, and whether plenum's messages allow unknown fields. A map comes back with
the same entries, in any order. -/
structure ConfigPlatform where
  state : PruningState
  serialize : StateValue → Str
  deserialize : Str → Except PyErr StateValue
  /-- The proof nodes of a key under a root. -/
  stateProof : state.Root → Str → Json
  serializeRoot : state.Root → Str
  blsStore : Str → Option Json
  schemaIsStrict : Bool
  serialize_ne_nil : ∀ v, serialize v ≠ []
  deserialize_amount : ∀ v, deserialize (serialize (.amount v)) = .ok (.amount v)
  deserialize_all : ∀ fees, ∃ fees', deserialize (serialize (.all fees)) = .ok (.all fees') ∧
    fees'.entries.Perm fees.entries

variable (C : ConfigPlatform)

/-! ### Keys -/

def feesKeyDelimiter : Char := ':'
def feesStatePrefix : Str := "200"
def feesKeyForAll : Str := "fees"
def feeAliasLength : ℕ := 128

/-- `build_path_for_set_fees`; an empty alias counts as none. -/
def buildPathForSetFees (feesAlias : Option Str) : Str :=
  let key := feesAlias.getD []
  feesStatePrefix ++ feesKeyDelimiter :: (if key ≠ [] then key else feesKeyForAll)

/-! ### Validation -/

/-- plenum's `ConstantField`. -/
def constantField (value : Str) (v : Json) : Verdict :=
  if v = .str value then valid else invalid (("has to be equal " : Str) ++ value)

/-- plenum's `NonEmptyStringField`. -/
def nonEmptyStringField : Json → Verdict :=
  fieldBase asStr "str" fun s => if s = [] then invalid "empty string" else valid

/-- plenum's `LimitedLengthStringField`. -/
def limitedLengthStringField (maxLength : ℕ) : Json → Verdict :=
  fieldBase asStr "str" fun s =>
    if s = [] then invalid "empty string"
    else if maxLength < s.length then
      invalid (s ++ (" is longer than " : Str) ++ Lib.Text.intText maxLength ++ (" symbols" : Str))
    else valid

/-- plenum's `NonNegativeNumberField`. -/
def nonNegativeNumberField : Json → Verdict :=
  fieldBase Json.asInt "int" fun v => if v.val < 0 then invalid "negative value" else valid

/-- `_specific_validation` of plenum's `MapField`: entry by entry, the key first. -/
def mapEntries (keyField valueField : Json → Verdict) : List (Str × Json) → Verdict
  | [] => valid
  | e :: l => (keyField (.str e.1)).andThen [] ((valueField e.2).andThen [] (mapEntries keyField valueField l))

/-- `SetFeesField`. -/
def setFeesField : Json → Verdict :=
  fieldBase asObj "dict" fun l =>
    (mapEntries nonEmptyStringField nonNegativeNumberField l).andThen "set_fees -- " valid

/-- The check of one field of a message. -/
def checkField (op : List (Str × Json)) (name : Str) (field : Json → Verdict) : Except PyErr Unit :=
  match Json.field op name with
  | none => .error ⟨.typeError, ("missed fields - " : Str) ++ name⟩
  | some v => do
    match ← field v with
    | some error => .error ⟨.typeError, error ++ (" (" : Str) ++ name ++ (")" : Str)⟩
    | none => .ok ()

/-- plenum's `MessageBase(**operation)`: the fields of the schema, and no others if it is strict. -/
def messageBase (strict : Bool) (schema : List (Str × (Json → Verdict))) (op : List (Str × Json)) :
    Except PyErr Unit := do
  if strict ∧ ∃ e ∈ op, e.1 ∉ schema.map Prod.fst then .error ⟨.typeError, "unknown field"⟩
  else schema.forM fun f => checkField op f.1 f.2

/-- `except TypeError as exc: raise InvalidClientRequest(…)`. -/
def orInvalidRequest (x : Except PyErr Unit) : Except PyErr Unit :=
  match x with
  | .ok () => .ok ()
  | .error e => if e.cls = .typeError then .error ⟨.invalidClientRequest, e.msg⟩ else .error e

/-- `SetFeesMsg`. -/
def setFeesMsg : List (Str × (Json → Verdict)) :=
  [("type", constantField setFees), ("fees", setFeesField)]

/-- `GetFeeMsg`. -/
def getFeeMsg : List (Str × (Json → Verdict)) :=
  [("type", constantField getFee), ("alias", limitedLengthStringField feeAliasLength)]

/-- `SetFeesHandler.static_validation`. -/
def setFeesStaticValidation (op : List (Str × Json)) : Except PyErr Unit :=
  orInvalidRequest (messageBase C.schemaIsStrict setFeesMsg op)

/-- `GetFeeHandler.static_validation`. -/
def getFeeStaticValidation (op : List (Str × Json)) : Except PyErr Unit :=
  orInvalidRequest (messageBase C.schemaIsStrict getFeeMsg op)

/-- The map that the field `fees` of a SET_FEES operation holds. -/
def readSetFees (op : List (Str × Json)) : Option FeesDict := do
  let l ← (Json.field op "fees").bind asObj
  let entries ← l.mapM fun e => (Json.asInt e.2).map (Sigma.mk e.1)
  some entries.toAList

/-! ### Reading -/

variable {C}

/-- The value of a key of the state; an empty one counts as none. -/
def readKey (root : C.state.Root) (key : Str) : Except PyErr (Option StateValue) :=
  match C.state.lookup root key with
  | some serz => if serz ≠ [] then (C.deserialize serz).map some else .ok none
  | none => .ok none

/-- The committed or the current head. -/
def rootOf (state : C.state.Carrier) (isCommitted : Bool) : C.state.Root :=
  if isCommitted then C.state.committedHeadHash state else C.state.headHash state

/-- `FeesStaticHelper.get_fee_from_state`, without a proof. -/
def getFeeFromState (state : C.state.Carrier) (feesAlias : Option Str) (isCommitted : Bool) :
    Except PyErr (Option StateValue) :=
  readKey (rootOf state isCommitted) (buildPathForSetFees feesAlias)

/-- The proof that `get_fee_from_state` gives; there is none without a multi-signature. -/
def proofOf (state : C.state.Carrier) (feesAlias : Option Str) (isCommitted : Bool) : Option Json :=
  let rootHash := rootOf state isCommitted
  let encodedRootHash := C.serializeRoot rootHash
  (C.blsStore encodedRootHash).map fun multiSig =>
    .obj [("multi_signature", multiSig), ("root_hash", .str encodedRootHash),
      ("proof_nodes", C.stateProof rootHash (buildPathForSetFees feesAlias))]

/-- A read request: who asks, and for what. -/
structure ReadRequest where
  identifier : Str
  reqId : ℤ
  operation : List (Str × Json)

/-- The reply with one value under a key, the proof, and the operation. -/
def replyWith (r : ReadRequest) (key : Str) (value : Json) (proof : Option Json) :
    List (Str × Json) :=
  let result : List (Str × Json) :=
    [("identifier", .str r.identifier), ("reqId", .int r.reqId), (key, value)]
  let result := match proof with
    | some proof => setItem result "state_proof" proof
    | none => result
  update result r.operation

/-- `GetFeeHandler.get_result`. -/
def getFeeResult (state : C.state.Carrier) (r : ReadRequest) : Except PyErr (List (Str × Json)) := do
  let key := (Json.field r.operation "alias").bind asStr
  let fee ← getFeeFromState state key true
  .ok (replyWith r "fee" ((fee.map StateValue.toJson).getD .null) (proofOf state key true))

/-- `GetFeesHandler.get_fees`; nothing stored is an empty map. -/
def getFeesValue (state : C.state.Carrier) (isCommitted : Bool) : Except PyErr StateValue :=
  (getFeeFromState state none isCommitted).map fun fees => fees.getD (.all ∅)

/-- `GetFeesHandler.get_result`. -/
def getFeesResult (state : C.state.Carrier) (r : ReadRequest) : Except PyErr (List (Str × Json)) := do
  let fees ← getFeesValue state true
  .ok (replyWith r "fees" fees.toJson (proofOf state none true))

/-- The amounts, as the authorizer compares and adds them. -/
def toFeesMap (fees : FeesDict) : FeesMap := fees.entries.map fun e => (e.1, e.2.val.toNat)

/-- A stored value used as a map. -/
def asMap : Option StateValue → Except PyErr FeesDict
  | none => .ok ∅
  | some (.all fees) => .ok fees
  | some (.amount _) => .error ⟨.attributeError, "'int' object has no such attribute"⟩

/-- `FeesAuthorizer._get_fees_from_state`. -/
def getFeesFromState (state : C.state.Carrier) : Except PyErr FeesMap :=
  (readKey (C.state.headHash state) (buildPathForSetFees none) >>= asMap).map toFeesMap

/-! ### Writing -/

/-- `_set_to_state`. -/
def setToState (key : Str) (val : StateValue) : Py C.state.Carrier Unit :=
  modify fun state => C.state.set state key (C.serialize val)

/-- `current_fees`, as an update starts from it. -/
def currentFees : Py C.state.Carrier FeesDict := do
  let state ← get
  ofExcept (getFeeFromState state none false >>= asMap)

/-- `SetFeesHandler.update_state`. -/
def updateState (feesFromReq : FeesDict) : Py C.state.Carrier Unit := do
  let fees ← currentFees
  feesFromReq.entries.forM fun e => setToState (buildPathForSetFees (some e.1)) (.amount e.2)
  setToState (buildPathForSetFees none) (.all (feesFromReq ∪ fees))

/-- `SetFeesHandler093.fees_state_key`. -/
def feesStateKey : Str := "fees"

/-- `SetFeesHandler093.update_state`. -/
def updateState093 (feesFromReq : FeesDict) : Py C.state.Carrier Unit := do
  let fees ← currentFees
  setToState feesStateKey (.all (feesFromReq ∪ fees))

/-! ### What the validators accept -/

theorem orInvalidRequest_eq_ok {x : Except PyErr Unit} : orInvalidRequest x = .ok () ↔ x = .ok () := by
  unfold orInvalidRequest
  rcases x with e | u
  · by_cases h : e.cls = .typeError <;> simp [h]
  · simp

theorem checkField_eq_ok {op : List (Str × Json)} {name : Str} {field : Json → Verdict} :
    checkField op name field = .ok () ↔ ∃ v, Json.field op name = some v ∧ field v = valid := by
  unfold checkField
  cases Json.field op name with
  | none => simp
  | some v => rcases h : field v with e | (_ | error) <;> simp [h, valid, bind, Except.bind]

theorem messageBase_eq_ok {strict : Bool} {schema : List (Str × (Json → Verdict))}
    {op : List (Str × Json)} : messageBase strict schema op = .ok () ↔
      ¬(strict = true ∧ ∃ e ∈ op, e.1 ∉ schema.map Prod.fst) ∧
        ∀ f ∈ schema, ∃ v, Json.field op f.1 = some v ∧ f.2 v = valid := by
  unfold messageBase
  split_ifs with h
  · exact iff_of_false nofun fun h' => h'.1 h
  · rw [forM_eq_ok]
    simp only [checkField_eq_ok, h, not_false_eq_true, true_and]

/-- An accepted map has non-empty keys and numbers that are not negative. -/
theorem mapEntries_eq_valid {l : List (Str × Json)} :
    mapEntries nonEmptyStringField nonNegativeNumberField l = valid ↔
      ∀ e ∈ l, ∃ x, Json.asInt e.2 = some x ∧ e.1 ≠ [] ∧ 0 ≤ x.val := by
  have hkey : ∀ s : Str, nonEmptyStringField (.str s) = valid ↔ s ≠ [] := fun s => by
    unfold nonEmptyStringField fieldBase
    by_cases h : s = [] <;> simp [Messages.Fields.asStr, h, valid, invalid]
  have hnum : ∀ v, nonNegativeNumberField v = valid ↔ ∃ x, Json.asInt v = some x ∧ 0 ≤ x.val := fun v => by
    unfold nonNegativeNumberField
    rw [fieldBase_eq_valid]
    refine exists_congr fun x => and_congr_right fun _ => ?_
    by_cases h : x.val < 0
    · simp [h, valid, invalid]
    · simp [h, not_lt.mp h]
  induction l with
  | nil => simp [mapEntries]
  | cons e l ih =>
    simp only [mapEntries, andThen_eq_valid, hkey, hnum, ih, List.forall_mem_cons]
    constructor
    · rintro ⟨h, ⟨x, hx, hp⟩, hl⟩; exact ⟨⟨x, hx, h, hp⟩, hl⟩
    · rintro ⟨⟨x, hx, h, hp⟩, hl⟩; exact ⟨h, ⟨x, hx, hp⟩, hl⟩

/-- **An accepted SET_FEES** holds a map of amounts that are not negative, with non-empty aliases. -/
theorem exists_readSetFees {op : List (Str × Json)} (h : setFeesStaticValidation C op = .ok ()) :
    ∃ fees, readSetFees op = some fees ∧ ∀ a x, fees.lookup a = some x → a ≠ [] ∧ 0 ≤ x.val := by
  rw [setFeesStaticValidation, orInvalidRequest_eq_ok, messageBase_eq_ok] at h
  obtain ⟨v, hv, hvalid⟩ := h.2 _ (List.mem_cons_of_mem _ List.mem_cons_self)
  obtain ⟨l, hl, hvalid⟩ := fieldBase_eq_valid.mp hvalid
  have hall := mapEntries_eq_valid.mp (andThen_eq_valid.mp hvalid).1
  have hread : ∀ e ∈ l, ∃ f : Sigma fun _ : Str => PyInt,
      (Json.asInt e.2).map (Sigma.mk e.1) = some f ∧ f.1 ≠ [] ∧ 0 ≤ f.2.val := fun e he => by
    obtain ⟨x, hx, hne, hpos⟩ := hall e he
    exact ⟨⟨e.1, x⟩, by rw [hx]; rfl, hne, hpos⟩
  obtain ⟨entries, hentries, hp⟩ := forall_read_iff.mp hread
  refine ⟨entries.toAList, ?_, fun a x hx => ?_⟩
  · unfold readSetFees
    simp only [hv, hl, Option.bind_eq_bind, Option.bind_some, hentries]
  · rw [AList.lookup_to_alist] at hx
    exact hp _ (List.of_mem_dlookup hx)

/-- A GET_FEE for an alias. -/
def getFeeOperation (a : Str) : List (Str × Json) := [("type", .str getFee), ("alias", .str a)]

/-- GET_FEE is accepted for aliases that are not empty and not too long. -/
theorem getFeeStaticValidation_eq_ok {a : Str} :
    getFeeStaticValidation C (getFeeOperation a) = .ok () ↔ a ≠ [] ∧ a.length ≤ feeAliasLength := by
  have hfield : limitedLengthStringField feeAliasLength (.str a) = valid ↔
      a ≠ [] ∧ a.length ≤ feeAliasLength := by
    unfold limitedLengthStringField fieldBase
    by_cases ha : a = []
    · simp [Messages.Fields.asStr, ha, valid, invalid]
    · by_cases hlen : feeAliasLength < a.length
      · simp [Messages.Fields.asStr, ha, hlen, valid, invalid]
      · simp [Messages.Fields.asStr, ha, hlen, not_lt.mp hlen]
  have htype : constantField getFee (.str getFee) = valid := if_pos rfl
  have hknown : ¬∃ e ∈ getFeeOperation a, e.1 ∉ getFeeMsg.map Prod.fst := by
    rintro ⟨e, he, hn⟩
    rcases List.mem_cons.mp he with rfl | he
    · exact hn List.mem_cons_self
    · obtain rfl := List.mem_singleton.mp he
      exact hn (List.mem_cons_of_mem _ List.mem_cons_self)
  rw [getFeeStaticValidation, orInvalidRequest_eq_ok, messageBase_eq_ok, ← hfield]
  constructor
  · rintro ⟨-, h⟩
    obtain ⟨v, hv, hvalid⟩ := h _ (List.mem_cons_of_mem _ List.mem_cons_self)
    obtain rfl : .str a = v := Option.some.inj hv
    exact hvalid
  · intro h
    refine ⟨fun hs => hknown hs.2, fun f hf => ?_⟩
    rcases List.mem_cons.mp hf with rfl | hf
    · exact ⟨.str getFee, rfl, htype⟩
    · obtain rfl := List.mem_singleton.mp hf
      exact ⟨_, rfl, h⟩

end TokenPlugin.Fees.ConfigState
