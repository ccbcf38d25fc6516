import TokenPlugin.Database
import TokenPlugin.Messages.Fields

/-! # `ThreePhaseCommitHandler`

A batch of another ledger than the token ledger may have fee transactions. The primary then attaches their
number, the head of its token state and the uncommitted root of its token ledger to the PRE-PREPARE; the
replicas compare them with their own, and copy them into the PREPARE and the ORDERED message. -/

namespace TokenPlugin.Fees.ThreePhaseCommitHandler

open Python Messages.Fields Database

/-! ### Messages -/

def tokenLedgerId : ℕ := 1001

def feesKey : Str := "fees"
def feeTxnsInBatch : Str := "fee_txns_in_batch"
def stateRootKey : Str := "stateRootHash"
def txnRootKey : Str := "txnRootHash"

/-- `plugin_fields` of a message: it may be missing, null, or a map. -/
abbrev PluginFields : Type := Option (Option (List (Str × Json)))

structure PrePrepare where
  ledgerId : ℕ
  pluginFields : PluginFields

structure Prepare where
  pluginFields : PluginFields

structure Ordered where
  pluginFields : PluginFields

/-- How roots are written in messages. -/
structure RootSerializer (Root : Type) where
  serialize : Root → Str
  /-- `none` where it raises. -/
  deserialize : Str → Option Root
  deserialize_eq_some : ∀ s r, deserialize s = some r ↔ s = serialize r
  serialize_ne_nil : ∀ r, serialize r ≠ []

theorem RootSerializer.serialize_injective {Root : Type} (f : RootSerializer Root) :
    Function.Injective f.serialize := fun r r' h => by
  have hr := (f.deserialize_eq_some (f.serialize r) r).mpr rfl
  have hr' := (f.deserialize_eq_some (f.serialize r) r').mpr h
  exact Option.some.inj (hr.symm.trans hr')

/-- What the values in a message mean: its roots, and whether a float, given by its `repr`, equals an
integer. -/
structure MessageFormat (S T : Type) where
  stateRoots : RootSerializer S
  txnRoots : RootSerializer T
  floatEq : Str → ℤ → Bool

/-- What the handler reads from its replica: the number of fee transactions in the current batch, the head
of the token state and the uncommitted root of the token ledger. -/
structure Replica (S T : Type) where
  feesInCurrentBatch : ℕ
  headHash : S
  uncommittedRootHash : T
deriving DecidableEq

/-- The replica of a node. -/
def replicaOf {P : Platform} (n : Node P) : Replica P.state.Root P.ledger.Hash where
  feesInCurrentBatch := n.feesTracker.feesInCurrentBatch
  headHash := P.state.headHash n.stores.tokenState
  uncommittedRootHash := P.ledger.uncommittedRootHash n.tokenLedger

/-- What is raised, with what goes into its message. -/
inductive Raised (S T : Type)
  | expected (field : Str)
  | countMismatch (expected : ℕ) (found : Json)
  | stateRootMismatch (expected found : S)
  | txnRootMismatch (expected found : T)
  | attributeError
  | notDecodable (text : Str)

variable {S T : Type} (F : MessageFormat S T)

/-- `v == n`. -/
def equalsInt : Json → ℤ → Bool
  | .int z, n => z = n
  | .bool b, n => (PyInt.bool b).val = n
  | .float text, n => F.floatEq text n
  | _, _ => false

/-- `v.get(key, default)`. -/
def dictGet (v : Json) (key : Str) (default : Json) : Except (Raised S T) Json :=
  match v with
  | .obj l => .ok ((Json.field l key).getD default)
  | _ => .error .attributeError

/-- A root read from a message. -/
def readRoot {Root : Type} (f : RootSerializer Root) : Json → Except (Raised S T) Root
  | .str s =>
    match f.deserialize s with
    | some r => .ok r
    | none => .error (.notDecodable s)
  | _ => .error .attributeError

/-! ### The handler -/

/-- The fee data of a replica, as they are attached. -/
def feesExtra (count stateRoot txnRoot : Json) : PluginFields :=
  some (some [(feesKey,
    .obj [(feeTxnsInBatch, count), (stateRootKey, stateRoot), (txnRootKey, txnRoot)])])

/-- `add_to_pre_prepare`. -/
def addToPrePrepare (n : Replica S T) (prePrepare : PrePrepare) : PrePrepare :=
  if prePrepare.ledgerId ≠ tokenLedgerId ∧ 0 < n.feesInCurrentBatch then
    { prePrepare with
      pluginFields := feesExtra (.int n.feesInCurrentBatch) (.str (F.stateRoots.serialize n.headHash))
        (.str (F.txnRoots.serialize n.uncommittedRootHash)) }
  else prePrepare

/-- The fee data that are copied out of a PRE-PREPARE, if there are any. -/
def prePrepareFeesData (prePrepare : PrePrepare) : Except (Raised S T) PluginFields :=
  if prePrepare.ledgerId ≠ tokenLedgerId then
    match prePrepare.pluginFields with
    | none => .ok none
    | some none => .error .attributeError
    | some (some fields) =>
      let data := (Json.field fields feesKey).getD (.obj [])
      if data.truthy then do
        let count ← dictGet data feeTxnsInBatch .null
        let stateRoot ← dictGet data stateRootKey .null
        let txnRoot ← dictGet data txnRootKey .null
        .ok (feesExtra count stateRoot txnRoot)
      else .ok none
  else .ok none

/-- `add_to_prepare`. -/
def addToPrepare (prepare : Prepare) (prePrepare : PrePrepare) : Except (Raised S T) Prepare := do
  match ← prePrepareFeesData prePrepare with
  | none => .ok prepare
  | some fields => .ok { prepare with pluginFields := some fields }

/-- `add_to_ordered`. -/
def addToOrdered (ordered : Ordered) (prePrepare : PrePrepare) : Except (Raised S T) Ordered := do
  match ← prePrepareFeesData prePrepare with
  | none => .ok ordered
  | some fields => .ok { ordered with pluginFields := some fields }

variable [DecidableEq S] [DecidableEq T]

/-- The comparison of the fee data with those of the replica. -/
def checkFees (n : Replica S T) (fees : Json) : Except (Raised S T) Unit := do
  let count ← dictGet fees feeTxnsInBatch .null
  if equalsInt F count n.feesInCurrentBatch then do
    let recvdStateRoot ← readRoot F.stateRoots (← dictGet fees stateRootKey (.str []))
    if recvdStateRoot = n.headHash then do
      let recvdTxnRoot ← readRoot F.txnRoots (← dictGet fees txnRootKey (.str []))
      if recvdTxnRoot = n.uncommittedRootHash then .ok ()
      else .error (.txnRootMismatch n.uncommittedRootHash recvdTxnRoot)
    else .error (.stateRootMismatch n.headHash recvdStateRoot)
  else .error (.countMismatch n.feesInCurrentBatch count)

/-- `check_recvd_pre_prepare`. -/
def checkRecvdPrePrepare (n : Replica S T) (prePrepare : PrePrepare) : Except (Raised S T) Unit :=
  if prePrepare.ledgerId ≠ tokenLedgerId then
    if 0 < n.feesInCurrentBatch then
      match prePrepare.pluginFields with
      | none => .error (.expected "plugin_fields")
      | some none => .error .attributeError
      | some (some fields) =>
        let fees := (Json.field fields feesKey).getD .null
        if fees.truthy then checkFees F n fees else .error (.expected feesKey)
    else .ok ()
  else .ok ()

/-! ### The fee data of a message -/

/-- Number of fee transactions, state root and transaction root; null where one is missing. -/
structure FeeData where
  count : Json
  stateRoot : Json
  txnRoot : Json
deriving DecidableEq

/-- The value of a key, null where there is none. -/
def valueOf (v : Json) (key : Str) : Json :=
  match v with
  | .obj l => (Json.field l key).getD .null
  | _ => .null

/-- The fee data of a value. -/
def feeDataOf (v : Json) : FeeData :=
  ⟨valueOf v feeTxnsInBatch, valueOf v stateRootKey, valueOf v txnRootKey⟩

/-- The fee data of a message; there are none where the value is missing or falsy. -/
def feeSection (fields : PluginFields) : Option FeeData :=
  match fields with
  | some (some l) => ((Json.field l feesKey).filter Json.truthy).map feeDataOf
  | _ => none

/-- The fee data that a replica attaches. -/
def attached (n : Replica S T) : Option FeeData :=
  if 0 < n.feesInCurrentBatch then
    some ⟨.int n.feesInCurrentBatch, .str (F.stateRoots.serialize n.headHash),
      .str (F.txnRoots.serialize n.uncommittedRootHash)⟩
  else none

variable {F}

omit [DecidableEq S] [DecidableEq T]

@[simp] theorem feeSection_feesExtra (count stateRoot txnRoot : Json) :
    feeSection (feesExtra count stateRoot txnRoot) = some ⟨count, stateRoot, txnRoot⟩ := rfl

/-- What `add_to_pre_prepare` attaches. -/
theorem feeSection_addToPrePrepare {n : Replica S T} {prePrepare : PrePrepare}
    (hl : prePrepare.ledgerId ≠ tokenLedgerId) (hf : prePrepare.pluginFields = none) :
    feeSection (addToPrePrepare F n prePrepare).pluginFields = attached F n := by
  unfold addToPrePrepare attached
  by_cases h : 0 < n.feesInCurrentBatch
  · rw [if_pos ⟨hl, h⟩, if_pos h]
    rfl
  · rw [if_neg fun hc => h hc.2, if_neg h, hf]
    rfl

theorem ledgerId_addToPrePrepare (n : Replica S T) (prePrepare : PrePrepare) :
    (addToPrePrepare F n prePrepare).ledgerId = prePrepare.ledgerId := by
  unfold addToPrePrepare
  split_ifs <;> rfl

/-- What is copied are the fee data of the PRE-PREPARE. -/
theorem feeSection_of_feesData {prePrepare : PrePrepare} {fields : PluginFields}
    (hl : prePrepare.ledgerId ≠ tokenLedgerId)
    (h : (prePrepareFeesData prePrepare : Except (Raised S T) PluginFields) = .ok fields) :
    feeSection fields = feeSection prePrepare.pluginFields := by
  unfold prePrepareFeesData at h
  rw [if_pos hl] at h
  rcases prePrepare with ⟨_, _ | _ | l⟩
  · cases h
    rfl
  · cases h
  · simp only at h
    have hsec : feeSection (some (some l)) = ((Json.field l feesKey).filter Json.truthy).map feeDataOf := rfl
    rw [hsec]
    cases hv : Json.field l feesKey with
    | none =>
      rw [hv] at h
      cases h
      rfl
    | some v =>
      rw [hv] at h
      simp only [Option.getD_some] at h
      split_ifs at h with ht
      · cases v with
        | obj d =>
          cases h
          simp [feeDataOf, valueOf, Option.filter, ht]
        | _ => cases h
      · cases h
        simp [Option.filter, ht, feeSection]

end TokenPlugin.Fees.ThreePhaseCommitHandler
