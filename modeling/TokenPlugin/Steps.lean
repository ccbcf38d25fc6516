import TokenPlugin.Messages.Fields
import TokenPlugin.Node
import TokenPlugin.Token.History

/-! # The steps of a node, and its runs

plenum calls the handlers in a fixed order. A batch holds requests for one ledger; all of them are
applied before anything else happens to the node; a batch is rejected or committed only once it has
been closed, the latest one first and the oldest one first. `Reach` is the node after any run of such
steps from empty databases in which none raised, with a record of the run beside it. -/

namespace TokenPlugin.Steps

open Python Token.Types Token.Handlers Token.History Database Node Messages.Fields Lib.Program
open Fees.FeesAuthorizer Fees.BatchHandlers
open Lib.Program.Prog (raise get modify)

variable {P : Platform}

/-! ### Steps -/

/-- What can happen to a node. `config` stands for anything that changes the fees map: a config batch
that is applied or rejected. -/
inductive Action
  | apply (r : Request) (version : XferVersion) (auths : List AuthConstraint) (time : ℤ)
  | close (l : LedgerId)
  | reject
  | commit
  | config (fees : FeesMap)

/-- A request joins the open batch, or opens one. -/
def joinBatch (l : LedgerId) : Py (Node P) Unit :=
  modify fun n =>
    let b := n.openBatch.getD ⟨l, 0, P.state.headHash n.stores.tokenState⟩
    { n with openBatch := some { b with count := b.count + 1 } }

/-- A request is validated against the present state and applied. -/
def applyStep (r : Request) (version : XferVersion) (auths : List AuthConstraint) (time : ℤ) :
    Py (Node P) Unit := do
  let handlers := handlersFor P version r.operation
  handlers.forM (dynamicValidation r auths)
  match ledgerOf r.operation with
  | some l => joinBatch l
  | none => pure ()
  applyHandlers r time handlers none

/-- The open batch, which may be empty, joins the uncommitted ones. -/
def pushBatch (b : PlenumBatch P) : Py (Node P) Unit :=
  modify fun n => { n with batches := n.batches ++ [b], openBatch := none }

/-- A batch is complete: `post_batch_applied`. -/
def closeStep (l : LedgerId) : Py (Node P) Unit := do
  let n ← get
  let b := n.openBatch.getD ⟨l, 0, P.state.headHash n.stores.tokenState⟩
  match l with
  | .token =>
    let batch : ThreePcBatch P := ⟨P.state.headHash n.stores.tokenState,
      P.ledger.uncommittedRootHash n.tokenLedger, b.count⟩
    tokenPostBatchApplied batch
    pushBatch (.token b.prevStateRoot batch)
  | .domain =>
    domainPostBatchApplied
    pushBatch (.domain b.count)

/-- plenum takes back the batch on its own ledger and state, then calls `post_batch_rejected`. -/
def rejectBatch : PlenumBatch P → Py (Node P) Unit
  | .token prevStateRoot batch => do
    revertTokenState prevStateRoot
    discardTokenTxns batch.validDigests
    tokenPostBatchRejected
  | .domain count => do
    modify fun n => { n with domainLedger := P.domainLedger.discardTxns n.domainLedger count }
    domainPostBatchRejected

/-- The latest batch is rejected. -/
def rejectStep : Py (Node P) Unit := do
  let n ← get
  let batch ← orRaise n.batches.getLast? ⟨.logicError, "no batch to reject"⟩
  rejectBatch batch
  modify fun n => { n with batches := n.batches.dropLast }

/-- The handlers of a batch commit it; the transactions of a domain batch, as they are replied. -/
def commitBatch : PlenumBatch P → Py (Node P) (List DomainTxn)
  | .token _ batch => do
    tokenCommitBatch batch
    pure []
  | .domain count => do
    let n ← get
    let committed := P.domainLedger.commitTxns n.domainLedger count
    modify fun n => { n with domainLedger := committed.2 }
    domainCommitBatch committed.1

/-- The oldest batch is committed. -/
def commitStep : Py (Node P) (List DomainTxn) := do
  let n ← get
  let batch ← orRaise n.batches.head? ⟨.logicError, "no batch to commit"⟩
  let replies ← commitBatch batch
  modify fun n => { n with batches := n.batches.tail }
  pure replies

/-- One step. -/
def step : Action → Py (Node P) Unit
  | .apply r version auths time => applyStep r version auths time
  | .close l => closeStep l
  | .reject => rejectStep
  | .commit => do
    let _ ← commitStep
    pure ()
  | .config fees => modify fun n => { n with configFees := fees }

/-! ### When plenum takes a step -/

/-- The request has passed its static validation. -/
def StaticOk (P : Platform) (r : Request) : Prop :=
  (match r.operation with
    | .mint outputs => ValidOutputs P outputs ∧ outputs ≠ []
    | .xfer inputs outputs signatures => ValidXfer P inputs outputs signatures
    | .domain typ => typ ∈ P.domainTypes
    | _ => True) ∧
  match r.fees with
  | some s => ValidFees P s
  | none => True

instance (r : Request) : Decidable (StaticOk P r) := by
  unfold StaticOk
  refine @instDecidableAnd _ _ ?_ ?_ <;> split <;> infer_instance

/-- No batch is open, or one over the ledger. -/
def OpenFor (n : Node P) (l : Option LedgerId) : Prop := ∀ b ∈ n.openBatch, some b.ledgerId = l

instance (n : Node P) (l : Option LedgerId) : Decidable (OpenFor n l) := by
  unfold OpenFor
  cases n.openBatch with
  | none => exact isTrue (by simp)
  | some b => exact decidable_of_iff (some b.ledgerId = l) (by simp)

/-- The order in which plenum takes steps. -/
def Enabled (n : Node P) : Action → Prop
  | .apply r _ _ _ => StaticOk P r ∧ OpenFor n (ledgerOf r.operation)
  | .close l => OpenFor n (some l)
  | _ => n.openBatch = none

instance (n : Node P) (a : Action) : Decidable (Enabled n a) := by
  unfold Enabled
  cases a with
  | apply | close => infer_instance
  | reject | commit | config =>
    exact decidable_of_iff (n.openBatch.isNone = true) Option.isNone_iff_eq_none

/-! ### The record of a run -/

/-- The transactions of the token ledger and of the domain ledger, committed and uncommitted. -/
def tokenTxns (n : Node P) : List TokenTxn := (P.ledger.contents n.tokenLedger).all

def domainTxns (n : Node P) : List DomainTxn := (P.domainLedger.contents n.domainLedger).all

/-- The label of the token transaction of a request; the fee is that of the leaf of the auth rule. -/
def labelOf (fees : FeesMap) (r : Request) (version : XferVersion) (auths : List AuthConstraint) :
    Label :=
  let fee := (auths.head?.map (feesAmount fees)).getD 0
  match r.operation, version with
  | .mint _, _ => ⟨.mint, 0⟩
  | .xfer _ _ _, .v100 => ⟨.xfer100, fee⟩
  | .xfer _ _ _, _ => ⟨.xfer, fee⟩
  | _, _ => ⟨.fees, fee⟩

/-- A batch that has been applied and closed: its ledger, the node just before it and just after, and,
for a domain batch, its transactions, each with the FEES transaction that was appended for it. -/
structure BatchRec (P : Platform) where
  ledgerId : LedgerId
  before : Node P
  after : Node P
  domain : List (DomainTxn × Option TokenTxn)

namespace BatchRec

/-- The FEES transactions that were appended for the transactions of a domain batch. -/
def feeTxns (r : BatchRec P) : List TokenTxn := r.domain.filterMap Prod.snd

/-- The transactions that the batch added to the token ledger. -/
def newTxns (r : BatchRec P) : List TokenTxn := (tokenTxns r.after).drop (tokenTxns r.before).length

/-- Whether the batch has a part on the token side. -/
def Touched (r : BatchRec P) : Prop := r.ledgerId = .token ∨ r.feeTxns ≠ []

instance (r : BatchRec P) : Decidable r.Touched := inferInstanceAs (Decidable (_ ∨ _))

/-- The batch of the cache that was created for it. -/
def cacheBatch (r : BatchRec P) : Option (P.state.Root × Lib.Staged.Writes Str Str) :=
  if r.Touched then (P.cache.contents r.after.stores.utxoCache).batches.getLast? else none

/-- What plenum remembers of it. -/
def plenumBatch (r : BatchRec P) : PlenumBatch P :=
  match r.ledgerId with
  | .token => .token (P.state.headHash r.before.stores.tokenState)
      ⟨P.state.headHash r.after.stores.tokenState, P.ledger.treeRoot (tokenTxns r.after),
        r.newTxns.length⟩
  | .domain => .domain r.domain.length

end BatchRec

/-- The record of a run: the uncommitted batches, the node when no request of the open batch had been
applied, the domain transactions of the open batch, and the labels of the token transactions. -/
structure Trace (P : Platform) where
  pending : List (BatchRec P)
  start : Node P
  domain : List (DomainTxn × Option TokenTxn)
  labels : List Label

/-- Nothing has happened. -/
def Trace.new : Trace P := ⟨[], .new, [], []⟩

/-- The record after a step from `n` to `n'`. -/
def Trace.next (g : Trace P) (n n' : Node P) : Action → Trace P
  | .apply r version auths _ =>
    let newTxns := (tokenTxns n').drop (tokenTxns n).length
    let newDomain := (domainTxns n').drop (domainTxns n).length
    { g with
      domain := g.domain ++ newDomain.map fun txn => (txn, newTxns.head?)
      labels := g.labels ++ newTxns.map fun _ => labelOf n.configFees r version auths
      start := if n'.openBatch.isNone then n' else g.start }
  | .close l =>
    { g with pending := g.pending ++ [⟨l, g.start, n', g.domain⟩], start := n', domain := [] }
  | .reject =>
    { g with pending := g.pending.dropLast, start := n', labels := g.labels.take (tokenTxns n').length }
  | .commit => { g with pending := g.pending.tail, start := n' }
  | .config _ => { g with start := n' }

/-- The nodes that are reached from empty databases by steps that `ok` allows, with the record of the
run. -/
inductive Reach (ok : Action → Prop) : Node P → Trace P → Prop
  | new : Reach ok .new .new
  | step {n n' : Node P} {g : Trace P} {a : Action} (h : Reach ok n g) (ha : ok a)
      (he : Enabled n a) (hs : Returns (step a) n () n') : Reach ok n' (g.next n n' a)

/-- The authorizer has been consulted, for every request that pays a fee. -/
def Consulted : Action → Prop
  | .apply r version auths _ =>
    match r.operation with
    | .xfer _ _ _ => version = .registered → auths ≠ []
    | .mint _ => True
    | _ => r.fees.isSome → auths ≠ []
  | _ => True

instance (a : Action) : Decidable (Consulted a) := by
  unfold Consulted
  split
  · split <;> infer_instance
  · infer_instance

end TokenPlugin.Steps
