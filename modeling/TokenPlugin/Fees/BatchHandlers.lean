import TokenPlugin.Fees.DomainFeeHandler

/-! # The batch handlers

What the plugins do when a batch of the token or of the domain ledger has been applied, is rejected or
is committed. A domain batch with fees has a part on the token ledger, which `DomainFeeBatchHandler`
looks after. -/

namespace TokenPlugin.Fees.BatchHandlers

open Python Token.Types Database Fees.DomainFeeHandler Lib.Program
open Lib.Program.Prog (raise get modify ofExcept)

variable {P : Platform}

/-- The result of an operation that fails when there is nothing to take. -/
def orRaise {α : Type} (x : Option α) (e : PyErr) : Py (Node P) α :=
  match x with
  | some a => pure a
  | none => raise e

/-! ### The cache and the tracker -/

/-- `utxo_cache.create_batch_from_current`. -/
def createBatchFromCurrent (stateRoot : P.state.Root) : Py (Node P) Unit :=
  modify fun n => n.setUtxoCache (P.cache.createBatchFromCurrent n.stores.utxoCache stateRoot)

/-- `utxo_cache.reject_batch`. -/
def rejectCacheBatch : Py (Node P) Unit := do
  let n ← get
  let cache ← orRaise (P.cache.rejectBatch n.stores.utxoCache) ⟨.indexError, "no batch to reject"⟩
  modify fun n => n.setUtxoCache cache

/-- `TokenStaticHelper.commit_to_utxo_cache`. -/
def commitToUtxoCache (stateRoot : P.state.Root) : Py (Node P) Unit := do
  let n ← get
  if P.cache.firstBatchIdr n.stores.utxoCache ≠ some stateRoot then
    raise ⟨.tokenValueError, "state_root expected to be equal to utxo_cache.first_batch_idr hash"⟩
  else do
    let cache ← orRaise (P.cache.commitBatch n.stores.utxoCache) ⟨.indexError, "no batch to commit"⟩
    modify fun n => n.setUtxoCache cache

/-- `token_tracker.apply_batch` on the present head, root and size. -/
def applyTrackerBatch : Py (Node P) Unit :=
  modify fun n => n.setTokenTracker (P.tracker.applyBatch n.tokenTracker
    (P.state.headHash n.stores.tokenState) (P.ledger.uncommittedRootHash n.tokenLedger)
    (P.ledger.uncommittedSize n.tokenLedger))

/-- `token_tracker.reject_batch`. -/
def rejectTrackerBatch : Py (Node P) (P.state.Root × P.ledger.Hash × ℕ) := do
  let n ← get
  modify fun n => n.setTokenTracker (P.tracker.rejectBatch n.tokenTracker).2
  orRaise (P.tracker.rejectBatch n.tokenTracker).1 ⟨.logicError, "no uncommitted batch"⟩

/-- `token_tracker.commit_batch`. -/
def commitTrackerBatch : Py (Node P) (P.state.Root × P.ledger.Hash × ℕ) := do
  let n ← get
  modify fun n => n.setTokenTracker (P.tracker.commitBatch n.tokenTracker).2
  orRaise (P.tracker.commitBatch n.tokenTracker).1 ⟨.logicError, "no uncommitted batch"⟩

/-! ### The token state and the token ledger -/

/-- `token_state.revertToHead`. -/
def revertTokenState (root : P.state.Root) : Py (Node P) Unit :=
  modify fun n => n.setTokenState (P.state.revertToHead n.stores.tokenState root)

/-- `token_ledger.discardTxns`. -/
def discardTokenTxns (count : ℕ) : Py (Node P) Unit :=
  modify fun n => n.setTokenLedger (P.ledger.discardTxns n.tokenLedger count)

/-- `BatchRequestHandler._commit` on the token ledger: as many transactions as the batch has digests,
which must lead to the root of the batch. -/
def commitTokenTxns (b : ThreePcBatch P) : Py (Node P) (List TokenTxn) := do
  let n ← get
  let committed := P.ledger.commitTxns n.tokenLedger b.validDigests
  modify fun n => n.setTokenLedger committed.2
  if P.ledger.rootHash committed.2 ≠ b.txnRoot then
    raise ⟨.plenumValueError, "txn_root expected to be equal to the root of the committed ledger"⟩
  else do
    modify fun n => n.setTokenState (P.state.commit n.stores.tokenState b.stateRoot)
    pure committed.1

/-! ### Token batches -/

/-- `UTXOBatchHandler.post_batch_applied` and `TrackerBatchHandler.post_batch_applied`. -/
def tokenPostBatchApplied (b : ThreePcBatch P) : Py (Node P) Unit := do
  createBatchFromCurrent b.stateRoot
  applyTrackerBatch

/-- `UTXOBatchHandler.post_batch_rejected` and `TrackerBatchHandler.post_batch_rejected`. -/
def tokenPostBatchRejected : Py (Node P) Unit := do
  rejectCacheBatch
  let _ ← rejectTrackerBatch
  pure ()

/-- `commit_batch` of `TokenBatchHandler`, `UTXOBatchHandler` and `TrackerBatchHandler`. -/
def tokenCommitBatch (b : ThreePcBatch P) : Py (Node P) Unit := do
  let _ ← commitTokenTxns b
  commitToUtxoCache b.stateRoot
  let _ ← commitTrackerBatch
  pure ()

/-! ### Domain batches -/

/-- `DomainFeeBatchHandler.post_batch_applied`. -/
def domainPostBatchApplied : Py (Node P) Unit := do
  applyTrackerBatch
  let n ← get
  if n.feesTracker.feesInCurrentBatch > 0 then do
    createBatchFromCurrent (P.state.headHash n.stores.tokenState)
    onFeesTracker fun t => { t with feesInCurrentBatch := 0 }

/-- `DomainFeeBatchHandler.post_batch_rejected`: the token side is taken back when it has changed. -/
def domainPostBatchRejected : Py (Node P) Unit := do
  let (uncommittedHash, uncommittedTxnRoot, txnCount) ← rejectTrackerBatch
  let n ← get
  if txnCount = 0 ∨ P.ledger.uncommittedRootHash n.tokenLedger = uncommittedTxnRoot ∨
      P.state.headHash n.stores.tokenState = uncommittedHash then
    pure ()
  else do
    revertTokenState uncommittedHash
    discardTokenTxns txnCount
    rejectCacheBatch

/-- The transactions of a batch that the fees tracker knows as having paid. -/
def seqNosWithFees (t : BatchFeesTracker) (txns : List DomainTxn) : List ℕ :=
  (txns.filter fun txn => hasDeductedFees t txn.type txn.seqNo).map DomainTxn.seqNo

/-- The loop that sets `txn[FEES]`: each transaction on the list gets the next of the committed FEES
transactions, from number `i` on. -/
def setFeesOnReplies (withFees : List ℕ) (feesTxns : List TokenTxn) :
    List DomainTxn → ℕ → Except PyErr (List DomainTxn)
  | [], _ => .ok []
  | txn :: txns, i =>
    if txn.seqNo ∈ withFees then
      match feesTxns[i]? with
      | none => .error ⟨.indexError, "list index out of range"⟩
      | some fees => do
        let rest ← setFeesOnReplies withFees feesTxns txns (i + 1)
        pure ({ txn with fees := some fees } :: rest)
    else do
      let rest ← setFeesOnReplies withFees feesTxns txns i
      pure (txn :: rest)

/-- `DomainFeeBatchHandler.commit_batch`, given the transactions of the batch that the handlers before
it have committed. -/
def domainCommitBatch (committedTxns : List DomainTxn) : Py (Node P) (List DomainTxn) := do
  let (tokenStateRoot, tokenTxnRoot, _) ← commitTrackerBatch
  let n ← get
  let withFees := seqNosWithFees n.feesTracker committedTxns
  if withFees.length > 0 then do
    let committedTokenTxns ← commitTokenTxns ⟨tokenStateRoot, tokenTxnRoot, withFees.length⟩
    commitToUtxoCache tokenStateRoot
    let replies ← ofExcept (setFeesOnReplies withFees committedTokenTxns committedTxns 0)
    onFeesTracker fun t => { t with feesInCurrentBatch := 0 }
    pure replies
  else pure committedTxns

end TokenPlugin.Fees.BatchHandlers
