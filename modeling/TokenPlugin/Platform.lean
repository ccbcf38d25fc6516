import TokenPlugin.Lib.Staged
import TokenPlugin.Token.Types

/-! # What the plugins are given

The storage and the batch bookkeeping come from plenum, base58 and signatures from other libraries.
Each is a structure of operations together with the behaviour the plugins rely on: a component is
read through what it holds (`contents`, `lookup`), and each operation is described by what it does
to that. A `Platform` is one choice of all of them. -/

namespace TokenPlugin.Platform

open Python Token.Types Lib.Staged

/-! ### The state trie -/

/-- `state.pruning_state.PruningState`: a map under a root, and the root that is committed. -/
structure PruningState where
  Carrier : Type
  Root : Type
  decRoot : DecidableEq Root
  new : Carrier
  headHash : Carrier → Root
  committedHeadHash : Carrier → Root
  /-- The value of a key under a root. -/
  lookup : Root → Str → Option Str
  set : Carrier → Str → Str → Carrier
  remove : Carrier → Str → Carrier
  revertToHead : Carrier → Root → Carrier
  commit : Carrier → Root → Carrier
  lookup_new : ∀ k, lookup (headHash new) k = none
  committed_new : committedHeadHash new = headHash new
  lookup_set : ∀ s k v, lookup (headHash (set s k v)) = Function.update (lookup (headHash s)) k (some v)
  committed_set : ∀ s k v, committedHeadHash (set s k v) = committedHeadHash s
  lookup_remove : ∀ s k, lookup (headHash (remove s k)) = Function.update (lookup (headHash s)) k none
  committed_remove : ∀ s k, committedHeadHash (remove s k) = committedHeadHash s
  head_revert : ∀ s r, headHash (revertToHead s r) = r
  committed_revert : ∀ s r, committedHeadHash (revertToHead s r) = committedHeadHash s
  head_commit : ∀ s r, headHash (commit s r) = headHash s
  committed_commit : ∀ s r, committedHeadHash (commit s r) = r

attribute [simp] PruningState.lookup_new PruningState.committed_new PruningState.lookup_set
  PruningState.committed_set PruningState.lookup_remove PruningState.committed_remove
  PruningState.head_revert PruningState.committed_revert PruningState.head_commit
  PruningState.committed_commit

instance (p : PruningState) : DecidableEq p.Root := p.decRoot

/-! ### The cache store -/

/-- `storage.optimistic_kv_store.OptimisticKVStore`: a store with batches that can be taken back,
each under the identifier (here a state root) it was created with. -/
structure OptimisticKVStore (Idr : Type) where
  Carrier : Type
  new : Carrier
  contents : Carrier → Overlay Str Str Idr
  /-- `none` stands for `KeyError`. -/
  get : Carrier → Str → Bool → Option Str
  set : Carrier → Str → Str → Bool → Carrier
  createBatchFromCurrent : Carrier → Idr → Carrier
  /-- `none` where there is no batch to commit. -/
  commitBatch : Carrier → Option Carrier
  /-- `none` where there is no batch to reject. -/
  rejectBatch : Carrier → Option Carrier
  firstBatchIdr : Carrier → Option Idr
  contents_new : contents new = ⟨fun _ => none, [], []⟩
  get_eq : ∀ s k c, get s k c = (contents s).get c k
  contents_set : ∀ s k v c, contents (set s k v c) = (contents s).set c k v
  contents_create : ∀ s i, contents (createBatchFromCurrent s i) = (contents s).close i
  contents_commit : ∀ s, (commitBatch s).map contents = (contents s).commit
  contents_reject : ∀ s, (rejectBatch s).map contents = (contents s).reject
  firstBatchIdr_eq : ∀ s, firstBatchIdr s = (contents s).firstIdr

attribute [simp] OptimisticKVStore.contents_new OptimisticKVStore.get_eq
  OptimisticKVStore.contents_set OptimisticKVStore.contents_create
  OptimisticKVStore.firstBatchIdr_eq

/-! ### The ledger -/

/-- `plenum.common.ledger.Ledger`: transactions under a Merkle root, the last of them uncommitted.
The root is taken to determine the transactions. -/
structure Ledger (T : Type) where
  Carrier : Type
  Hash : Type
  decHash : DecidableEq Hash
  new : Carrier
  contents : Carrier → Log T
  treeRoot : List T → Hash
  appendTxns : Carrier → List T → Carrier
  discardTxns : Carrier → ℕ → Carrier
  /-- The transactions that were committed, and the ledger after. -/
  commitTxns : Carrier → ℕ → List T × Carrier
  rootHash : Carrier → Hash
  uncommittedRootHash : Carrier → Hash
  uncommittedSize : Carrier → ℕ
  treeRoot_injective : Function.Injective treeRoot
  contents_new : contents new = ⟨[], []⟩
  contents_append : ∀ l ts, contents (appendTxns l ts) = (contents l).append ts
  contents_discard : ∀ l n, contents (discardTxns l n) = (contents l).discard n
  commit_fst : ∀ l n, (commitTxns l n).1 = (contents l).uncommitted.take n
  contents_commit : ∀ l n, contents (commitTxns l n).2 = (contents l).commit n
  rootHash_eq : ∀ l, rootHash l = treeRoot (contents l).committed
  uncommittedRootHash_eq : ∀ l, uncommittedRootHash l = treeRoot (contents l).all
  uncommittedSize_eq : ∀ l, uncommittedSize l = (contents l).all.length

attribute [simp] Ledger.contents_new Ledger.contents_append Ledger.contents_discard Ledger.commit_fst
  Ledger.contents_commit Ledger.rootHash_eq Ledger.uncommittedRootHash_eq
  Ledger.uncommittedSize_eq

instance {T : Type} (p : Ledger T) : DecidableEq p.Hash := p.decHash

/-! ### The tracker -/

/-- `plenum.common.ledger_uncommitted_tracker.LedgerUncommittedTracker`. -/
structure LedgerUncommittedTracker (Root Hash : Type) where
  Carrier : Type
  /-- The tracker of a committed base. -/
  new : Root → Hash → ℕ → Carrier
  contents : Carrier → Track Root Hash
  applyBatch : Carrier → Root → Hash → ℕ → Carrier
  /-- State root, transaction root and number of transactions of the oldest batch; `none` where
  there is no batch. -/
  commitBatch : Carrier → Option (Root × Hash × ℕ) × Carrier
  /-- The roots before the latest batch and its number of transactions; `none` where there is no
  batch. -/
  rejectBatch : Carrier → Option (Root × Hash × ℕ) × Carrier
  contents_new : ∀ r h n, contents (new r h n) = ⟨⟨r, h, n⟩, []⟩
  contents_apply : ∀ t r h n, contents (applyBatch t r h n) = (contents t).apply ⟨r, h, n⟩
  commit_fst : ∀ t, (commitBatch t).1 = (contents t).commit.1
  contents_commit : ∀ t, contents (commitBatch t).2 = (contents t).commit.2
  reject_fst : ∀ t, (rejectBatch t).1 = (contents t).reject.1
  contents_reject : ∀ t, contents (rejectBatch t).2 = (contents t).reject.2

attribute [simp] LedgerUncommittedTracker.contents_new LedgerUncommittedTracker.contents_apply
  LedgerUncommittedTracker.commit_fst LedgerUncommittedTracker.contents_commit
  LedgerUncommittedTracker.reject_fst LedgerUncommittedTracker.contents_reject

end TokenPlugin.Platform

namespace TokenPlugin

open Python Token.Types Platform

/-! ### All of them -/

/-- Everything the plugins take from other packages. -/
structure Platform where
  state : PruningState
  cache : OptimisticKVStore state.Root
  ledger : Ledger TokenTxn
  domainLedger : Ledger DomainTxn
  tracker : LedgerUncommittedTracker state.Root ledger.Hash
  /-- `base58.b58decode`; `none` where it raises. -/
  b58decode : Str → Option (List UInt8)
  b58encode : List UInt8 → Str
  /-- `base58.b58decode_check`; `none` where it raises `ValueError`. -/
  b58decodeCheck : Str → Option (List UInt8)
  /-- The alphabet of base58 has no delimiter of the state keys. -/
  colon_notMem : ∀ a b, b58decodeCheck a = some b → ':' ∉ a
  serializeMsgForSigning : List Json → List UInt8
  /-- Whether a signature of a message is good under a verification key. -/
  verify : Str → List UInt8 → List UInt8 → Bool
  /-- `SIGNATURE_FIELD_LIMIT`. -/
  signatureFieldLimit : ℕ
  domainLedgerId : ℕ
  authRule : Str
  authRules : Str
  /-- The transaction types that plenum and indy-node register for the domain ledger. -/
  domainTypes : List Str
  domainTypes_nodup : domainTypes.Nodup
  /-- Each transaction type belongs to one ledger. -/
  types_disjoint : ∀ t ∈ domainTypes,
    t ∉ [mintPublic, xferPublic, setFees, feeTxn, authRule, authRules]
  rules_ne : authRule ≠ authRules
  rules_disjoint : ∀ t ∈ [authRule, authRules], t ∉ [mintPublic, xferPublic, setFees, feeTxn]

end TokenPlugin
