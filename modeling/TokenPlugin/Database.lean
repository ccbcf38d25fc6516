import TokenPlugin.Token.UtxoCache

/-! # The databases of a node

What the database manager of a node holds on behalf of the plugins, and what plenum remembers of the
batches it has applied and not yet committed. -/

namespace TokenPlugin.Database

open Python Token.Types Token.UtxoCache Lib.Program
open Lib.Program.Prog (zoom)

variable (P : Platform)

/-- The token state and the UTXO cache. -/
structure Stores where
  tokenState : P.state.Carrier
  utxoCache : P.cache.Carrier

instance : TokenStores (Stores P) where
  cacheGet s k c := P.cache.get s.utxoCache k c
  cacheSet s k v c := { s with utxoCache := P.cache.set s.utxoCache k v c }
  stateSet s k v := { s with tokenState := P.state.set s.tokenState k v }
  stateRemove s k := { s with tokenState := P.state.remove s.tokenState k }

/-- `BatchFeesTracker`. -/
structure BatchFeesTracker where
  feesInCurrentBatch : ℕ
  deductedFees : List (Str × ℤ)

/-- The ledgers whose batches concern the plugins. -/
inductive LedgerId
  | token
  | domain
deriving DecidableEq

/-- The roots a batch of the token ledger leads to and the number of its transactions. -/
structure ThreePcBatch where
  stateRoot : P.state.Root
  txnRoot : P.ledger.Hash
  validDigests : ℕ

/-- What plenum remembers of an uncommitted batch: the state root before a token batch and the batch
itself, the number of transactions of a domain batch. -/
inductive PlenumBatch
  | token (prevStateRoot : P.state.Root) (batch : ThreePcBatch P)
  | domain (validDigests : ℕ)

/-- The batch that requests are being applied to: its ledger, how many it has so far, and the token
state root it started from. -/
structure OpenBatch where
  ledgerId : LedgerId
  count : ℕ
  prevStateRoot : P.state.Root

/-- A node. `configFees` is the fees map of the uncommitted config state. -/
structure Node where
  stores : Stores P
  tokenLedger : P.ledger.Carrier
  domainLedger : P.domainLedger.Carrier
  tokenTracker : P.tracker.Carrier
  feesTracker : BatchFeesTracker
  configFees : FeesMap
  batches : List (PlenumBatch P)
  openBatch : Option (OpenBatch P)

variable {P}

/-- The node with another token state. -/
@[simp] def Node.setTokenState (n : Node P) (s : P.state.Carrier) : Node P :=
  { n with stores := { n.stores with tokenState := s } }

/-- The node with another cache. -/
@[simp] def Node.setUtxoCache (n : Node P) (c : P.cache.Carrier) : Node P :=
  { n with stores := { n.stores with utxoCache := c } }

/-- The node with another token ledger. -/
@[simp] def Node.setTokenLedger (n : Node P) (l : P.ledger.Carrier) : Node P :=
  { n with tokenLedger := l }

/-- The node with another token tracker. -/
@[simp] def Node.setTokenTracker (n : Node P) (t : P.tracker.Carrier) : Node P :=
  { n with tokenTracker := t }

/-- A program on the stores, run on a node. -/
def onStores {α : Type} (x : Py (Stores P) α) : Py (Node P) α :=
  zoom Node.stores (fun s n => { n with stores := s }) x

/-- A change of the fees tracker. -/
def onFeesTracker (f : BatchFeesTracker → BatchFeesTracker) : Py (Node P) Unit :=
  Prog.modify fun n => { n with feesTracker := f n.feesTracker }

/-- Empty databases. -/
def Stores.new : Stores P := ⟨P.state.new, P.cache.new⟩

/-- A node that has just started on empty databases. -/
def Node.new : Node P where
  stores := .new
  tokenLedger := P.ledger.new
  domainLedger := P.domainLedger.new
  tokenTracker := P.tracker.new (P.state.committedHeadHash P.state.new)
    (P.ledger.uncommittedRootHash P.ledger.new) (P.ledger.uncommittedSize P.ledger.new)
  feesTracker := ⟨0, []⟩
  configFees := []
  batches := []
  openBatch := none

end TokenPlugin.Database
