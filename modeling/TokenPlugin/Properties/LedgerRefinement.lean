import TokenPlugin.Refinement

/-! # A node is a ledger with batches

Whatever a node does, is made to do by rejections, or goes through when it stops and catches up, its
ledger has made one run of valid events, and the node shows the outputs that this ledger leaves unspent:
all of it in the uncommitted reads, what is committed in the committed ones. -/

namespace TokenPlugin.Properties.LedgerRefinement

open Token.Types Token.Views Token.Updates Database Node Steps Invariant Replay Lifecycle Refinement
open Properties.CatchUp Lib.StagedLedger Reference

variable {P : Platform} {S : Storage P} {n n' : Node P} {g g' : Trace P} {es : List (Event TokenTxn)}

/-- The node shows the coins of a ledger: the text of every address lists its coins, in order, and the
state has their amounts under their keys and nothing else. -/
structure Shows (n : Node P) (s : Ledger TokenTxn) : Prop where
  uncommitted : Holds (uncommitted n.stores) (coinsOf s.all) (coinsOf s.all)
  committed : Holds (committed n.stores) (coinsOf s.committed) (coinsOf s.committed)

/-- **The node refines the ledger.** From any node that has lived, each step is the event of the ledger
that it should be and is allowed there, so is each restart and each catch-up, and the node shows what
the ledger leaves unspent. -/
theorem refines (h : Lived S Current n g) (ho : Onward S Current n g es n' g') :
    Run MayFollow (staged n) es (staged n') ∧ Shows n' (staged n') := by
  have hinv := lived_inv_notOld (ho.lived h)
  refine ⟨run_staged h ho, ?_, ?_⟩
  · rw [all_staged hinv]
    exact holds_uncommitted hinv
  · exact holds_committed hinv

theorem refines_joinedNode :
    Run MayFollow (staged joinedNode)
      [eventOf joinedNode passedNode (pass bob alice 2 90), .drop]
      (staged (storage.restart [] passedNode)) ∧
    Shows (storage.restart [] passedNode) (staged (storage.restart [] passedNode)) :=
  refines lived_joinedNode onward_joinedNode

end TokenPlugin.Properties.LedgerRefinement
