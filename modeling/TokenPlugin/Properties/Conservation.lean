import TokenPlugin.Reference
import TokenPlugin.Supply

/-! # Conservation of supply

In every reachable state the unspent outputs are worth what was minted less the fees, and every FEES
transaction says what it took. -/

namespace TokenPlugin.Properties.Conservation

open Python Token.Types Token.TokenUtils Token.History Token.Supply Database Steps Invariant Runs
open TokenPlugin.Supply Lib.Program Reference

variable {P : Platform} {n : Node P} {g : Trace P}

/-- The fees field is what the authorizer asked for, and what the inputs were paid less what the
transaction pays. -/
def FeesAsCharged (L : List TokenTxn) (labels : List Label) : Prop :=
  ∀ (j : ℕ) txn lab, L[j]? = some txn → labels[j]? = some lab → txn.type = feeTxn →
    txn.fees = some ↑lab.fee ∧
      (lab.fee : ℤ) = (txn.inputs.map (paidTo L)).sum - sumOutputs txn.outputs

/-- **Conservation of supply.** The labels hold, for each transaction of the token ledger, the amount
that the fees map gave for the alias of its constraint when it was authorised. -/
theorem conservation (h : Reach Consulted n g) :
    g.labels.length = (tokenTxns n).length ∧
    supply n = minted (tokenTxns n) - charged ((tokenTxns n).zip g.labels) ∧
    FeesAsCharged (tokenTxns n) g.labels := by
  have hinv := reach_inv admitted_balanced h
  have hb := hinv.built
  have hmap : ((point n).txns.zip g.labels).map Prod.fst = tokenTxns n := List.map_fst_zip hb.length_le
  refine ⟨hinv.labels, ?_, fun j txn lab hj hlab htyp => ?_⟩
  · have := total_built hb.built
    rw [hmap] at this
    exact this
  · have hz : ((point n).txns.zip g.labels)[j]? = some (txn, lab) :=
      List.getElem?_zip_eq_some.mpr ⟨hj, hlab⟩
    obtain ⟨w, -, ok, hq⟩ := hb.built.at_index hz
    have hu : lab.updater = .fees := by
      have ht : txn.type = txnTypeOf lab.updater := ok.type
      rw [htyp] at ht
      revert ht
      cases lab.updater <;> simp [txnTypeOf, mintPublic, xferPublic, feeTxn]
    have hsum := sum_paidTo hb.built hz (by rw [hu]; decide)
    rw [hmap] at hsum
    exact ⟨hq.fees hu, by rw [hsum]; simp⟩

theorem conservation_sample :
    sampleTrace.labels.length = (tokenTxns sampleNode).length ∧
    supply sampleNode = minted (tokenTxns sampleNode) -
      charged ((tokenTxns sampleNode).zip sampleTrace.labels) ∧
    FeesAsCharged (tokenTxns sampleNode) sampleTrace.labels :=
  conservation (reach_sample Consulted (by decide +kernel))

/-- 100 were minted, and a NYM paid 10. -/
example : minted (tokenTxns sampleNode) - charged ((tokenTxns sampleNode).zip sampleTrace.labels) = 90 := by
  decide +kernel

end TokenPlugin.Properties.Conservation
