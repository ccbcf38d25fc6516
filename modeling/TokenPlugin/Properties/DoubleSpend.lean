import TokenPlugin.Reference

/-! # No double spend

In every reachable state the token ledger is a valid chain of spendings: every input names an output
that a strictly earlier transaction paid, and no output is named twice. -/

namespace TokenPlugin.Properties.DoubleSpend

open Python Token.Types Token.Coins Token.Updates Token.History Database Steps Invariant Runs
open Messages.Fields Lib.Utxo Lib.Program Reference

variable {P : Platform} {n : Node P} {g : Trace P} {ok : Action → Prop}

/-- A token ledger in which every input names an output of an earlier transaction, counted from one,
and no two inputs name the same output. -/
structure ValidLedger (L : List TokenTxn) : Prop where
  earlier : ∀ j txn, L[j]? = some txn → ∀ i ∈ txn.inputs, ∃ k paid, i.seqNo = .int (k + 1 : ℕ) ∧
    k < j ∧ L[k]? = some paid ∧ paid.seqNo = k + 1 ∧ i.address ∈ paid.outputs.map OutputSpec.address
  once : (L.flatMap fun txn => txn.inputs.map inputKey).Nodup

/-- An input of a ledger that stores were built from. -/
theorem input_earlier {Q : Entry → Token.Views.View → Prop} {L : List Entry} {v : Token.Views.View}
    (h : Built Q L v) {j : ℕ} {e : Entry} (hj : L[j]? = some e) {i : Input} (hi : i ∈ e.1.inputs) :
    ∃ k paid, i.seqNo = .int (k + 1 : ℕ) ∧ k < j ∧ L[k]? = some paid ∧ paid.1.seqNo = k + 1 ∧
      i.address ∈ paid.1.outputs.map OutputSpec.address := by
  obtain ⟨hlt, he⟩ := List.getElem?_eq_some_iff.mp hj
  have hpre : txs (L.take j) ++ [toTx e.1] <+: txs L := by
    have : txs (L.take (j + 1)) <+: txs L := (List.take_prefix _ _).map _
    rwa [List.take_add_one, hj, Option.toList_some, txs_append] at this
  obtain ⟨c, hc, hck⟩ := h.holds.1.input_created hpre (List.mem_map_of_mem (f := inputName) hi)
  obtain ⟨hpos, tx, htx, hout⟩ := mem_created.mp hc
  obtain ⟨k, hk⟩ : ∃ k, c.seqNo = k + 1 := ⟨c.seqNo - 1, by omega⟩
  rw [hk, Nat.add_sub_cancel, txs, List.getElem?_map] at htx
  obtain ⟨paid, hpaid, rfl⟩ := Option.map_eq_some_iff.mp htx
  obtain ⟨hkj, hpaid⟩ : k < j ∧ L[k]? = some paid := by
    rw [List.getElem?_take] at hpaid
    split_ifs at hpaid with hkj
    exact ⟨hkj, hpaid⟩
  have hnum : i.seqNo.val.toNat = k + 1 := by rw [← hk]; exact (congrArg Prod.snd hck).symm
  have hbool := h.isBool_eq_false e (he ▸ List.getElem_mem hlt) i hi
  refine ⟨k, paid, ?_, hkj, hpaid, ?_, ?_⟩
  · rw [PyInt.isBool_eq_false.mp hbool]
    congr 1
    omega
  · obtain ⟨hkl, rfl⟩ := List.getElem?_eq_some_iff.mp hpaid
    exact (h.entryOk k hkl).seqNo
  · have haddr : c.addr = i.address := congrArg Prod.fst hck
    obtain ⟨o, ho, hoc⟩ := List.mem_map.mp hout
    exact List.mem_map.mpr ⟨o, ho, by rw [← haddr]; exact congrArg Prod.fst hoc⟩

/-- No output is named twice in a ledger that stores were built from. -/
theorem inputs_nodup {Q : Entry → Token.Views.View → Prop} {L : List Entry} {v : Token.Views.View}
    (h : Built Q L v) : ((L.map Prod.fst).flatMap fun txn => txn.inputs.map inputKey).Nodup := by
  have hspent : (spent (txs L)).Nodup := (List.nodup_append.mp h.holds.1.nodup).1
  have hname : spent (txs L) = ((L.map Prod.fst).flatMap fun txn => txn.inputs.map inputKey).map
      fun k => (k.1, k.2.toNat) := by
    simp only [spent, txs, List.flatMap_map, List.map_flatMap, List.map_map]
    rfl
  rw [hname] at hspent
  exact hspent.of_map _

/-- **No double spend.** -/
theorem validLedger (h : Reach ok n g) : ValidLedger (tokenTxns n) := by
  have hb := (reach_inv_true h).built
  have hmap : ((tokenTxns n).zip g.labels).map Prod.fst = tokenTxns n := List.map_fst_zip hb.length_le
  refine ⟨fun j txn hj i hi => ?_, ?_⟩
  · obtain ⟨lab, hlab⟩ : ∃ lab, g.labels[j]? = some lab := by
      have hlt : j < g.labels.length := (List.getElem?_eq_some_iff.mp hj).1.trans_le hb.length_le
      exact ⟨_, List.getElem?_eq_getElem hlt⟩
    have hz : ((tokenTxns n).zip g.labels)[j]? = some (txn, lab) :=
      List.getElem?_zip_eq_some.mpr ⟨hj, hlab⟩
    obtain ⟨k, paid, hseq, hkj, hk, hnum, ha⟩ := input_earlier hb.built hz hi
    exact ⟨k, paid.1, hseq, hkj, (List.getElem?_zip_eq_some.mp hk).1, hnum, ha⟩
  · have := inputs_nodup hb.built
    rwa [show (point n).txns = tokenTxns n from rfl, hmap] at this

theorem validLedger_sample :
    (tokenTxns sampleNode).length = 3 ∧ ValidLedger (tokenTxns sampleNode) :=
  ⟨by decide +kernel, validLedger (reach_sample (fun _ => True) fun _ _ => trivial)⟩

end TokenPlugin.Properties.DoubleSpend
