import TokenPlugin.Fees.Acceptance
import TokenPlugin.Messages.Fields
import TokenPlugin.Token.History

/-! # The supply

What a transaction does to the total of the cache, and the total along a ledger: what was minted less
the fees. A ledger is balanced when every transfer and every FEES transaction took exactly what it paid
out and the fee it was asked for. -/

namespace TokenPlugin.Token.Supply

open Python Token.Types Token.TokenUtils Token.Handlers Token.Views Token.Coins Token.Updates Token.Sums
open Token.History Token.Amounts Fees.Acceptance Messages.Fields Lib.Text Lib.Utxo Lib.Program

variable {L : List Entry} {v v' : View} {U : List Coin} {e : Entry} {c : Bool}

/-! ### One transaction -/

/-- The amount that a cache lists for an input, 0 if it lists none. -/
def listed (m : Str → Option Str) (i : Input) : ℤ :=
  (((outputsOf m i.address).find? (·.1 = intText i.seqNo.val)).map (amountOfText ·.2)).getD 0

/-- It is the value of the coin that the input names. -/
theorem listed_holds {m : Str → Option Str} (h : HoldsCache m U) {i : Input}
    (hi : i.seqNo.val = (inputName i).2) : listed m i = worth PyInt.val U (inputName i) := by
  unfold listed
  rw [outputsOf_holds h, hi, show inputName i = (i.address, (inputName i).2) from rfl]
  generalize (inputName i).2 = k
  clear h
  induction U with
  | nil => rfl
  | cons d U ih =>
    by_cases ha : d.addr = i.address
    · rw [← ha, held_cons_self, List.map_cons]
      by_cases hk : d.seqNo = k
      · subst hk
        simp [worth, Coin.key, textPair, amountOfText_str]
      · have ht : intText (d.seqNo : ℤ) ≠ intText (k : ℤ) := fun h =>
          hk (Int.ofNat_inj.mp (intText_injective h))
        have hhead : decide ((textPair (↑d.seqNo, d.amount)).1 = intText k) = false := decide_eq_false ht
        simp only [List.find?_cons, hhead]
        rw [ha, ih]
        simp [worth, Coin.key, hk]
    · rw [held_cons_of_ne ha, ih]
      simp [worth, Coin.key, ha]

theorem sum_listed {m : Str → Option Str} (h : HoldsCache m U) {ins : List Input}
    (hi : ∀ i ∈ ins, i.seqNo.val = (inputName i).2) :
    (ins.map (listed m)).sum = ((ins.map inputName).map (worth PyInt.val U)).sum := by
  rw [List.map_map]
  exact congrArg List.sum (List.map_congr_left fun i hm => listed_holds h (hi i hm))

/-- **The total after a transaction.** -/
theorem total_update (hc : Chain (txs L) U) (hh : Holds v U U) (ok : EntryOk (L.length + 1) e)
    (hi : ∀ i ∈ e.1.inputs, i.seqNo.val = (inputName i).2)
    (hr : Returns (update e.2.updater e.1 c) v () v') :
    total v'.cache = total v.cache - (e.1.inputs.map (listed v.cache)).sum + sumOutputs e.1.outputs := by
  obtain ⟨-, U', hs, -, hh'⟩ := ok.spends hc hh hr
  have hpaid : Lib.Utxo.total PyInt.val (create (L.length + 1) (toTx e.1).outs) =
      sumOutputs e.1.outputs := by
    rw [total_create]
    simp [toTx, payments, sumOutputs, Function.comp_def]
  rw [total_holds hh'.cache, total_append, hs.total hc.nodup_unspent, hpaid, total_holds hh.cache,
    sum_listed hh.cache hi]
  rfl

/-- Inputs that pay for something are listed with what they pay for. -/
theorem PaysFor.sum_listed {ins : List Input} {outs : List OutputSpec} {fee : ℤ}
    (hh : HoldsCache v.cache U) (hn : (ins.map inputKey).Nodup) (hp : PaysFor ins outs fee v) :
    (∀ i ∈ ins, i.seqNo.val = (inputName i).2) ∧
      (ins.map (listed v.cache)).sum = sumOutputs outs + fee := by
  obtain ⟨-, hsum, hin⟩ := returns_sumInputs hh hn hp
  exact ⟨fun i hi => (hin i hi).2, by rw [Supply.sum_listed hh fun i hi => (hin i hi).2, hsum]⟩

/-- **The total after a paid transaction** has dropped by the fee. -/
theorem total_paid (hc : Chain (txs L) U) (hh : Holds v U U) (ok : EntryOk (L.length + 1) e)
    (hn : (e.1.inputs.map inputKey).Nodup) {fee : ℤ} (hp : PaysFor e.1.inputs e.1.outputs fee v)
    (hr : Returns (update e.2.updater e.1 c) v () v') : total v'.cache = total v.cache - fee := by
  obtain ⟨hi, hsum⟩ := PaysFor.sum_listed hh.cache hn hp
  rw [total_update hc hh ok hi hr, hsum]
  ring

/-! ### A ledger -/

/-- A transaction that took what it paid out and its fee; a FEES transaction says what the fee was. -/
structure Balanced (e : Entry) (v : View) : Prop where
  nodup : (e.1.inputs.map inputKey).Nodup
  pays : e.2.updater ≠ .mint → PaysFor e.1.inputs e.1.outputs e.2.fee v
  fees : e.2.updater = .fees → e.1.fees = some ↑e.2.fee

/-- What the MINT_PUBLIC transactions paid out. -/
def minted (L : List TokenTxn) : ℤ := ((L.filter (·.type = mintPublic)).map (sumOutputs ·.outputs)).sum

/-- The fees of the other transactions. -/
def charged (L : List Entry) : ℤ := ((L.filter (·.1.type ≠ mintPublic)).map fun e => (e.2.fee : ℤ)).sum

theorem minted_concat (L : List TokenTxn) (txn : TokenTxn) :
    minted (L ++ [txn]) = minted L + if txn.type = mintPublic then sumOutputs txn.outputs else 0 := by
  unfold minted
  by_cases h : txn.type = mintPublic <;> simp [List.filter_append, h]

theorem charged_concat (L : List Entry) (e : Entry) :
    charged (L ++ [e]) = charged L + if e.1.type = mintPublic then 0 else (e.2.fee : ℤ) := by
  unfold charged
  by_cases h : e.1.type = mintPublic <;> simp [List.filter_append, h]

/-- An updater applies transactions of its type. -/
theorem type_eq_mint {n : ℕ} (ok : EntryOk n e) : e.1.type = mintPublic ↔ e.2.updater = .mint := by
  rw [ok.type]
  cases e.2.updater <;> simp [txnTypeOf, mintPublic, xferPublic, feeTxn]

theorem total_empty : total View.empty.cache = 0 := (total_holds HoldsCache.empty).trans rfl

/-- **The supply along a balanced ledger** is what was minted less the fees. -/
theorem total_built (h : Built Balanced L v) :
    total v.cache = minted (L.map Prod.fst) - charged L := by
  induction h with
  | nil => exact total_empty
  | @snoc L v v' e h ok hq hr ih =>
    obtain ⟨hc, hh⟩ := h.holds
    rw [List.map_append, List.map_singleton, minted_concat, charged_concat]
    by_cases hm : e.2.updater = .mint
    · have hin : e.1.inputs = [] := ok.mint hm
      have htot := total_update hc hh ok (by simp [hin]) hr
      rw [if_pos ((type_eq_mint ok).mpr hm), if_pos ((type_eq_mint ok).mpr hm), htot, ih, hin]
      simp
      ring
    · have hn : ¬e.1.type = mintPublic := fun ht => hm ((type_eq_mint ok).mp ht)
      rw [if_neg hn, if_neg hn, total_paid hc hh ok hq.nodup (hq.pays hm) hr, ih]
      ring

/-- The amount of the output that an input names, by the ledger. -/
def paidTo (L : List TokenTxn) (i : Input) : ℤ :=
  ((L[(inputName i).2 - 1]?.bind fun txn => txn.outputs.find? (·.address = i.address)).map
    (·.amount.val)).getD 0

/-- It is the value of the coin that the input names. -/
theorem paidTo_eq_worth {Q : Entry → View → Prop} (h : Built Q L v) {M : List TokenTxn}
    (hM : L.map Prod.fst <+: M) {i : Input} (hi : inputName i ∈ (unspent (txs L)).map Coin.key) :
    paidTo M i = worth PyInt.val (unspent (txs L)) (inputName i) := by
  obtain ⟨hc, -⟩ := h.holds
  obtain ⟨d, hd, hk⟩ := List.mem_map.mp hi
  obtain ⟨-, tx, htx, hout⟩ := mem_created.mp (hc.subset_created hd)
  have hseq : d.seqNo = (inputName i).2 := congrArg Prod.snd hk
  have haddr : d.addr = i.address := congrArg Prod.fst hk
  rw [txs, List.getElem?_map] at htx
  obtain ⟨e, he, rfl⟩ := Option.map_eq_some_iff.mp htx
  obtain ⟨hlt, rfl⟩ := List.getElem?_eq_some_iff.mp he
  have hnodup := (h.entryOk _ hlt).nodup
  have hget : M[d.seqNo - 1]? = some L[d.seqNo - 1].1 := by
    obtain ⟨t, rfl⟩ := hM
    rw [List.getElem?_append_left (by simpa using hlt), List.getElem?_map, he]
    rfl
  obtain ⟨o, ho, hoe⟩ := List.mem_map.mp hout
  have hfind : (L[d.seqNo - 1].1.outputs.find? (·.address = i.address)) = some o := by
    have hsome : (L[d.seqNo - 1].1.outputs.find? (·.address = i.address)).isSome :=
      List.find?_isSome.mpr ⟨o, ho, by simpa [haddr] using congrArg Prod.fst hoe⟩
    obtain ⟨o', ho'⟩ := Option.isSome_iff_exists.mp hsome
    have hoa : o'.address = i.address := by simpa using List.find?_some ho'
    obtain rfl := List.inj_on_of_nodup_map hnodup (List.mem_of_find?_eq_some ho') ho
      (hoa.trans (haddr.symm.trans (congrArg Prod.fst hoe).symm))
    exact ho'
  rw [← hk, worth_of_mem hc.nodup_unspent hd]
  unfold paidTo
  rw [← hseq, hget, Option.bind_some, hfind]
  exact congrArg PyInt.val (congrArg Prod.snd hoe)

/-- What a transaction of a balanced ledger took, by the ledger. -/
theorem sum_paidTo (h : Built Balanced L v) {j : ℕ} (hj : L[j]? = some e)
    (hm : e.2.updater ≠ .mint) :
    (e.1.inputs.map (paidTo (L.map Prod.fst))).sum = sumOutputs e.1.outputs + e.2.fee := by
  obtain ⟨w, hw, -, hq⟩ := h.at_index hj
  obtain ⟨-, hh⟩ := hw.holds
  obtain ⟨-, hsum, hin⟩ := returns_sumInputs hh.cache hq.nodup (hq.pays hm)
  rw [hsum, List.map_map]
  exact congrArg List.sum (List.map_congr_left fun i hi =>
    paidTo_eq_worth hw ((List.take_prefix _ _).map _) (hin i hi).1)

end TokenPlugin.Token.Supply
