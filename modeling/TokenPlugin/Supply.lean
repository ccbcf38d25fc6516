import TokenPlugin.Runs
import TokenPlugin.Token.Supply

/-! # The supply of a node

What a paid transaction does to the unspent outputs of a node, and that in every run in which the
authorizer is consulted the token ledger is balanced. -/

namespace TokenPlugin.Supply

open Python Token.Types Token.TokenUtils Token.Handlers Token.Views Token.Sums Token.History
open Token.Coins Token.Updates Token.Supply Messages.Fields Fees.FeesAuthorizer Fees.DomainFeeHandler
open Fees.Acceptance Database Node Steps Effects Invariant Applying Runs Lib.Utxo Lib.Text Lib.Program

variable {P : Platform} {Q : Entry → View → Prop} {n n' : Node P} {g : Trace P}

/-- The sum of all unspent outputs in the uncommitted cache. -/
noncomputable def supply (n : Node P) : ℤ := total (P.cache.contents n.stores.utxoCache).read

/-- The uncommitted cache lists an output of the number and address of the input. -/
def Unspent (n : Node P) (i : Input) : Prop :=
  ∃ t, (intText i.seqNo.val, t) ∈ outputsOf (P.cache.contents n.stores.utxoCache).read i.address

/-- The next transaction, as one that follows the labelled ledger. -/
theorem entryOk_next (h : Inv Q n g) {e : Entry} (ok : EntryOk (nextSeqNo n) e) :
    EntryOk (((point n).txns.zip g.labels).length + 1) e := by
  rw [List.length_zip, Nat.min_eq_left h.built.length_le]
  exact nextSeqNo_eq n ▸ ok

/-- **A paid transaction** takes the fee out of the supply and leaves none of its inputs unspent. -/
theorem supply_paid (h : Inv Q n g) {txn : TokenTxn} {lab : Label} {s : Stores P} {fee : ℤ}
    (ok : EntryOk (nextSeqNo n) (txn, lab)) (hn : (txn.inputs.map inputKey).Nodup)
    (hp : PaysFor txn.inputs txn.outputs fee n.stores)
    (hs : Returns (update lab.updater txn false) n.stores () s) (hn' : n'.stores = s) :
    supply n' = supply n - fee ∧ ∀ i ∈ txn.inputs, ¬Unspent n' i := by
  subst hn'
  obtain ⟨hc, hh⟩ := h.built.built.holds
  have hpv : PaysFor txn.inputs txn.outputs fee (point n).view := returns_sumInputs_uncommitted false hp
  have hsv := (returns_update_uncommitted false hs).1
  have hok := entryOk_next h ok
  refine ⟨total_paid hc hh hok hn hpv hsv, ?_⟩
  rintro i hi ⟨t, ht⟩
  obtain ⟨-, U', -, hc', hh'⟩ := hok.spends hc hh hsv
  obtain ⟨c, hcm, ha, hseq, -⟩ := (mem_outputsOf hh'.cache).mp ht
  -- the coin that the input names would be spent and unspent
  have hk : c.key = inputName i := by
    have hval : (c.seqNo : ℤ) = i.seqNo.val := intText_injective hseq
    exact Prod.ext ha (by simp only [inputName, Coin.key]; omega)
  have hspent : c.key ∈ spent (txs ((point n).txns.zip g.labels ++ [(txn, lab)])) := by
    rw [hk, spent, List.mem_flatMap]
    exact ⟨toTx txn, by simp [txs], List.mem_map_of_mem hi⟩
  exact List.disjoint_of_nodup_append hc'.nodup hspent (List.mem_map_of_mem hcm)

/-! ### Balanced runs -/

/-- The fee of the label is one that is paid. -/
theorem paysFor_label {auths : List AuthConstraint} {fees : FeesMap} {ins : List Input}
    {outs : List OutputSpec} {s : Stores P} (hpays : PaysFees auths fees ins outs s)
    (hnone : auths = [] → PaysFor ins outs 0 s) :
    PaysFor ins outs ↑((auths.head?.map (feesAmount fees)).getD 0) s := by
  cases auths with
  | nil => exact hnone rfl
  | cons c auths => exact hpays c List.mem_cons_self

theorem fee_labelOf (fees : FeesMap) (r : Request) (version : XferVersion) (auths : List AuthConstraint)
    (hm : ∀ outs, r.operation ≠ .mint outs) :
    (labelOf fees r version auths).fee = (auths.head?.map (feesAmount fees)).getD 0 := by
  unfold labelOf
  cases hop : r.operation with
  | mint outs => exact absurd hop (hm outs)
  | xfer => cases version <;> rfl
  | _ => rfl

/-- **Every request that is applied under the authorizer** appends a balanced transaction. -/
theorem admitted_balanced : Admitted P Consulted Balanced := by
  intro r version auths time n n' hok hst heff txn htxn
  have hnew : ∀ {t}, tokenTxns n' = tokenTxns n ++ [t] → t = txn := fun {t} h => by
    have := h.symm.trans htxn
    simpa using this
  have hsame : tokenTxns n' = tokenTxns n → False := fun h => by
    have := h.symm.trans htxn
    simp at this
  have hv := hst.1
  cases heff with
  | @mint outs s hop _ =>
    obtain rfl := hnew (tokenTxns_withToken _ _)
    rw [labelOf_mint version auths n.configFees hop]
    exact ⟨List.nodup_nil, fun h => absurd rfl h, nofun⟩
  | @xfer ins outs sigs s hop hpays hplain _ =>
    obtain rfl := hnew (tokenTxns_withToken _ _)
    rw [hop] at hv
    have hfee := fee_labelOf n.configFees r version auths (by rw [hop]; rintro _ ⟨⟩)
    refine ⟨hv.1.2, fun _ => ?_, fun hu => ?_⟩
    · rw [hfee]
      refine returns_sumInputs_uncommitted false (paysFor_label hpays fun hnil => hplain fun hreg => ?_)
      simp only [Consulted, hop] at hok
      exact hok hreg hnil
    · rw [updater_xfer version auths _ hop] at hu
      split_ifs at hu
  | domain => exact (hsame (tokenTxns_withDomain _)).elim
  | @domainFees typ section_ fees s hop hf hpays hfees _ =>
    obtain rfl := hnew (tokenTxns_withFees ..)
    have hvf := hst.2
    rw [hf] at hvf
    have hfee := fee_labelOf n.configFees r version auths (by rw [hop]; rintro _ ⟨⟩)
    have hp : PaysFor section_.inputs section_.outputs
        ↑((auths.head?.map (feesAmount n.configFees)).getD 0) n.stores := by
      refine paysFor_label hpays fun hnil => ?_
      simp only [Consulted, hop] at hok
      exact absurd hnil (hok (by rw [hf]; rfl))
    refine ⟨hvf.1.1.2, fun _ => by rw [hfee]; exact returns_sumInputs_uncommitted false hp, fun _ => ?_⟩
    have hz := (returns_calculateFees hf hfees).2 _ hp
    show some fees = some _
    rw [hz, hfee]
    simp
  | config => exact (hsame rfl).elim

end TokenPlugin.Supply
