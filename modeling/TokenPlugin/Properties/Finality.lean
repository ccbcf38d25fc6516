import TokenPlugin.Refinement

/-! # What is committed is final

No later step, rejection, restart or catch-up takes a committed transaction back, shows an output that
it has spent, or counts that output as funds again. -/

namespace TokenPlugin.Properties.Finality

open Python Token.Types Token.UtxoCache Token.TokenUtils Token.Views Token.Coins Token.Updates Token.Sums
open Database Node Steps Invariant Replay Lifecycle Refinement Properties.CatchUp
open Lib.Text Lib.Utxo Lib.Program Lib.StagedLedger Reference

variable {P : Platform} {S : Storage P} {n n' : Node P} {g g' : Trace P} {es : List (Event TokenTxn)}
  {i : Input} {v : View} {L : List TokenTxn}

/-- Nothing shows the output that an input names. -/
structure Gone (v : View) (i : Input) : Prop where
  state : (v.state (createStateKey i.address i.seqNo)).getD [] = []
  cache : ∀ x, (i.seqNo.str, x) ∉ outputsOf v.cache i.address

theorem gone_of_spent (hh : Holds v (coinsOf L) (coinsOf L)) (hn : ∃ k : ℕ, i.seqNo = .int k)
    (hs : inputName i ∉ (coinsOf L).map Coin.key) : Gone v i := by
  obtain ⟨k, hk⟩ := hn
  have hcoin : ∀ c ∈ coinsOf L, c.addr = i.address → intText c.seqNo ≠ i.seqNo.str := by
    intro c hc ha hseq
    rw [hk] at hseq
    refine hs (List.mem_map.mpr ⟨c, hc, ?_⟩)
    rw [Coin.key, ha, Int.ofNat_inj.mp (intText_injective hseq), inputName, hk]
    rfl
  constructor
  · by_contra hne
    obtain ⟨t, ht⟩ : ∃ t, v.state (createStateKey i.address i.seqNo) = some t := by
      cases hx : v.state (createStateKey i.address i.seqNo) with
      | none => rw [hx] at hne; exact absurd rfl hne
      | some t => exact ⟨t, rfl⟩
    rw [ht] at hne
    obtain ⟨c, hc, ha, hseq, -⟩ := (hh.state _ _ _ i.seqNo.colon_notMem_str).mp ⟨ht, hne⟩
    exact hcoin c hc ha hseq
  · intro x hx
    obtain ⟨c, hc, ha, hseq, -⟩ := (mem_outputsOf hh.cache).mp hx
    exact hcoin c hc ha hseq

/-- The inputs of a ledger name outputs that it does not leave unspent. -/
theorem notMem_coinsOf (hc : Chain (L.map toTx) (coinsOf L)) {t : TokenTxn} (ht : t ∈ L)
    (hi : i ∈ t.inputs) : inputName i ∉ (coinsOf L).map Coin.key := by
  intro hmem
  refine List.disjoint_of_nodup_append hc.nodup ?_ hmem
  exact List.mem_flatMap.mpr ⟨toTx t, List.mem_map_of_mem ht, List.mem_map_of_mem hi⟩

/-- Inputs of which one names an output that is gone cannot be summed. -/
theorem not_returns_sumInputs {s s' : Stores P} (hh : HoldsCache (uncommitted s).cache (coinsOf L))
    (hs : inputName i ∉ (coinsOf L).map Coin.key) {ins : List Input} (hi : i ∈ ins) {z : ℤ} :
    ¬Returns (sumInputs ins false) s z s' := by
  intro hr
  have hview := returns_sumInputs_uncommitted (P := P) false hr
  obtain ⟨x, hx⟩ := Option.isSome_iff_exists.mp ((returns_sumInputs_distinct.mp hview).2.1 i hi)
  obtain ⟨k, hz, hk, -⟩ := amountOf_holds hh hx
  refine hs ?_
  rwa [show inputName i = (i.address, k) by simp [inputName, hz]]

/-- A transaction that a ledger has valid entries behind. -/
theorem numbers_of_follows (h : Follows MayFollow [] L) {t : TokenTxn} (ht : t ∈ L) :
    ∀ i ∈ t.inputs, ∃ k : ℕ, i.seqNo = .int k := by
  obtain ⟨A, B, rfl⟩ := List.append_of_mem ht
  exact (follows_append.mp h).2.1.numbers

/-- What a committed transaction has done to an output that it spent, seen at a later time: its ledger
is still there, no read shows the output, no later transaction spends it, and it is in no sum. -/
structure Final (n n' : Node P) (i : Input) : Prop where
  ledger : ledgerTxns n <+: ledgerTxns n'
  uncommitted : Gone (uncommitted n'.stores) i
  committed : Gone (committed n'.stores) i
  later : ∀ t ∈ (tokenTxns n').drop (ledgerTxns n).length, inputName i ∉ t.inputs.map inputName
  sums : ∀ ins, i ∈ ins → ∀ z s, ¬Returns (sumInputs ins false) n'.stores z s

/-- **What is committed is final**, whatever the node goes through later. -/
theorem final (h : Lived S Current n g) (ho : Onward S Current n g es n' g') {t : TokenTxn}
    (ht : t ∈ ledgerTxns n) (hi : i ∈ t.inputs) : Final n n' i := by
  have hinv := lived_inv_notOld (ho.lived h)
  have hpre : ledgerTxns n <+: ledgerTxns n' := (run_staged h ho).prefix_committed
  have hall : ledgerTxns n' <+: tokenTxns n' := List.prefix_append _ _
  have hnum := numbers_of_follows (follows_of_lived (ho.lived h)) (hall.subset (hpre.subset ht)) i hi
  obtain ⟨hchain, hh⟩ := holds_of_builtAt hinv.built
  obtain ⟨hchain', hh'⟩ := holds_of_builtAt hinv.base
  have hs := notMem_coinsOf hchain (hall.subset (hpre.subset ht)) hi
  refine ⟨hpre, gone_of_spent hh hnum hs, gone_of_spent hh' hnum
    (notMem_coinsOf hchain' (hpre.subset ht) hi), ?_, fun ins hin z s =>
      not_returns_sumInputs hh.cache hs hin⟩
  intro u hu hmem
  obtain ⟨rest, hrest⟩ := hpre.trans hall
  rw [← hrest, List.drop_left] at hu
  have hsplit : spent ((tokenTxns n').map toTx) =
      spent ((ledgerTxns n).map toTx) ++ spent (rest.map toTx) := by
    rw [← hrest, List.map_append, spent, List.flatMap_append]
    rfl
  have hnodup := (List.nodup_append.mp hchain.nodup).1
  rw [show (point n').txns = tokenTxns n' from rfl, hsplit] at hnodup
  refine List.disjoint_of_nodup_append hnodup ?_ ?_ (a := inputName i)
  · exact List.mem_flatMap.mpr ⟨toTx t, List.mem_map_of_mem ht, List.mem_map_of_mem hi⟩
  · exact List.mem_flatMap.mpr ⟨toTx u, List.mem_map_of_mem hu, hmem⟩

theorem final_joinedNode : Final joinedNode (storage.restart [] passedNode) ⟨alice.address, .int 1⟩ := by
  have hspent : ∃ t ∈ ledgerTxns joinedNode, (⟨alice.address, .int 1⟩ : Input) ∈ t.inputs := by
    decide +kernel
  obtain ⟨t, ht, hi⟩ := hspent
  exact final lived_joinedNode onward_joinedNode ht hi

end TokenPlugin.Properties.Finality
