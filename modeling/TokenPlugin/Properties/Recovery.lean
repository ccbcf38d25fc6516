import TokenPlugin.Properties.Agreement
import TokenPlugin.Replay

/-! # Recovering the token state beside a cache that was kept

A node whose token state has been deleted replays its whole ledger. The cache still has the outputs that
the ledger leaves unspent, and the replay adds them once more. The cache is right afterwards exactly when
there are none. -/

namespace TokenPlugin.Properties.Recovery

open Python Token.Types Token.Views Token.Coins Token.Updates Token.Sums Token.History Database Node Steps
open Invariant Runs Replay Agreement Lib.Text Lib.Utxo Lib.Program Reference

variable {P : Platform} {n : Node P} {g : Trace P} {ok : Action → Prop} {s : Stores P}

/-- The outputs that a ledger leaves unspent. -/
def unspentOutputs (txns : List TokenTxn) : List Coin := unspent (txns.map toTx)

/-- The cache lists exactly the outputs that the ledger leaves unspent, each once, as the state does. -/
def Recovered (txns : List TokenTxn) (v : View) : Prop :=
  (∀ a s t, (s, t) ∈ outputsOf v.cache a ↔
    ∃ c ∈ unspentOutputs txns, c.addr = a ∧ intText c.seqNo = s ∧ c.amount.str = t) ∧ Agree v

/-- Stores that hold the coins twice in the cache are right only when there are none. -/
theorem recovered_iff_of_holds {txns : List TokenTxn} {v : View} {U : List Coin}
    (hU : unspentOutputs txns = U) (h : Holds v (U ++ U) U) : Recovered txns v ↔ U = [] := by
  constructor
  · rintro ⟨-, hagree⟩
    by_contra hne
    obtain ⟨c, hc⟩ := List.exists_mem_of_ne_nil _ hne
    have hn := hagree.nodup c.addr
    rw [outputsOf_holds h.cache, held_append, List.map_append, List.map_append] at hn
    -- the number of the coin is listed in both halves
    have hmem : intText c.seqNo ∈ ((held U c.addr).map Token.Amounts.textPair).map Prod.fst :=
      mem_texts_held.mpr ⟨c.seqNo, rfl, List.mem_map_of_mem hc⟩
    exact (List.nodup_append.mp hn).2.2 _ hmem _ hmem rfl
  · rintro rfl
    refine ⟨fun a s t => ?_, agree_of_holds h⟩
    rw [hU]
    exact mem_outputsOf h.cache

/-- **When recovery leaves the cache right.** Let the stores of a node be those at the end of a run, but
for the state, which is gone. Replaying the ledger leaves a cache that lists what the ledger leaves
unspent exactly when that is nothing. -/
theorem recovered_iff (h : Reach ok n g) (hstate : (direct s).state = fun _ => none)
    (hcache : (direct s).cache = (committed n.stores).cache) :
    (∃ s', Returns (replay P (ledgerTxns n) true) s () s' ∧ Recovered (ledgerTxns n) (direct s')) ↔
      unspentOutputs (ledgerTxns n) = [] := by
  have hbase := (reach_inv_true h).base
  obtain ⟨hc, hh⟩ := hbase.built.holds
  have hfst : ((ledgerTxns n).zip g.labels).map Prod.fst = ledgerTxns n := List.map_fst_zip hbase.length_le
  have htxs : txs ((ledgerTxns n).zip g.labels) = (ledgerTxns n).map toTx := by
    rw [← congrArg (List.map toTx) hfst, List.map_map]
    rfl
  have hstart : Holds (direct s) (unspent (txs ((ledgerTxns n).zip g.labels))) [] := by
    refine ⟨?_, ?_, List.nodup_nil⟩
    · rw [hcache]
      exact hh.cache
    · rw [hstate]
      exact .empty
  have hspent : ∀ k ∈ spent (txs ((ledgerTxns n).zip g.labels)),
      k ∉ (unspent (txs ((ledgerTxns n).zip g.labels))).map Coin.key := fun k hk hkU => by
    obtain ⟨c, hcU, rfl⟩ := List.mem_map.mp hkU
    exact (hc.mem_iff.mp hcU).2 hk
  obtain ⟨v, hv, hh'⟩ := exists_replay_kept (P := P) (c := true) hbase.built hspent hstart
  replace hv : Returns (replay P (ledgerTxns n) true) (direct s) () v := hfst ▸ hv
  obtain ⟨s₁, hs₁, rfl⟩ := exists_replay_direct hv
  have hiff := recovered_iff_of_holds (congrArg unspent htxs.symm) hh'
  rw [unspentOutputs, ← htxs, ← hiff]
  constructor
  · rintro ⟨s', hs', hrec⟩
    rwa [(hs₁.unique hs').2]
  · exact fun hrec => ⟨s₁, hs₁, hrec⟩

/-! ### One mint -/

/-- 100 tokens are minted, and committed. -/
def minted : List Action := [mint 100, .close .token, .commit]

theorem minted_isSome : (run ref minted).isSome := by decide +kernel

/-- The node after that. -/
def mintedNode : Node ref := ((run ref minted).get minted_isSome).1

theorem reach_mintedNode : Reach (fun _ => True) mintedNode ((run ref minted).get minted_isSome).2 :=
  reach_run (Option.some_get minted_isSome).symm fun _ _ => trivial

/-- Its stores once the state has been deleted. -/
def keptStores : Stores ref := ⟨ref.state.new, mintedNode.stores.utxoCache⟩

theorem recovered_iff_minted : (∃ s', Returns (replay ref (ledgerTxns mintedNode) true) keptStores () s' ∧
    Recovered (ledgerTxns mintedNode) (direct s')) ↔ unspentOutputs (ledgerTxns mintedNode) = [] :=
  recovered_iff reach_mintedNode rfl rfl

/-- The replay lists the minted output twice. -/
theorem not_recovered_minted :
    Reach (fun _ => True) mintedNode ((run ref minted).get minted_isSome).2 ∧
    (direct keptStores).state = (fun _ => none) ∧
    (direct keptStores).cache = (committed mintedNode.stores).cache ∧
    ¬∃ s', Returns (replay ref (ledgerTxns mintedNode) true) keptStores () s' ∧
      Recovered (ledgerTxns mintedNode) (direct s') := by
  refine ⟨reach_mintedNode, rfl, rfl, ?_⟩
  rintro ⟨s', hs', -, hagree⟩
  have hret : Returns (replay ref (ledgerTxns mintedNode) true) keptStores ()
      (replay ref (ledgerTxns mintedNode) true keptStores).2 :=
    returns_of_fst (by decide +kernel)
  obtain rfl := (hret.unique hs').2
  have hn := hagree.nodup alice.address
  have htwice : (outputsOf (direct (replay ref (ledgerTxns mintedNode) true keptStores).2).cache
      alice.address).map Prod.fst = ["1", "1"] := by decide +kernel
  rw [htwice] at hn
  exact absurd hn (by decide)

end TokenPlugin.Properties.Recovery
