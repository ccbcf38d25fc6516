import TokenPlugin.Token.History
import TokenPlugin.Token.Replies

/-! # What GET_UTXO shows of stores that hold coins

Stores that a ledger of transactions with valid addresses leads to have a token state in the sense of
`Listing`, so the handler lists exactly the coins that the ledger leaves unspent. -/

namespace TokenPlugin.Token.Shown

open Python Token.Types Token.UtxoCache Token.TokenUtils Token.Handlers Token.Views Token.Coins
open Token.Updates Token.History Token.Listing Lib.Paging Lib.Text Lib.Utxo Lib.Program

variable {v v' : View} {W U : List Coin} {c r : Bool} {m : Str → Option Str}

/-! ### The state that is written -/

theorem tokenState_addNewOutput (hm : TokenState v.state) {a : Str} {n : ℕ} {x : PyInt} (ha : ':' ∉ a)
    (hn : 0 < n) (h : Returns (addNewOutput ⟨a, .int n, some x⟩ c) v () v') : TokenState v'.state := by
  obtain ⟨_, -, rfl⟩ := Pairs.returns_addNewOutput.mp h
  exact hm.update ha hn (by rintro t ⟨⟩; exact Or.inr ⟨x, rfl⟩)

theorem tokenState_addNewOutputs (hm : TokenState v.state) {outs : List OutputSpec} {n : ℕ}
    (ha : ∀ o ∈ outs, ':' ∉ o.address) (hn : 0 < n) (h : Returns (addNewOutputs outs n c) v () v') :
    TokenState v'.state := by
  unfold addNewOutputs at h
  induction outs generalizing v with
  | nil => exact returns_forM_nil.mp h ▸ hm
  | cons o outs ih =>
    obtain ⟨w, hw, h⟩ := returns_forM_cons.mp h
    exact ih (tokenState_addNewOutput hm (ha o List.mem_cons_self) hn hw)
      (fun p hp => ha p (List.mem_cons_of_mem _ hp)) h

theorem tokenState_spendInputs (hm : TokenState v.state) (hh : Holds v W U) {ins : List Input}
    (hW : ∀ d ∈ W, ':' ∉ d.addr ∧ 0 < d.seqNo) (h : Returns (spendInputs ins c r) v () v') :
    TokenState v'.state := by
  unfold spendInputs at h
  induction ins generalizing v W U with
  | nil => exact returns_forM_nil.mp h ▸ hm
  | cons i ins ih =>
    obtain ⟨w, hw, h⟩ := returns_forM_cons.mp h
    obtain ⟨n, hn, hk, rfl⟩ := (returns_spendInput hh.cache).mp hw
    obtain ⟨d, hd, hdk⟩ := List.mem_map.mp hk
    obtain ⟨ha, hnum⟩ : d.addr = i.address ∧ d.seqNo = n := Prod.mk.inj hdk
    obtain ⟨n', hn', -, hh'⟩ := hh.spendInput hw
    refine ih ?_ hh' (fun e he => hW e (spend_subset he)) h
    rw [hn]
    refine hm.update (ha ▸ (hW d hd).1) (hnum ▸ (hW d hd).2) ?_
    cases r <;> rintro t ⟨⟩
    exact Or.inl rfl

/-! ### Ledgers with valid addresses -/

/-- No output of the transaction goes to an address with a delimiter. -/
def Addressed (e : Entry) (_ : View) : Prop := ∀ o ∈ e.1.outputs, ':' ∉ o.address

variable {Q : Entry → View → Prop} {L : List Entry}

theorem addr_created (h : Built Q L v) (hQ : ∀ e v, Q e v → Addressed e v) :
    ∀ d ∈ created (txs L), ':' ∉ d.addr := by
  induction h with
  | nil => simp [created, txs]
  | snoc _ _ hq _ ih =>
    intro d hd
    rw [txs_append, show txs [_] = [_] from rfl, created_append, List.mem_append] at hd
    rcases hd with hd | hd
    · exact ih d hd
    · obtain ⟨p, hp, rfl⟩ := List.mem_map.mp hd
      obtain ⟨o, ho, rfl⟩ := List.mem_map.mp hp
      exact hQ _ _ hq o ho

/-- **Stores built by a ledger have a token state.** -/
theorem tokenState_of_built (h : Built Q L v) (hQ : ∀ e v, Q e v → Addressed e v) :
    TokenState v.state := by
  induction h with
  | nil => exact .empty
  | @snoc L v v' e h ok hq hr ih =>
    obtain ⟨hc, hh⟩ := h.holds
    obtain ⟨w, hw, hr⟩ := (returns_update ok.mint).mp hr
    have hW : ∀ d ∈ unspent (txs L), ':' ∉ d.addr ∧ 0 < d.seqNo := fun d hd =>
      ⟨addr_created h hQ d (hc.subset_created hd), (hc.seqNo_le hd).1⟩
    exact tokenState_addNewOutputs (tokenState_spendInputs ih hh hW hw) (hQ _ _ hq)
      (by rw [ok.seqNo]; omega) hr

/-- An output is unspent in the state when it is among the coins. -/
theorem unspent_iff (h : HoldsState m U) {a : Str} {n : ℕ} {x : PyInt} :
    Unspent m a n x ↔ ⟨a, n, x⟩ ∈ U := by
  have hkey := h a (PyInt.int n).str x.str (PyInt.int n).colon_notMem_str
  unfold Unspent createStateKey
  constructor
  · intro hu
    obtain ⟨d, hd, ha, hn, hx⟩ := hkey.mp ⟨hu, x.str_ne_nil⟩
    have hn : d.seqNo = n := Int.ofNat_inj.mp (intText_injective hn)
    rw [← ha, ← hn, ← PyInt.str_injective hx]
    exact hd
  · intro hd
    exact (hkey.mpr ⟨_, hd, rfl, rfl, rfl⟩).1

/-- The coins of an address, in the order of their numbers. -/
theorem exists_holding (h : HoldsState m U) (hn : (U.map Coin.key).Nodup) (a : Str) :
    ∃ l, Holding m a l := by
  have hkeys : (((U.filter (·.addr = a)).map fun d => (d.seqNo, d.amount)).map Prod.fst).Nodup := by
    have hsub : ((U.filter (·.addr = a)).map Coin.key).Nodup :=
      hn.sublist (List.filter_sublist.map Coin.key)
    have heq : (U.filter (·.addr = a)).map Coin.key =
        ((U.filter (·.addr = a)).map Coin.seqNo).map fun k => (a, k) := by
      rw [List.map_map]
      refine List.map_congr_left fun d hd => ?_
      rw [Coin.key, of_decide_eq_true (List.mem_filter.mp hd).2]
      rfl
    rw [List.map_map]
    exact (heq ▸ hsub).of_map _
  obtain ⟨l, hl, hperm⟩ := exists_ascending hkeys
  refine ⟨l, hl, fun k x => ?_⟩
  rw [hperm.mem_iff, unspent_iff h, List.mem_map]
  constructor
  · rintro ⟨d, hd, he⟩
    obtain ⟨hd, ha⟩ := List.mem_filter.mp hd
    obtain ⟨rfl, rfl⟩ := Prod.mk.inj he
    rwa [← of_decide_eq_true ha]
  · exact fun hd => ⟨_, List.mem_filter.mpr ⟨hd, by simp⟩, rfl⟩

end TokenPlugin.Token.Shown
