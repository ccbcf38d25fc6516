import TokenPlugin.Token.Sums

/-! # Stores built from a ledger

`Built` says which stores a list of ledger transactions leads to when each of them is applied, in
order, to empty stores. Such stores hold exactly the coins that the transactions leave unspent, in the
cache and in the state. -/

namespace TokenPlugin.Token.History

open Python Token.Types Token.Handlers Token.Views Token.Coins Token.Updates
open Lib.Text Lib.Utxo Lib.Program

/-- How a token transaction came to be: what applied it, and the fee the authorizer asked for. -/
structure Label where
  updater : Updater
  fee : ℕ
deriving DecidableEq

/-- A transaction of the token ledger with its label. -/
abbrev Entry : Type := TokenTxn × Label

/-- The transactions as chain transactions. -/
def txs (L : List Entry) : List (Tx Str PyInt) := L.map fun e => toTx e.1

/-- The type of the transactions that an updater applies. -/
def txnTypeOf : Updater → Str
  | .mint => mintPublic
  | .xfer | .xfer100 => xferPublic
  | .fees => feeTxn

/-- What static validation and the ledger see to, for transaction number `n`. -/
structure EntryOk (n : ℕ) (e : Entry) : Prop where
  seqNo : e.1.seqNo = n
  type : e.1.type = txnTypeOf e.2.updater
  nodup : (e.1.outputs.map OutputSpec.address).Nodup
  mint : e.2.updater = .mint → e.1.inputs = []

/-- The stores after the transactions have been applied in order, each one when `Q` held of it and of
the stores before it. -/
inductive Built (Q : Entry → View → Prop) : List Entry → View → Prop
  | nil : Built Q [] .empty
  | snoc {L : List Entry} {v v' : View} {e : Entry} (h : Built Q L v) (ok : EntryOk (L.length + 1) e)
      (hq : Q e v) (hr : Returns (update e.2.updater e.1 false) v () v') : Built Q (L ++ [e]) v'

variable {Q Q' : Entry → View → Prop} {L M : List Entry} {v v' : View} {e : Entry}

@[simp] theorem length_txs (L : List Entry) : (txs L).length = L.length := List.length_map ..

theorem txs_append (L M : List Entry) : txs (L ++ M) = txs L ++ txs M := List.map_append ..

/-- One transaction on stores that hold the coins of the ledger before it. -/
theorem EntryOk.spends {c : Bool} (ok : EntryOk (L.length + 1) e) {U : List Coin}
    (hc : Chain (txs L) U) (hh : Holds v U U) (hr : Returns (update e.2.updater e.1 c) v () v') :
    (∀ i ∈ e.1.inputs, ∃ n : ℕ, i.seqNo = .int n) ∧ ∃ U', Spends U (toTx e.1).ins U' ∧
      Chain (txs (L ++ [e])) (U' ++ create (L.length + 1) (toTx e.1).outs) ∧
      Holds v' (U' ++ create (L.length + 1) (toTx e.1).outs)
        (U' ++ create (L.length + 1) (toTx e.1).outs) := by
  have hf : ∀ d ∈ U, d.seqNo ≠ e.1.seqNo := fun d hd => by
    have := (hc.seqNo_le hd).2
    rw [length_txs] at this
    rw [ok.seqNo]
    omega
  obtain ⟨hb, U', hs, hh'⟩ := hh.update ok.mint ok.nodup hf hr
  rw [← hs.eq, ok.seqNo] at hh'
  refine ⟨hb, U', hs, ?_, hh'⟩
  have hn : ((toTx e.1).outs.map Prod.fst).Nodup := by
    simpa [toTx, payments, Function.comp_def] using ok.nodup
  have := Chain.snoc hc hs hn
  rw [length_txs] at this
  rw [txs_append]
  exact this

namespace Built

/-- **The stores hold the unspent coins of the ledger.** -/
theorem holds (h : Built Q L v) : Chain (txs L) (unspent (txs L)) ∧
    Holds v (unspent (txs L)) (unspent (txs L)) := by
  have hex : ∃ U, Chain (txs L) U ∧ Holds v U U := by
    induction h with
    | nil => exact ⟨[], .nil, .empty⟩
    | snoc _ ok _ hr ih =>
      obtain ⟨U, hc, hh⟩ := ih
      obtain ⟨-, U', -, hc', hh'⟩ := ok.spends hc hh hr
      exact ⟨_, hc', hh'⟩
  obtain ⟨U, hc, hh⟩ := hex
  rw [← hc.eq_unspent]
  exact ⟨hc, hh⟩

/-- No input of the ledger has a boolean number. -/
theorem isBool_eq_false (h : Built Q L v) :
    ∀ e ∈ L, ∀ i ∈ e.1.inputs, i.seqNo.isBool = false := by
  induction h with
  | nil => intro e he; cases he
  | snoc h ok _ hr ih =>
    intro e he i hi
    rcases List.mem_append.mp he with he | he
    · exact ih e he i hi
    · obtain rfl := List.mem_singleton.mp he
      obtain ⟨n, hn⟩ := (ok.spends h.holds.1 h.holds.2 hr).1 i hi
      rw [hn]
      rfl

/-- The transactions carry their numbers, and mints have no inputs. -/
theorem entryOk (h : Built Q L v) : ∀ i (hi : i < L.length), EntryOk (i + 1) L[i] := by
  induction h with
  | nil => intro i hi; cases hi
  | @snoc L _ _ e _ ok _ _ ih =>
    intro i hi
    by_cases hlt : i < L.length
    · rw [List.getElem_append_left hlt]; exact ih i hlt
    · have : i = L.length := by simp at hi; omega
      subst this
      simpa using ok

theorem last (h : Built Q (L ++ [e]) v') : ∃ v, Built Q L v ∧ EntryOk (L.length + 1) e ∧ Q e v ∧
    Returns (update e.2.updater e.1 false) v () v' := by
  generalize hM : L ++ [e] = M at h
  cases h with
  | nil => simp at hM
  | snoc h ok hq hr =>
    obtain ⟨rfl, hx⟩ := List.append_inj' hM rfl
    obtain rfl := List.singleton_inj.mp hx
    exact ⟨_, h, ok, hq, hr⟩

theorem imp (hQ : ∀ e v, Q e v → Q' e v) (h : Built Q L v) : Built Q' L v := by
  induction h with
  | nil => exact .nil
  | snoc _ ok hq hr ih => exact .snoc ih ok (hQ _ _ hq) hr

/-- The stores are determined by the ledger. -/
theorem unique (h : Built Q L v) (h' : Built Q' L v') : v = v' := by
  induction h generalizing v' with
  | nil =>
    generalize hM : ([] : List Entry) = M at h'
    cases h' with
    | nil => rfl
    | snoc => simp at hM
  | snoc _ _ _ hr ih =>
    obtain ⟨w, hw, -, -, hr'⟩ := h'.last
    obtain rfl := ih hw
    exact (hr.unique hr').2

theorem of_append (h : Built Q (L ++ M) v) : ∃ w, Built Q L w := by
  induction M using List.reverseRecOn generalizing v with
  | nil => exact ⟨v, by simpa using h⟩
  | append_singleton M e ih =>
    rw [← List.append_assoc] at h
    obtain ⟨w, hw, -⟩ := h.last
    exact ih hw

/-- A transaction of the ledger, on the stores that it was applied to. -/
theorem at_index (h : Built Q L v) {j : ℕ} (hj : L[j]? = some e) :
    ∃ w, Built Q (L.take j) w ∧ EntryOk (j + 1) e ∧ Q e w := by
  obtain ⟨hlt, he⟩ := List.getElem?_eq_some_iff.mp hj
  have hsplit : L = (L.take j ++ [e]) ++ L.drop (j + 1) := by
    rw [← he, List.take_append_getElem, List.take_append_drop]
  rw [hsplit] at h
  obtain ⟨w', hw'⟩ := of_append h
  obtain ⟨w, hw, ok, hq, -⟩ := hw'.last
  rw [List.length_take, Nat.min_eq_left hlt.le] at ok
  exact ⟨w, hw, ok, hq⟩

/-- A transaction with inputs changes the state for good: the key of the coin it spent stays empty. -/
theorem state_ne (h : Built Q L v) (h' : Built Q (L ++ e :: M) v') (he : e.1.inputs ≠ []) :
    v.state ≠ v'.state := by
  intro heq
  obtain ⟨i, ins, hi⟩ := List.exists_cons_of_ne_nil he
  have happ : L ++ e :: M = (L ++ [e]) ++ M := by simp
  obtain ⟨w, hw⟩ := of_append (happ ▸ h')
  obtain ⟨v₀, hv₀, ok, -, hr⟩ := hw.last
  obtain rfl := hv₀.unique h
  obtain ⟨-, U', hs, -⟩ := ok.spends h.holds.1 h.holds.2 hr
  have hname : inputName i ∈ (toTx e.1).ins := by simp [toTx, hi]
  obtain ⟨c, hc, hck⟩ := List.mem_map.mp (hs.mem hname)
  have hstate := (h.holds.2.state c.addr (intText c.seqNo) c.amount.str
    (notMem_intText (by decide) (by decide))).mpr ⟨c, hc, rfl, rfl, rfl⟩
  rw [heq] at hstate
  obtain ⟨d, hd, ha, hn, -⟩ := (h'.holds.2.state _ _ _
    (notMem_intText (by decide) (by decide))).mp hstate
  have hdk : d.key = inputName i := by
    rw [← hck, Coin.key, Coin.key, ha, Int.ofNat_inj.mp (intText_injective hn)]
  have hspent : d.key ∈ spent (txs (L ++ e :: M)) := by
    rw [hdk, spent, List.mem_flatMap]
    exact ⟨toTx e.1, by simp [txs], hname⟩
  exact (h'.holds.1.mem_iff.mp hd).2 hspent

end Built

end TokenPlugin.Token.History
