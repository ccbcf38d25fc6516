import TokenPlugin.Lib.Utxo
import TokenPlugin.Token.Pairs

/-! # The stores as a list of coins

A cache holds a list of coins when the text of each address lists the coins of the address, in order;
a state holds it when it maps the key of each coin to the text of its amount and nothing else to a
non-empty text. Spending an input and adding an output, as the code does them in the two stores, are
then `spend` and appending on the list. -/

namespace TokenPlugin.Token.Coins

open Python Token.Types Token.UtxoCache Token.TokenUtils Token.Amounts Token.Pairs
open Lib.Text Lib.Utxo

/-- An unspent output. -/
abbrev Coin : Type := Lib.Utxo.Coin Str PyInt

/-- The numbers and amounts of the coins of an address. -/
def held (U : List Coin) (a : Str) : List (ℤ × PyInt) :=
  (U.filter (·.addr = a)).map fun c => (↑c.seqNo, c.amount)

/-- The text that lists the coins of an address. -/
def textOf (U : List Coin) (a : Str) : Str := render ':' ((held U a).map textPair)

/-- The text of every address lists its coins. -/
def HoldsCache (m : Str → Option Str) (U : List Coin) : Prop := ∀ a, (m a).getD [] = textOf U a

/-- The non-empty entries of the state are the amounts of the coins. -/
def HoldsState (m : Str → Option Str) (U : List Coin) : Prop :=
  ∀ a s t, ':' ∉ s → ((m (a ++ ':' :: s) = some t ∧ t ≠ []) ↔
    ∃ c ∈ U, c.addr = a ∧ intText c.seqNo = s ∧ c.amount.str = t)

/-- The coin that an input names. -/
def inputName (i : Input) : Str × ℕ := (i.address, i.seqNo.val.toNat)

/-- The payments of a list of outputs. -/
def payments (outputs : List OutputSpec) : List (Str × PyInt) :=
  outputs.map fun o => (o.address, o.amount)

/-! ### The coins of an address -/

theorem held_append (U W : List Coin) (a : Str) : held (U ++ W) a = held U a ++ held W a := by
  simp [held]

theorem held_cons_self (c : Coin) (U : List Coin) :
    held (c :: U) c.addr = (↑c.seqNo, c.amount) :: held U c.addr := by
  simp [held]

theorem held_cons_of_ne {c : Coin} {a : Str} (h : c.addr ≠ a) (U : List Coin) :
    held (c :: U) a = held U a := by
  simp [held, h]

theorem clean_held (U : List Coin) (a : Str) : Clean ':' ((held U a).map textPair) :=
  clean_textPair _

theorem mem_texts_held {U : List Coin} {a s : Str} :
    s ∈ ((held U a).map textPair).map Prod.fst ↔ ∃ n : ℕ, intText n = s ∧ (a, n) ∈ U.map Coin.key := by
  simp only [held, List.map_map, List.mem_map, List.mem_filter, decide_eq_true_eq,
    Function.comp, textPair, Coin.key, Prod.mk.injEq]
  constructor
  · rintro ⟨c, ⟨hc, ha⟩, hs⟩
    exact ⟨c.seqNo, hs, c, hc, ha, rfl⟩
  · rintro ⟨n, hs, c, hc, ha, rfl⟩
    exact ⟨c, ⟨hc, ha⟩, hs⟩

theorem held_spend_of_ne {U : List Coin} {a b : Str} (h : a ≠ b) (n : ℕ) :
    held (spend U (a, n)) b = held U b := by
  induction U with
  | nil => rfl
  | cons c U ih =>
    by_cases hc : c.key = (a, n)
    · have ha : c.addr ≠ b := fun he => h ((congrArg Prod.fst hc).symm.trans he)
      rw [held_cons_of_ne ha]
      simp [spend, hc]
    · have hs : spend (c :: U) (a, n) = c :: spend U (a, n) := by simp [spend, hc]
      rw [hs]
      by_cases hb : c.addr = b
      · subst hb; rw [held_cons_self, held_cons_self, ih]
      · rw [held_cons_of_ne hb, held_cons_of_ne hb, ih]

theorem held_spend_self (U : List Coin) (a : Str) (n : ℕ) :
    (held (spend U (a, n)) a).map textPair =
      ((held U a).map textPair).eraseP (·.1 = intText n) := by
  induction U with
  | nil => rfl
  | cons c U ih =>
    by_cases ha : c.addr = a
    · subst ha
      rw [held_cons_self, List.map_cons]
      by_cases hn : c.seqNo = n
      · subst hn
        simp [spend, Coin.key, textPair]
      · have hs : spend (c :: U) (c.addr, n) = c :: spend U (c.addr, n) := by
          simp [spend, Coin.key, hn]
        have ht : intText c.seqNo ≠ intText n := fun he =>
          hn (Int.ofNat_inj.mp (intText_injective he))
        rw [hs, held_cons_self, List.map_cons, ih, List.eraseP_cons_of_neg]
        exact fun hd => ht (of_decide_eq_true hd)
    · have hs : spend (c :: U) (a, n) = c :: spend U (a, n) := by
        simp [spend, Coin.key, ha]
      rw [hs, held_cons_of_ne ha, held_cons_of_ne ha, ih]

/-! ### The cache -/

theorem HoldsCache.empty : HoldsCache (fun _ => none) [] := fun _ => rfl

theorem HoldsCache.update {m : Str → Option Str} {U W : List Coin} {a : Str} (h : HoldsCache m U)
    (hW : ∀ b, a ≠ b → held W b = held U b) :
    HoldsCache (Function.update m a (some (textOf W a))) W := by
  intro b
  by_cases hb : b = a
  · subst hb; simp
  · rw [Function.update_of_ne hb, h b, textOf, textOf, hW b (Ne.symm hb)]

theorem HoldsCache.spend {m : Str → Option Str} {U : List Coin} (h : HoldsCache m U) (a : Str)
    (n : ℕ) : HoldsCache (Function.update m a (some (textOf (spend U (a, n)) a))) (spend U (a, n)) :=
  h.update fun _ hb => held_spend_of_ne hb n

theorem HoldsCache.add {m : Str → Option Str} {U : List Coin} (h : HoldsCache m U) (c : Coin) :
    HoldsCache (Function.update m c.addr (some (textOf (U ++ [c]) c.addr))) (U ++ [c]) :=
  h.update fun b hb => by rw [held_append, held_cons_of_ne hb]; simp [held]

/-- The text of an address lists the pairs of its coins. -/
theorem HoldsCache.pairsAt_eq {m : Str → Option Str} {U : List Coin} (h : HoldsCache m U) (a : Str) :
    pairsAt m a = some ((held U a).map textPair) := by
  rw [pairsAt, h a, textOf]
  exact pairs_render (clean_held U a)

/-! ### The state -/

theorem stateKey_eq {a b s : Str} {n : PyInt} (hs : ':' ∉ s) :
    b ++ ':' :: s = createStateKey a n ↔ b = a ∧ s = n.str := by
  constructor
  · exact append_delim_inj hs n.colon_notMem_str
  · rintro ⟨rfl, rfl⟩; rfl

theorem HoldsState.empty : HoldsState (fun _ => none) [] := by
  intro a s t _
  simp

/-- A spent key is removed or keeps an empty text. -/
theorem HoldsState.spend {m : Str → Option Str} {U : List Coin} (h : HoldsState m U)
    (hU : (U.map Coin.key).Nodup) (a : Str) (n : ℕ) {x : Option Str} (hx : x.getD [] = []) :
    HoldsState (Function.update m (createStateKey a (.int n)) x) (spend U (a, n)) := by
  intro b s t hs
  by_cases hk : b ++ ':' :: s = createStateKey a (.int n)
  · obtain ⟨rfl, rfl⟩ := (stateKey_eq hs).mp hk
    rw [hk, Function.update_self]
    constructor
    · rintro ⟨rfl, ht⟩; exact absurd hx ht
    · rintro ⟨c, hc, ha, hn, -⟩
      refine absurd ?_ ((mem_spend hU).mp hc).2
      rw [Coin.key, ha, Int.ofNat_inj.mp (intText_injective hn)]
  · rw [Function.update_of_ne hk, h b s t hs]
    constructor
    · rintro ⟨c, hc, rfl, rfl, rfl⟩
      refine ⟨c, (mem_spend hU).mpr ⟨hc, fun he => hk ?_⟩, rfl, rfl, rfl⟩
      obtain ⟨ha, hn⟩ := Prod.mk.inj he
      exact (stateKey_eq hs).mpr ⟨ha, by rw [hn]; rfl⟩
    · rintro ⟨c, hc, hrest⟩
      exact ⟨c, ((mem_spend hU).mp hc).1, hrest⟩

theorem HoldsState.add {m : Str → Option Str} {U : List Coin} (h : HoldsState m U) (c : Coin)
    (hc : c.key ∉ U.map Coin.key) :
    HoldsState (Function.update m (createStateKey c.addr (.int c.seqNo)) (some c.amount.str))
      (U ++ [c]) := by
  intro b s t hs
  simp only [List.mem_append, List.mem_singleton]
  by_cases hk : b ++ ':' :: s = createStateKey c.addr (.int c.seqNo)
  · obtain ⟨rfl, rfl⟩ := (stateKey_eq hs).mp hk
    rw [hk, Function.update_self]
    constructor
    · rintro ⟨ht, -⟩; exact ⟨c, Or.inr rfl, rfl, rfl, Option.some.inj ht⟩
    · rintro ⟨d, hd | rfl, ha, hn, rfl⟩
      · refine absurd (List.mem_map.mpr ⟨d, hd, ?_⟩) hc
        rw [Coin.key, Coin.key, ha, Int.ofNat_inj.mp (intText_injective hn)]
      · exact ⟨rfl, d.amount.str_ne_nil⟩
  · rw [Function.update_of_ne hk, h b s t hs]
    constructor
    · rintro ⟨d, hd, hrest⟩; exact ⟨d, Or.inl hd, hrest⟩
    · rintro ⟨d, hd | rfl, rfl, rfl, rfl⟩
      · exact ⟨d, hd, rfl, rfl, rfl⟩
      · exact absurd rfl hk

end TokenPlugin.Token.Coins
