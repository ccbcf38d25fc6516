import TokenPlugin.Token.Coins

/-! # What a token transaction does to the coins

`spend_input` and `add_new_output` write to the state and to the cache. On stores that hold lists of
coins, each transaction's update succeeds exactly when its inputs can be spent in order, and leaves
stores that hold what is left, followed by the new coins. The cache and the state may hold different
lists, as they do while a state is rebuilt beside a cache that was kept. -/

namespace TokenPlugin.Token.Updates

open Python Token.Types Token.UtxoCache Token.TokenUtils Token.Handlers Token.Views Token.Amounts
open Token.Pairs Token.Coins Lib.Text Lib.Utxo Lib.Program

/-! ### Both stores -/

/-- The cache holds `W`, the state holds `U`. -/
structure Holds (v : View) (W U : List Coin) : Prop where
  cache : HoldsCache v.cache W
  state : HoldsState v.state U
  nodup : (U.map Coin.key).Nodup

variable {v v' : View} {W W' U : List Coin} {c r : Bool}

theorem Holds.empty : Holds .empty [] [] := ⟨.empty, .empty, List.nodup_nil⟩

theorem nodup_spend {k : Str × ℕ} (h : (U.map Coin.key).Nodup) :
    ((spend U k).map Coin.key).Nodup := h.sublist (List.eraseP_sublist.map _)

/-- **Spending an input.** -/
theorem returns_spendInput (h : HoldsCache v.cache W) {a : Str} {s : PyInt} :
    Returns (spendInput a s c r) v () v' ↔ ∃ n : ℕ, s = .int n ∧ (a, n) ∈ W.map Coin.key ∧
      v' = ⟨Function.update v.state (createStateKey a s) (if r then none else some []),
        Function.update v.cache a (some (textOf (spend W (a, n)) a))⟩ := by
  have htext : ∀ n : ℕ, render ':' (without (.int n) ((held W a).map textPair)) =
      textOf (spend W (a, n)) a := fun n => by rw [textOf, held_spend_self]; rfl
  rw [Pairs.returns_spendInput]
  unfold Listed
  simp only [h.pairsAt_eq, Option.some.injEq]
  constructor
  · rintro ⟨_, ⟨rfl, hs⟩, rfl⟩
    obtain ⟨n, hn, hk⟩ := mem_texts_held.mp hs
    obtain rfl : s = .int n := PyInt.str_injective hn.symm
    exact ⟨n, rfl, hk, by rw [htext]; rfl⟩
  · rintro ⟨n, rfl, hk, rfl⟩
    exact ⟨_, ⟨rfl, mem_texts_held.mpr ⟨n, rfl, hk⟩⟩, by rw [htext]; rfl⟩

theorem Holds.spendInput (h : Holds v W U) {a : Str} {s : PyInt}
    (hr : Returns (spendInput a s c r) v () v') : ∃ n : ℕ, s = .int n ∧ (a, n) ∈ W.map Coin.key ∧
      Holds v' (spend W (a, n)) (spend U (a, n)) := by
  obtain ⟨n, rfl, hk, rfl⟩ := (returns_spendInput h.cache).mp hr
  refine ⟨n, rfl, hk, h.cache.spend a n, h.state.spend h.nodup a n ?_, nodup_spend h.nodup⟩
  cases r <;> rfl

/-- **Spending the inputs of a transaction.** -/
theorem Holds.spendInputs (h : Holds v W U) {ins : List Input}
    (hr : Returns (spendInputs ins c r) v () v') :
    (∀ i ∈ ins, ∃ n : ℕ, i.seqNo = .int n) ∧ ∃ W', Spends W (ins.map inputName) W' ∧
      Holds v' W' ((ins.map inputName).foldl spend U) := by
  unfold TokenUtils.spendInputs at hr
  induction ins generalizing v W U with
  | nil =>
    obtain rfl := returns_forM_nil.mp hr
    exact ⟨by simp, W, rfl, h⟩
  | cons i ins ih =>
    obtain ⟨w, hi, hr⟩ := returns_forM_cons.mp hr
    obtain ⟨n, hn, hk, hw⟩ := h.spendInput hi
    obtain ⟨hb, W', hs, hv⟩ := ih hw hr
    have hname : inputName i = (i.address, n) := by simp [inputName, hn]
    refine ⟨?_, W', ?_, ?_⟩
    · rintro j (_ | ⟨_, hj⟩)
      · exact ⟨n, hn⟩
      · exact hb j hj
    · rw [List.map_cons, hname]; exact ⟨hk, hs⟩
    · rw [List.map_cons, hname]; exact hv

/-- Inputs with integer numbers that name coins which are there can be spent. -/
theorem exists_spendInputs (h : Holds v W U) {ins : List Input}
    (hi : ∀ i ∈ ins, ∃ n : ℕ, i.seqNo = .int n) (hs : Spends W (ins.map inputName) W') :
    ∃ v', Returns (spendInputs ins c r) v () v' := by
  unfold TokenUtils.spendInputs
  induction ins generalizing v W U with
  | nil => exact ⟨v, returns_forM_nil.mpr rfl⟩
  | cons i ins ih =>
    obtain ⟨n, hn⟩ := hi i List.mem_cons_self
    have hname : inputName i = (i.address, n) := by simp [inputName, hn]
    rw [List.map_cons, hname] at hs
    have hr := (returns_spendInput (r := r) (c := c) h.cache).mpr ⟨n, hn, hs.1, rfl⟩
    obtain ⟨n', hn', -, hw⟩ := h.spendInput hr
    obtain rfl : n = n' := by
      have := hn.symm.trans hn'
      simpa using this
    obtain ⟨v', hv'⟩ := ih hw (fun j hj => hi j (List.mem_cons_of_mem _ hj)) hs.2
    exact ⟨v', returns_forM_cons.mpr ⟨_, hr, hv'⟩⟩

/-- **Adding an output.** -/
theorem Holds.addNewOutput (h : Holds v W U) (d : Coin) (hd : d.key ∉ U.map Coin.key) :
    ∃ v', Returns (addNewOutput ⟨d.addr, .int d.seqNo, some d.amount⟩ c) v () v' ∧
      Holds v' (W ++ [d]) (U ++ [d]) := by
  refine ⟨⟨Function.update v.state (createStateKey d.addr (.int d.seqNo)) (some d.amount.str),
    Function.update v.cache d.addr (some (textOf (W ++ [d]) d.addr))⟩, ?_,
    h.cache.add d, h.state.add d hd, ?_⟩
  · have htext : textOf (W ++ [d]) d.addr =
        render ':' ((held W d.addr).map textPair ++ [((PyInt.int d.seqNo).str, d.amount.str)]) := by
      simp [textOf, held, textPair]
    exact returns_addNewOutput.mpr ⟨_, h.cache.pairsAt_eq _, by rw [htext]⟩
  · rw [List.map_append, List.nodup_append]
    refine ⟨h.nodup, by simp, ?_⟩
    rintro k hk _ hd' rfl
    exact hd (List.mem_singleton.mp hd' ▸ hk)

/-- **Adding the outputs of a transaction.** -/
theorem Holds.addNewOutputs (h : Holds v W U) {outs : List OutputSpec} {n : ℕ}
    (hn : (outs.map OutputSpec.address).Nodup) (hf : ∀ d ∈ U, d.seqNo ≠ n) :
    ∃ v', Returns (addNewOutputs outs n c) v () v' ∧
      Holds v' (W ++ create n (payments outs)) (U ++ create n (payments outs)) := by
  have hkeys : ∀ o ∈ outs, (o.address, n) ∉ U.map Coin.key := by
    intro o _ hk
    obtain ⟨d, hd, hk⟩ := List.mem_map.mp hk
    exact hf d hd (congrArg Prod.snd hk)
  clear hf
  unfold TokenUtils.addNewOutputs
  induction outs generalizing v W U with
  | nil => exact ⟨v, returns_forM_nil.mpr rfl, by simpa [payments, create] using h⟩
  | cons o outs ih =>
    rw [List.map_cons, List.nodup_cons] at hn
    obtain ⟨w, hw, hv⟩ := h.addNewOutput ⟨o.address, n, o.amount⟩ (hkeys o List.mem_cons_self)
    obtain ⟨v', hv', hh⟩ := ih hv hn.2 fun p hp hk => by
      rw [List.map_append, List.mem_append] at hk
      rcases hk with hk | hk
      · exact hkeys p (List.mem_cons_of_mem _ hp) hk
      · have : p.address = o.address := congrArg Prod.fst (List.mem_singleton.mp hk)
        exact hn.1 (this ▸ List.mem_map_of_mem hp)
    refine ⟨v', returns_forM_cons.mpr ⟨w, hw, hv'⟩, ?_⟩
    simpa [payments, create, List.append_assoc] using hh

/-! ### Whole transactions -/

theorem handler_raises {S : Type} (e : PyErr) (y : Py S Unit)
    (hy : (if e.cls.isUTXOError then some (Prog.raise ⟨.operationError,
      ("Exception " : Str) ++ e.msg ++ (" while updating state" : Str)⟩ : Py S Unit) else none) = some y) :
    ∃ e', y = Prog.raise e' := by
  split_ifs at hy
  exact ⟨_, (Option.some.inj hy).symm⟩

theorem returns_whileUpdatingState {S : Type} {x : Py S Unit} {s t : S} :
    Returns (whileUpdatingState x) s () t ↔ Returns x s () t := returns_catching handler_raises

theorem raises_whileUpdatingState {S : Type} {x : Py S Unit} {s t : S} :
    Raises (whileUpdatingState x) s t ↔ Raises x s t := raises_catching handler_raises

/-- A mint has no inputs, so every update spends the inputs and then adds the outputs. -/
theorem returns_update {S : Type} [TokenStores S] {u : Updater} {txn : TokenTxn}
    (hm : u = .mint → txn.inputs = []) {s t : S} :
    Returns (update u txn c) s () t ↔ ∃ w, Returns (spendInputs txn.inputs c u.removeSpent) s () w ∧
      Returns (addNewOutputs txn.outputs txn.seqNo c) w () t := by
  have hunit : ∀ (x y : Py S Unit), Returns (x >>= fun _ => y) s () t ↔
      ∃ w, Returns x s () w ∧ Returns y w () t := fun x y => by
    rw [returns_bind]
    exact ⟨fun ⟨_, w, h⟩ => ⟨w, h⟩, fun ⟨w, h⟩ => ⟨(), w, h⟩⟩
  cases u with
  | mint =>
    rw [hm rfl]
    simp only [update, mintUpdateState, returns_whileUpdatingState, TokenUtils.spendInputs,
      returns_forM_nil, exists_eq_left']
  | xfer => exact returns_whileUpdatingState.trans (hunit _ _)
  | xfer100 => exact returns_whileUpdatingState.trans (hunit _ _)
  | fees => exact hunit _ _

/-- An update raises while it spends the inputs or, once they are spent, while it adds the outputs. -/
theorem raises_update {S : Type} [TokenStores S] {u : Updater} {txn : TokenTxn} (hu : u ≠ .mint)
    {s t : S} : Raises (update u txn c) s t ↔ Raises (spendInputs txn.inputs c u.removeSpent) s t ∨
      ∃ w, Returns (spendInputs txn.inputs c u.removeSpent) s () w ∧
        Raises (addNewOutputs txn.outputs txn.seqNo c) w t := by
  have hunit : ∀ (x y : Py S Unit), Raises (x >>= fun _ => y) s t ↔
      Raises x s t ∨ ∃ w, Returns x s () w ∧ Raises y w t := fun x y => by
    rw [raises_bind]
    exact or_congr_right ⟨fun ⟨_, w, h⟩ => ⟨w, h⟩, fun ⟨w, h⟩ => ⟨(), w, h⟩⟩
  cases u with
  | mint => exact absurd rfl hu
  | xfer => exact raises_whileUpdatingState.trans (hunit _ _)
  | xfer100 => exact raises_whileUpdatingState.trans (hunit _ _)
  | fees => exact hunit _ _

/-- The transaction, as one that spends coins and pays. -/
def toTx (txn : TokenTxn) : Lib.Utxo.Tx Str PyInt :=
  ⟨txn.inputs.map inputName, payments txn.outputs⟩

/-- **The effect of a token transaction**, where no coin has its number yet. -/
theorem Holds.update (h : Holds v W U) {u : Updater} {txn : TokenTxn}
    (hm : u = .mint → txn.inputs = []) (hn : (txn.outputs.map OutputSpec.address).Nodup)
    (hf : ∀ d ∈ U, d.seqNo ≠ txn.seqNo) (hr : Returns (update u txn c) v () v') :
    (∀ i ∈ txn.inputs, ∃ n : ℕ, i.seqNo = .int n) ∧ ∃ W', Spends W (toTx txn).ins W' ∧
      Holds v' (W' ++ create txn.seqNo (toTx txn).outs)
        ((toTx txn).ins.foldl spend U ++ create txn.seqNo (toTx txn).outs) := by
  obtain ⟨w, hw, hv⟩ := (returns_update hm).mp hr
  obtain ⟨hb, W', hs, hh⟩ := h.spendInputs hw
  obtain ⟨v'', hv'', hh'⟩ := hh.addNewOutputs (c := c) hn fun d hd => hf d (foldl_spend_subset hd)
  obtain rfl := (hv.unique hv'').2
  exact ⟨hb, W', hs, hh'⟩

/-- A transaction whose inputs can be spent is applied. -/
theorem exists_update (h : Holds v W U) {u : Updater} {txn : TokenTxn}
    (hm : u = .mint → txn.inputs = []) (hn : (txn.outputs.map OutputSpec.address).Nodup)
    (hf : ∀ d ∈ U, d.seqNo ≠ txn.seqNo) (hi : ∀ i ∈ txn.inputs, ∃ n : ℕ, i.seqNo = .int n)
    (hs : Spends W (toTx txn).ins W') : ∃ v', Returns (Handlers.update u txn c) v () v' := by
  obtain ⟨w, hw⟩ := exists_spendInputs (c := c) (r := u.removeSpent) h hi hs
  obtain ⟨-, W'', -, hh⟩ := h.spendInputs hw
  obtain ⟨v', hv', -⟩ := hh.addNewOutputs (c := c) hn fun d hd => hf d (foldl_spend_subset hd)
  exact ⟨v', (returns_update hm).mpr ⟨w, hw, hv'⟩⟩

end TokenPlugin.Token.Updates
