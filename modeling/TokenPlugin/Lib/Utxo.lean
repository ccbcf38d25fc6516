import Mathlib

/-! # Chains of transactions over unspent outputs

A transaction spends named outputs of earlier transactions and pays new ones. The outputs of
transaction number `n` (counted from one) are coins `(a, n)`, one for each address `a` it pays.
`Chain L U` says that the transactions `L`, in order, each spend coins that are unspent when they
come, and leave the coins `U` unspent, oldest first.

What the rest uses: the spent and the unspent coins together are exactly the coins created, each
once (`Chain.perm`), so no coin is spent twice; every input names a coin of a strictly earlier
transaction (`Chain.input_created`); and a value counted along the chain is what the transactions
paid less what they took (`Chain.total`). -/

namespace TokenPlugin.Lib.Utxo

variable {A V : Type}

/-- An output: what transaction number `seqNo` paid to an address. -/
structure Coin (A V : Type) where
  addr : A
  seqNo : ℕ
  amount : V
deriving DecidableEq

/-- A coin is named by its address and the number of the transaction that paid it. -/
def Coin.key (c : Coin A V) : A × ℕ := (c.addr, c.seqNo)

/-- A transaction: the coins it spends and what it pays to whom. -/
structure Tx (A V : Type) where
  ins : List (A × ℕ)
  outs : List (A × V)

/-- The coins that transaction number `n` pays. -/
def create (n : ℕ) (outs : List (A × V)) : List (Coin A V) := outs.map fun o => ⟨o.1, n, o.2⟩

/-- The names of all inputs of a list of transactions. -/
def spent (L : List (Tx A V)) : List (A × ℕ) := L.flatMap Tx.ins

/-- The coins of all outputs of a list of transactions. -/
def created (L : List (Tx A V)) : List (Coin A V) :=
  (L.zipIdx 1).flatMap fun p => create p.2 p.1.outs

/-! ### Creation -/

theorem keys_create (n : ℕ) (outs : List (A × V)) :
    (create n outs).map Coin.key = outs.map fun o => (o.1, n) := by
  simp [create, Coin.key, Function.comp_def]

theorem created_append (L : List (Tx A V)) (tx : Tx A V) :
    created (L ++ [tx]) = created L ++ create (L.length + 1) tx.outs := by
  simp [created, List.zipIdx_append, Nat.add_comm]

theorem spent_append (L : List (Tx A V)) (tx : Tx A V) : spent (L ++ [tx]) = spent L ++ tx.ins := by
  simp [spent]

theorem mem_created {L : List (Tx A V)} {c : Coin A V} :
    c ∈ created L ↔ 0 < c.seqNo ∧ ∃ tx, L[c.seqNo - 1]? = some tx ∧ (c.addr, c.amount) ∈ tx.outs := by
  simp only [created, create, List.mem_flatMap, List.mem_map, Prod.exists, List.mem_zipIdx_iff_le_and_getElem?_sub]
  constructor
  · rintro ⟨tx, n, ⟨hn, htx⟩, a, v, ho, rfl⟩
    exact ⟨hn, tx, htx, ho⟩
  · rintro ⟨hn, tx, htx, ho⟩
    exact ⟨tx, c.seqNo, ⟨hn, htx⟩, c.addr, c.amount, ho, rfl⟩

theorem seqNo_le_of_mem_created {L : List (Tx A V)} {c : Coin A V} (h : c ∈ created L) :
    0 < c.seqNo ∧ c.seqNo ≤ L.length := by
  obtain ⟨h0, tx, htx, -⟩ := mem_created.mp h
  have := (List.getElem?_eq_some_iff.mp htx).1
  omega

/-! ### Spending -/

variable [DecidableEq A]

/-- The coins left when the coin of a name is spent. -/
def spend (U : List (Coin A V)) (k : A × ℕ) : List (Coin A V) := U.eraseP fun c => c.key = k

/-- The coins named, each unspent when its turn comes, are spent in order. -/
def Spends : List (Coin A V) → List (A × ℕ) → List (Coin A V) → Prop
  | U, [], U' => U = U'
  | U, k :: ks, U' => k ∈ U.map Coin.key ∧ Spends (spend U k) ks U'

/-- The transactions, in order, and the coins they leave unspent. -/
inductive Chain : List (Tx A V) → List (Coin A V) → Prop
  | nil : Chain [] []
  | snoc {L : List (Tx A V)} {U U' : List (Coin A V)} {tx : Tx A V} (h : Chain L U)
      (hs : Spends U tx.ins U') (ho : (tx.outs.map Prod.fst).Nodup) :
      Chain (L ++ [tx]) (U' ++ create (L.length + 1) tx.outs)

/-- The coins that a list of transactions leaves unspent, oldest first. -/
def unspent (L : List (Tx A V)) : List (Coin A V) :=
  (L.zipIdx 1).foldl (fun U p => p.1.ins.foldl spend U ++ create p.2 p.1.outs) []

theorem unspent_append (L : List (Tx A V)) (tx : Tx A V) :
    unspent (L ++ [tx]) = tx.ins.foldl spend (unspent L) ++ create (L.length + 1) tx.outs := by
  simp [unspent, List.zipIdx_append, Nat.add_comm]

theorem spend_of_notMem {U : List (Coin A V)} {k : A × ℕ} (h : k ∉ U.map Coin.key) :
    spend U k = U := by
  refine List.eraseP_of_forall_not fun c hc hk => h ?_
  exact List.mem_map.mpr ⟨c, hc, by simpa using hk⟩

theorem spend_append_right {U W : List (Coin A V)} {k : A × ℕ} (h : k ∉ U.map Coin.key) :
    spend (U ++ W) k = U ++ spend W k := by
  refine List.eraseP_append_right W fun c hc hk => h ?_
  exact List.mem_map.mpr ⟨c, hc, by simpa using hk⟩

/-- Spending takes out one coin of the name. -/
theorem perm_spend {U : List (Coin A V)} {k : A × ℕ} (h : k ∈ U.map Coin.key) :
    ∃ c ∈ U, c.key = k ∧ U.Perm (c :: spend U k) := by
  induction U with
  | nil => exact absurd h List.not_mem_nil
  | cons d U ih =>
    by_cases hd : d.key = k
    · exact ⟨d, List.mem_cons_self, hd, by simp [spend, hd]⟩
    · have hk : k ∈ U.map Coin.key := (List.mem_cons.mp h).resolve_left (Ne.symm hd)
      obtain ⟨c, hc, hck, hp⟩ := ih hk
      refine ⟨c, List.mem_cons_of_mem _ hc, hck, ?_⟩
      have : spend (d :: U) k = d :: spend U k := by simp [spend, hd]
      rw [this]
      exact (hp.cons d).trans (List.Perm.swap c d _)

theorem spend_subset {U : List (Coin A V)} {k : A × ℕ} : spend U k ⊆ U := List.eraseP_subset

theorem foldl_spend_subset {U : List (Coin A V)} {ks : List (A × ℕ)} : ks.foldl spend U ⊆ U := by
  induction ks generalizing U with
  | nil => exact List.Subset.refl _
  | cons k ks ih => exact List.Subset.trans ih spend_subset

theorem perm_keys_spend {U : List (Coin A V)} {k : A × ℕ} (h : k ∈ U.map Coin.key) :
    (U.map Coin.key).Perm (k :: (spend U k).map Coin.key) := by
  obtain ⟨c, -, rfl, hp⟩ := perm_spend h
  exact hp.map Coin.key

theorem mem_spend {U : List (Coin A V)} (hU : (U.map Coin.key).Nodup) {k : A × ℕ}
    {c : Coin A V} : c ∈ spend U k ↔ c ∈ U ∧ c.key ≠ k := by
  by_cases hk : k ∈ U.map Coin.key
  · obtain ⟨d, hd, rfl, hp⟩ := perm_spend hk
    have hn := (hp.map Coin.key).nodup_iff.mp hU
    rw [List.map_cons, List.nodup_cons] at hn
    constructor
    · intro hc
      exact ⟨spend_subset hc, fun he => hn.1 (List.mem_map.mpr ⟨c, hc, he⟩)⟩
    · rintro ⟨hc, he⟩
      exact (List.mem_cons.mp (hp.subset hc)).resolve_left fun h => he (by rw [h])
  · rw [spend_of_notMem hk]
    exact ⟨fun hc => ⟨hc, fun he => hk (he ▸ List.mem_map_of_mem hc)⟩, And.left⟩

theorem Spends.subset {U U' : List (Coin A V)} {ks : List (A × ℕ)} (h : Spends U ks U') :
    U' ⊆ U := by
  induction ks generalizing U with
  | nil => exact h ▸ List.Subset.refl _
  | cons k ks ih => exact List.Subset.trans (ih h.2) spend_subset

/-- The names spent are those taken out. -/
theorem Spends.perm {U U' : List (Coin A V)} {ks : List (A × ℕ)} (h : Spends U ks U') :
    (U.map Coin.key).Perm (ks ++ U'.map Coin.key) := by
  induction ks generalizing U with
  | nil => rw [show U = U' from h]; exact List.Perm.refl _
  | cons k ks ih => exact (perm_keys_spend h.1).trans ((ih h.2).cons k)

theorem Spends.mem {U U' : List (Coin A V)} {ks : List (A × ℕ)} (h : Spends U ks U')
    {k : A × ℕ} (hk : k ∈ ks) : k ∈ U.map Coin.key :=
  h.perm.symm.subset (List.mem_append_left _ hk)

theorem Spends.eq {U U' : List (Coin A V)} {ks : List (A × ℕ)} (h : Spends U ks U') :
    U' = ks.foldl spend U := by
  induction ks generalizing U with
  | nil => exact (show U = U' from h).symm
  | cons k ks ih => exact ih h.2

/-- Distinct coins that are all there can be spent in order. -/
theorem Spends.exists {U : List (Coin A V)} {ks : List (A × ℕ)} (hn : ks.Nodup)
    (h : ∀ k ∈ ks, k ∈ U.map Coin.key) : ∃ U', Spends U ks U' := by
  induction ks generalizing U with
  | nil => exact ⟨U, rfl⟩
  | cons k ks ih =>
    have hk := h k List.mem_cons_self
    obtain ⟨U', hU'⟩ := @ih (spend U k) (List.nodup_cons.mp hn).2 fun j hj => by
      have hj' := (perm_keys_spend hk).subset (h j (List.mem_cons_of_mem _ hj))
      exact (List.mem_cons.mp hj').resolve_left fun he => (List.nodup_cons.mp hn).1 (he ▸ hj)
    exact ⟨U', hk, hU'⟩

/-- Coins that are not named stay in front while the others are spent. -/
theorem Spends.append_right {F U U' : List (Coin A V)} {ks : List (A × ℕ)} (h : Spends U ks U')
    (hF : ∀ k ∈ ks, k ∉ F.map Coin.key) : Spends (F ++ U) ks (F ++ U') := by
  induction ks generalizing U with
  | nil => rw [show U = U' from h]; rfl
  | cons k ks ih =>
    refine ⟨by rw [List.map_append]; exact List.mem_append_right _ h.1, ?_⟩
    rw [spend_append_right (hF k List.mem_cons_self)]
    exact ih h.2 fun j hj => hF j (List.mem_cons_of_mem _ hj)

/-! ### The coins of a chain -/

namespace Chain

theorem eq_unspent {L : List (Tx A V)} {U : List (Coin A V)} (h : Chain L U) : U = unspent L := by
  induction h with
  | nil => rfl
  | snoc _ hs _ ih => rw [unspent_append, ← ih, hs.eq]

/-- **Spent and unspent together are what was created.** -/
theorem perm {L : List (Tx A V)} {U : List (Coin A V)} (h : Chain L U) :
    (spent L ++ U.map Coin.key).Perm ((created L).map Coin.key) := by
  induction h with
  | nil => exact List.Perm.refl _
  | @snoc L U U' tx _ hs _ ih =>
    rw [spent_append, created_append, List.map_append, List.map_append, List.append_assoc,
      ← List.append_assoc tx.ins, ← List.append_assoc]
    exact ((hs.perm.symm.append_left _).trans ih).append_right _

theorem subset_created {L : List (Tx A V)} {U : List (Coin A V)} (h : Chain L U) :
    U ⊆ created L := by
  induction h with
  | nil => exact List.Subset.refl _
  | snoc _ hs _ ih =>
    rw [created_append]
    exact List.append_subset.mpr
      ⟨List.subset_append_of_subset_left _ (List.Subset.trans hs.subset ih),
        List.subset_append_right _ _⟩

theorem nodup_created {L : List (Tx A V)} {U : List (Coin A V)} (h : Chain L U) :
    ((created L).map Coin.key).Nodup := by
  induction h with
  | nil => exact List.nodup_nil
  | @snoc L U U' tx _ _ ho ih =>
    rw [created_append, List.map_append, keys_create]
    refine List.Nodup.append ih ?_ fun k hk hk' => ?_
    · refine List.Nodup.of_map Prod.fst ?_
      rwa [List.map_map]
    · obtain ⟨c, hc, rfl⟩ := List.mem_map.mp hk
      obtain ⟨o, -, ho⟩ := List.mem_map.mp hk'
      have := (seqNo_le_of_mem_created hc).2
      have hn : L.length + 1 = c.seqNo := congrArg Prod.snd ho
      omega

/-- No coin is spent twice, and none that is spent is unspent. -/
theorem nodup {L : List (Tx A V)} {U : List (Coin A V)} (h : Chain L U) :
    (spent L ++ U.map Coin.key).Nodup := h.perm.nodup_iff.mpr h.nodup_created

theorem nodup_unspent {L : List (Tx A V)} {U : List (Coin A V)} (h : Chain L U) :
    (U.map Coin.key).Nodup := (List.nodup_append.mp h.nodup).2.1

theorem seqNo_le {L : List (Tx A V)} {U : List (Coin A V)} (h : Chain L U) {c : Coin A V}
    (hc : c ∈ U) : 0 < c.seqNo ∧ c.seqNo ≤ L.length :=
  seqNo_le_of_mem_created (h.subset_created hc)

/-- The unspent coins are the outputs that no input names. -/
theorem mem_iff {L : List (Tx A V)} {U : List (Coin A V)} (h : Chain L U) {c : Coin A V} :
    c ∈ U ↔ c ∈ created L ∧ c.key ∉ spent L := by
  constructor
  · intro hc
    exact ⟨h.subset_created hc, fun hs =>
      List.disjoint_of_nodup_append h.nodup hs (List.mem_map_of_mem hc)⟩
  · rintro ⟨hc, hs⟩
    have hk := (List.mem_append.mp (h.perm.symm.subset (List.mem_map_of_mem hc))).resolve_left hs
    obtain ⟨d, hd, hk⟩ := List.mem_map.mp hk
    have := List.inj_on_of_nodup_map h.nodup_created (h.subset_created hd) hc hk
    exact this ▸ hd

/-- A prefix of a chain is a chain. -/
theorem prefix_chain {L L' : List (Tx A V)} {W : List (Coin A V)} (h : Chain L W)
    (hp : L' <+: L) : ∃ U, Chain L' U := by
  induction h with
  | nil => exact ⟨[], List.prefix_nil.mp hp ▸ .nil⟩
  | @snoc L U U' tx h hs ho ih =>
    rcases List.prefix_concat_iff.mp hp with rfl | hp
    · exact ⟨_, .snoc h hs ho⟩
    · exact ih hp

/-- **Every input names a coin of a strictly earlier transaction.** -/
theorem input_created {L L' : List (Tx A V)} {tx : Tx A V} {W : List (Coin A V)} (h : Chain L W)
    (hp : L' ++ [tx] <+: L) {k : A × ℕ} (hk : k ∈ tx.ins) :
    ∃ c ∈ created L', c.key = k := by
  obtain ⟨U, hU⟩ := h.prefix_chain hp
  generalize hL : L' ++ [tx] = M at hU
  cases hU with
  | nil => simp at hL
  | snoc h hs ho =>
    obtain ⟨rfl, hx⟩ := List.append_inj' hL rfl
    obtain rfl := List.singleton_inj.mp hx
    obtain ⟨c, hc, hck⟩ := List.mem_map.mp (hs.mem hk)
    exact ⟨c, h.subset_created hc, hck⟩

end Chain

/-! ### Values -/

section Value
variable {M : Type} [AddCommGroup M] (val : V → M)

/-- The value of the coin of a name, nothing if there is none. -/
def worth (U : List (Coin A V)) (k : A × ℕ) : M := ((U.find? fun c => c.key = k).map (val ·.amount)).getD 0

/-- The value of a list of coins. -/
def total (U : List (Coin A V)) : M := (U.map (val ·.amount)).sum

/-- The value a transaction pays. -/
def Tx.paid (tx : Tx A V) : M := (tx.outs.map (val ·.2)).sum

/-- The value a transaction takes out of the coins it finds. -/
def Tx.taken (tx : Tx A V) (U : List (Coin A V)) : M := (tx.ins.map (worth val U)).sum

variable {val}

theorem worth_of_mem {U : List (Coin A V)} (hU : (U.map Coin.key).Nodup) {c : Coin A V}
    (hc : c ∈ U) : worth val U c.key = val c.amount := by
  unfold worth
  have hf : (U.find? fun d => d.key = c.key).isSome := by
    rw [List.find?_isSome]
    exact ⟨c, hc, by simp⟩
  obtain ⟨d, hd⟩ := Option.isSome_iff_exists.mp hf
  have hk : d.key = c.key := by simpa using List.find?_some hd
  have := List.inj_on_of_nodup_map hU (List.mem_of_find?_eq_some hd) hc hk
  rw [hd, this]
  rfl

omit [DecidableEq A] in
theorem total_create (n : ℕ) (outs : List (A × V)) :
    total val (create n outs) = (outs.map (val ·.2)).sum := by
  simp [total, create, Function.comp_def]

omit [DecidableEq A] in
theorem total_append (U W : List (Coin A V)) : total val (U ++ W) = total val U + total val W := by
  simp [total]

theorem Spends.total {U U' : List (Coin A V)} {ks : List (A × ℕ)} (h : Spends U ks U')
    (hU : (U.map Coin.key).Nodup) :
    total val U' = total val U - (ks.map (worth val U)).sum := by
  induction ks generalizing U with
  | nil => simp [show U = U' from h]
  | cons k ks ih =>
    obtain ⟨c, hc, rfl, hp⟩ := perm_spend h.1
    have hn : ((c :: spend U c.key).map Coin.key).Nodup := (hp.map Coin.key).nodup_iff.mp hU
    have hn' := (List.nodup_cons.mp hn)
    have hworth : ∀ j ∈ ks, worth val (spend U c.key) j = worth val U j := by
      intro j hj
      obtain ⟨d, hd, rfl⟩ := List.mem_map.mp (h.2.mem hj)
      rw [worth_of_mem hn'.2 hd, worth_of_mem hU (spend_subset hd)]
    have htot : Utxo.total val U = val c.amount + Utxo.total val (spend U c.key) := by
      simpa [Utxo.total] using (hp.map (val ·.amount)).sum_eq
    rw [ih h.2 hn'.2, List.map_congr_left hworth, List.map_cons, List.sum_cons,
      worth_of_mem hU hc, htot]
    abel

end Value

end TokenPlugin.Lib.Utxo
