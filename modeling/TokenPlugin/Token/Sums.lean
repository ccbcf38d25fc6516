import TokenPlugin.Token.Updates

/-! # Sums over the stores

`sum_inputs` on a cache that holds a list of coins, and the total of all amounts a cache lists. -/

namespace TokenPlugin.Token.Sums

open Python Token.Types Token.UtxoCache Token.TokenUtils Token.Amounts Token.Views Token.Coins
open Lib.Text Lib.Utxo Lib.Program

/-! ### What a cache lists -/

/-- The pairs that the text of an address lists. -/
def outputsOf (m : Str → Option Str) (a : Str) : List (Str × Str) :=
  unflat (fields ':' ((m a).getD []))

/-- The number a text of an amount stands for; an amount `True` counts 1. -/
def amountOfText (s : Str) : ℤ := if s = (PyInt.bool true).str then 1 else (readInt s).getD 0

/-- The sum of all amounts that a cache lists. -/
noncomputable def total (m : Str → Option Str) : ℤ :=
  ∑ᶠ a, ((outputsOf m a).map (amountOfText ·.2)).sum

theorem amountOfText_str (v : PyInt) : amountOfText v.str = v.val := by
  unfold amountOfText
  rcases v with z | (_ | _)
  · have hne : (PyInt.int z).str ≠ (PyInt.bool true).str := fun h => by
      have := PyInt.str_injective h
      cases this
    rw [if_neg hne]
    simp [readInt_intText]
  · rfl
  · rfl

theorem outputsOf_holds {m : Str → Option Str} {U : List Coin} (h : HoldsCache m U) (a : Str) :
    outputsOf m a = (held U a).map textPair := by
  rw [outputsOf, h a, textOf, fields_render (clean_held U a), unflat_flat]

/-- A coin is listed exactly when it is held. -/
theorem mem_outputsOf {m : Str → Option Str} {U : List Coin} (h : HoldsCache m U) {a s t : Str} :
    (s, t) ∈ outputsOf m a ↔ ∃ c ∈ U, c.addr = a ∧ intText c.seqNo = s ∧ c.amount.str = t := by
  rw [outputsOf_holds h]
  simp only [held, List.map_map, List.mem_map, List.mem_filter, decide_eq_true_eq,
    Function.comp, textPair, Prod.mk.injEq, and_assoc]

theorem sum_held {U : List Coin} {s : Finset Str} (hs : ∀ c ∈ U, c.addr ∈ s) :
    ∑ a ∈ s, ((held U a).map (·.2.val)).sum = Lib.Utxo.total PyInt.val U := by
  induction U with
  | nil => simp [held, Lib.Utxo.total]
  | cons c U ih =>
    have hstep : ∀ a, ((held (c :: U) a).map (·.2.val)).sum =
        (if c.addr = a then c.amount.val else 0) + ((held U a).map (·.2.val)).sum := by
      intro a
      by_cases ha : c.addr = a
      · subst ha; simp [held_cons_self]
      · simp [held_cons_of_ne ha, ha]
    simp only [hstep]
    rw [Finset.sum_add_distrib, ih fun d hd => hs d (List.mem_cons_of_mem _ hd), Finset.sum_ite_eq,
      if_pos (hs c List.mem_cons_self)]
    rfl

/-- **The total of a cache is the total of the coins it holds.** -/
theorem total_holds {m : Str → Option Str} {U : List Coin} (h : HoldsCache m U) :
    total m = Lib.Utxo.total PyInt.val U := by
  have hsum : ∀ a, ((outputsOf m a).map (amountOfText ·.2)).sum =
      ((held U a).map (·.2.val)).sum := by
    intro a
    rw [outputsOf_holds h, List.map_map]
    congr 1
    exact List.map_congr_left fun p _ => amountOfText_str p.2
  unfold total
  simp only [hsum]
  rw [finsum_eq_sum_of_support_subset _ (s := (U.map Coin.addr).toFinset), sum_held]
  · intro c hc
    exact List.mem_toFinset.mpr (List.mem_map_of_mem hc)
  · intro a ha
    by_contra hn
    have hnil : held U a = [] := by
      rw [held, List.map_eq_nil_iff, List.filter_eq_nil_iff]
      intro c hc hca
      rw [decide_eq_true_eq] at hca
      exact hn (by simpa using ⟨c, hc, hca⟩)
    rw [Function.mem_support, hnil] at ha
    exact ha rfl

/-! ### Sums of inputs -/

theorem valueAt_held (W : List Coin) (a : Str) (n : ℕ) :
    valueAt (held W a) n = worth PyInt.val W (a, n) := by
  induction W with
  | nil => rfl
  | cons c W ih =>
    by_cases ha : c.addr = a
    · subst ha
      rw [held_cons_self]
      by_cases hn : c.seqNo = n
      · subst hn
        rw [valueAt_cons_self]
        simp [worth, Coin.key]
      · rw [valueAt_cons_of_ne fun h => hn (Int.ofNat_inj.mp h), ih]
        simp [worth, Coin.key, hn]
    · rw [held_cons_of_ne ha, ih]
      simp [worth, Coin.key, ha]

theorem mem_held {W : List Coin} {a : Str} {z : ℤ} :
    z ∈ (held W a).map Prod.fst ↔ ∃ n : ℕ, z = n ∧ (a, n) ∈ W.map Coin.key := by
  simp only [held, List.map_map, List.mem_map, List.mem_filter, decide_eq_true_eq,
    Function.comp, Coin.key, Prod.mk.injEq]
  constructor
  · rintro ⟨c, ⟨hc, ha⟩, rfl⟩; exact ⟨c.seqNo, rfl, c, hc, ha, rfl⟩
  · rintro ⟨n, rfl, c, hc, ha, rfl⟩; exact ⟨c, ⟨hc, ha⟩, rfl⟩

/-- A number is in the set of an address. -/
def InGroups (groups : List (Str × List PyInt)) (a : Str) (z : ℤ) : Prop :=
  ∃ g ∈ groups, g.1 = a ∧ z ∈ g.2.map PyInt.val

/-- A sum over all numbers of all sets. -/
def groupsSum (f : Str → ℤ → ℤ) (groups : List (Str × List PyInt)) : ℤ :=
  (groups.map fun g => (g.2.map fun s => f g.1 s.val).sum).sum

theorem inGroups_addSeqNo {a b : Str} {s : PyInt} {z : ℤ} {groups : List (Str × List PyInt)} :
    InGroups (addSeqNo a s groups) b z ↔ (b = a ∧ z = s.val) ∨ InGroups groups b z := by
  induction groups with
  | nil => simp [InGroups, addSeqNo, eq_comm]
  | cons g groups ih =>
    obtain ⟨a', S⟩ := g
    by_cases ha : a' = a
    · subst ha
      by_cases hs : s.val ∈ S.map PyInt.val
      · simp only [addSeqNo, if_true, hs, InGroups, List.mem_cons, exists_eq_or_imp]
        constructor
        · exact Or.inr
        · rintro (⟨rfl, rfl⟩ | h)
          · exact Or.inl ⟨rfl, hs⟩
          · exact h
      · simp only [addSeqNo, if_true, hs, if_false, InGroups, List.mem_cons, exists_eq_or_imp,
          List.map_append, List.mem_append, List.map_cons, List.map_nil, List.not_mem_nil, or_false]
        tauto
    · have hgo : addSeqNo a s ((a', S) :: groups) = (a', S) :: addSeqNo a s groups := by
        simp [addSeqNo, ha]
      have hcons : ∀ gs, InGroups ((a', S) :: gs) b z ↔
          (a' = b ∧ z ∈ S.map PyInt.val) ∨ InGroups gs b z := fun gs => by
        simp [InGroups]
      rw [hgo, hcons, hcons, ih]
      tauto

theorem groupsSum_addSeqNo (f : Str → ℤ → ℤ) {a : Str} {s : PyInt}
    {groups : List (Str × List PyInt)} (h : ¬InGroups groups a s.val) :
    groupsSum f (addSeqNo a s groups) = groupsSum f groups + f a s.val := by
  induction groups with
  | nil => simp [groupsSum, addSeqNo]
  | cons g groups ih =>
    obtain ⟨a', S⟩ := g
    by_cases ha : a' = a
    · subst ha
      have hs : s.val ∉ S.map PyInt.val := fun hs => h ⟨_, List.mem_cons_self, rfl, hs⟩
      simp only [addSeqNo, if_true, hs, if_false, groupsSum, List.map_cons, List.sum_cons,
        List.map_append, List.sum_append, List.map_nil, List.sum_nil]
      omega
    · have hrec := ih fun ⟨g, hg, hrest⟩ => h ⟨g, List.mem_cons_of_mem _ hg, hrest⟩
      simp only [addSeqNo, ha, if_false, groupsSum, List.map_cons, List.sum_cons] at hrec ⊢
      rw [hrec]
      omega

/-- A set of numbers that is not empty. -/
def IsSet (seqNos : List PyInt) : Prop := seqNos ≠ [] ∧ (seqNos.map PyInt.val).Nodup

theorem isSet_addSeqNo {a : Str} {s : PyInt} {groups : List (Str × List PyInt)}
    (h : ∀ g ∈ groups, IsSet g.2) : ∀ g ∈ addSeqNo a s groups, IsSet g.2 := by
  induction groups with
  | nil =>
    intro g hg
    obtain rfl := List.mem_singleton.mp hg
    simp [IsSet]
  | cons g' groups ih =>
    obtain ⟨a', S⟩ := g'
    have hS := h _ List.mem_cons_self
    have hrest : ∀ g ∈ groups, IsSet g.2 := fun g hg => h g (List.mem_cons_of_mem _ hg)
    intro g hg
    unfold addSeqNo at hg
    split_ifs at hg with ha hs
    · exact (List.mem_cons.mp hg).elim (fun he => he ▸ hS) (hrest g)
    · rcases List.mem_cons.mp hg with rfl | hg
      · refine ⟨by simp, ?_⟩
        rw [List.map_append, List.nodup_append]
        refine ⟨hS.2, by simp, ?_⟩
        rintro x hx _ hy rfl
        exact hs (List.mem_singleton.mp hy ▸ hx)
      · exact hrest g hg
    · exact (List.mem_cons.mp hg).elim (fun he => he ▸ hS) (ih hrest g)

theorem map_fst_addSeqNo {a : Str} {s : PyInt} {groups : List (Str × List PyInt)} :
    (addSeqNo a s groups).map Prod.fst =
      if a ∈ groups.map Prod.fst then groups.map Prod.fst else groups.map Prod.fst ++ [a] := by
  induction groups with
  | nil => rfl
  | cons g groups ih =>
    obtain ⟨a', S⟩ := g
    by_cases ha : a' = a
    · simp [addSeqNo, ha]
    · simp only [addSeqNo, ha, if_false, List.map_cons, ih, List.mem_cons, Ne.symm ha, false_or]
      split_ifs <;> rfl

/-- A number that is in the set of its address is not added again. -/
theorem addSeqNo_of_inGroups {a : Str} {s : PyInt} {groups : List (Str × List PyInt)}
    (hk : (groups.map Prod.fst).Nodup) (h : InGroups groups a s.val) : addSeqNo a s groups = groups := by
  induction groups with
  | nil => obtain ⟨g, hg, -⟩ := h; cases hg
  | cons g groups ih =>
    obtain ⟨a', S⟩ := g
    obtain ⟨hnot, hk⟩ := List.nodup_cons.mp hk
    obtain ⟨g, hg, ha, hs⟩ := h
    rcases List.mem_cons.mp hg with rfl | hg
    · obtain rfl : a' = a := ha
      simp only [addSeqNo, if_true, show s.val ∈ S.map PyInt.val from hs]
    · have hne : a' ≠ a := fun he => hnot (List.mem_map.mpr ⟨g, hg, ha.trans he.symm⟩)
      simp only [addSeqNo, hne, if_false, ih hk ⟨g, hg, ha, hs⟩]

/-- Grouping gives one set of numbers for each address, and keeps every sum over the pairs asked for. -/
theorem groupInputs_distinct (f : Str → ℤ → ℤ) (ins : List Input) :
    ((groupInputs ins).map Prod.fst).Nodup ∧ (∀ g ∈ groupInputs ins, IsSet g.2) ∧
      (∀ a z, InGroups (groupInputs ins) a z ↔ ∃ i ∈ ins, i.address = a ∧ i.seqNo.val = z) ∧
      groupsSum f (groupInputs ins) =
        ∑ k ∈ (ins.map fun i => (i.address, i.seqNo.val)).toFinset, f k.1 k.2 := by
  induction ins using List.reverseRecOn with
  | nil => simp [groupInputs, InGroups, groupsSum]
  | append_singleton ins i ih =>
    obtain ⟨hk, hset, hin, hsum⟩ := ih
    have hgroup : groupInputs (ins ++ [i]) = addSeqNo i.address i.seqNo (groupInputs ins) := by
      simp [groupInputs]
    have hmem : (i.address, i.seqNo.val) ∈ (ins.map fun i => (i.address, i.seqNo.val)).toFinset ↔
        InGroups (groupInputs ins) i.address i.seqNo.val := by
      rw [hin]
      simp
    have hfin : ((ins ++ [i]).map fun i => (i.address, i.seqNo.val)).toFinset =
        insert (i.address, i.seqNo.val) (ins.map fun i => (i.address, i.seqNo.val)).toFinset := by
      ext k
      simp [eq_comm]
    rw [hgroup, hfin]
    refine ⟨?_, isSet_addSeqNo hset, fun a z => ?_, ?_⟩
    · rw [map_fst_addSeqNo]
      split_ifs with ha
      · exact hk
      · rw [List.nodup_append_comm]
        exact List.nodup_cons.mpr ⟨ha, hk⟩
    · rw [inGroups_addSeqNo, hin]
      simp only [List.mem_append, List.mem_singleton]
      constructor
      · rintro (⟨rfl, rfl⟩ | ⟨j, hj, h⟩)
        · exact ⟨i, Or.inr rfl, rfl, rfl⟩
        · exact ⟨j, Or.inl hj, h⟩
      · rintro ⟨j, hj | rfl, rfl, rfl⟩
        · exact Or.inr ⟨j, hj, rfl, rfl⟩
        · exact Or.inl ⟨rfl, rfl⟩
    · by_cases hi : InGroups (groupInputs ins) i.address i.seqNo.val
      · rw [addSeqNo_of_inGroups hk hi, Finset.insert_eq_of_mem (hmem.mpr hi), hsum]
      · rw [groupsSum_addSeqNo f hi, Finset.sum_insert (mt hmem.mp hi), hsum, add_comm]

section AnyStores
variable {S : Type} [TokenStores S] {s s' : S} {c : Bool}

/-- The amount that the cache lists for an output. -/
def amountOf (s : S) (c : Bool) (a : Str) (z : ℤ) : Option ℤ :=
  amountIn (TokenStores.cacheGet s a c) z

/-- What one address contributes. -/
theorem sumAmounts_of_amountsOf {a : Str} {d : Option Str} {seqNos : List PyInt} {t : ℤ}
    (h : IsSet seqNos) :
    (∃ u, amountsOf a false d = .ok u ∧ u.sumAmounts seqNos = .ok t) ↔
      (∀ s ∈ seqNos, (amountIn d s.val).isSome) ∧
        t = (seqNos.map fun s => (amountIn d s.val).getD 0).sum := by
  have hno : (∀ z, amountIn d z = none) → ¬((∀ s ∈ seqNos, (amountIn d s.val).isSome) ∧
      t = (seqNos.map fun s => (amountIn d s.val).getD 0).sum) := by
    intro hn hall
    obtain ⟨s, hs⟩ := List.exists_mem_of_ne_nil _ h.1
    simpa [hn] using hall.1 s hs
  cases d with
  | none => exact iff_of_false (by rintro ⟨u, hu, -⟩; cases hu) (hno fun _ => rfl)
  | some data =>
    show (∃ u, UTXOAmounts.init a (some data) = .ok u ∧ u.sumAmounts seqNos = .ok t) ↔ _
    rcases init_eq a (some data) with ⟨l, hl, hz⟩ | ⟨⟨e, he⟩, hz⟩
    · simp only [hl, hz, Except.ok.injEq, exists_eq_left']
      exact sumAmounts_flat h.2 h.1
    · rw [he]
      exact iff_of_false (by rintro ⟨u, hu, -⟩; cases hu) (hno hz)

theorem returns_sumGroups {groups : List (Str × List PyInt)} {t t' : ℤ}
    (hg : ∀ g ∈ groups, IsSet g.2) : Returns (sumGroups c groups t) s t' s' ↔
      s' = s ∧ (∀ a z, InGroups groups a z → (amountOf s c a z).isSome) ∧
        t' = t + groupsSum (fun a z => (amountOf s c a z).getD 0) groups := by
  induction groups generalizing t with
  | nil =>
    have hno : ∀ a z, ¬InGroups ([] : List (Str × List PyInt)) a z := by simp [InGroups]
    simp only [sumGroups, returns_pure, groupsSum, List.map_nil, List.sum_nil, add_zero]
    exact ⟨fun h => ⟨h.2.symm, fun a z h => absurd h (hno a z), h.1.symm⟩,
      fun h => ⟨h.2.2.symm, h.1.symm⟩⟩
  | cons g groups ih =>
    obtain ⟨a, S⟩ := g
    have hgs := fun g hgm => hg g (List.mem_cons_of_mem _ hgm)
    have hone := fun t₀ => sumAmounts_of_amountsOf (a := a) (d := TokenStores.cacheGet s a c)
      (t := t₀) (hg _ List.mem_cons_self)
    have hin : (∀ b z, InGroups ((a, S) :: groups) b z → (amountOf s c b z).isSome) ↔
        (∀ x ∈ S, (amountOf s c a x.val).isSome) ∧
          ∀ b z, InGroups groups b z → (amountOf s c b z).isSome := by
      simp only [InGroups, List.mem_cons, exists_eq_or_imp]
      constructor
      · intro h
        exact ⟨fun x hx => h a x.val (Or.inl ⟨rfl, List.mem_map_of_mem hx⟩),
          fun b z hb => h b z (Or.inr hb)⟩
      · rintro ⟨h, h'⟩ b z (⟨rfl, hz⟩ | hb)
        · obtain ⟨x, hx, rfl⟩ := List.mem_map.mp hz
          exact h x hx
        · exact h' b z hb
    have hsum : groupsSum (fun a z => (amountOf s c a z).getD 0) ((a, S) :: groups) =
        (S.map fun x => (amountOf s c a x.val).getD 0).sum +
          groupsSum (fun a z => (amountOf s c a z).getD 0) groups := by
      simp [groupsSum]
    rw [hin, hsum]
    unfold sumGroups getAmounts
    simp only [returns_bind, returns_get, returns_ofExcept]
    constructor
    · rintro ⟨u, _, ⟨_, _, ⟨rfl, rfl⟩, hu, rfl⟩, t₀, _, ⟨ht, rfl⟩, hr⟩
      obtain ⟨hall, rfl⟩ := (hone t₀).mp ⟨u, hu, ht⟩
      obtain ⟨rfl, hrest, rfl⟩ := (ih hgs).mp hr
      exact ⟨rfl, ⟨hall, hrest⟩, by simp [amountOf, add_assoc]⟩
    · rintro ⟨rfl, ⟨hall, hrest⟩, rfl⟩
      obtain ⟨u, hu, ht⟩ := (hone _).mpr ⟨hall, rfl⟩
      exact ⟨u, _, ⟨_, _, ⟨rfl, rfl⟩, hu, rfl⟩, _, _, ⟨ht, rfl⟩,
        (ih hgs).mpr ⟨rfl, hrest, by simp [amountOf, add_assoc]⟩⟩

/-- **The sum over inputs.** It is returned exactly when the cache lists an amount for every input,
and then it is the sum over the different inputs. -/
theorem returns_sumInputs_distinct {ins : List Input} {t : ℤ} :
    Returns (sumInputs ins c) s t s' ↔ s' = s ∧
      (∀ i ∈ ins, (amountOf s c i.address i.seqNo.val).isSome) ∧
        t = ∑ k ∈ (ins.map fun i => (i.address, i.seqNo.val)).toFinset,
          (amountOf s c k.1 k.2).getD 0 := by
  obtain ⟨-, hg, hin, hsum⟩ := groupInputs_distinct (fun a z => (amountOf s c a z).getD 0) ins
  unfold sumInputs
  rw [returns_sumGroups hg, hsum, zero_add]
  refine and_congr_right fun _ => and_congr_left fun _ => ?_
  simp only [hin]
  constructor
  · exact fun h i hi => h _ _ ⟨i, hi, rfl, rfl⟩
  · rintro h _ _ ⟨i, hi, rfl, rfl⟩
    exact h i hi

/-- The sum over inputs that are pairwise different. -/
theorem returns_sumInputs_iff {ins : List Input} {t : ℤ}
    (hn : (ins.map fun i => (i.address, i.seqNo.val)).Nodup) :
    Returns (sumInputs ins c) s t s' ↔ s' = s ∧
      (∀ i ∈ ins, (amountOf s c i.address i.seqNo.val).isSome) ∧
        t = (ins.map fun i => (amountOf s c i.address i.seqNo.val).getD 0).sum := by
  rw [returns_sumInputs_distinct, List.sum_toFinset _ hn, List.map_map]
  rfl

end AnyStores

/-! ### Sums over coins -/

variable {v v' : View} {W : List Coin} {c : Bool}

/-- An output that a cache of coins lists with an amount is one of the coins. -/
theorem amountOf_holds (h : HoldsCache v.cache W) {a : Str} {z x : ℤ}
    (hx : amountOf v c a z = some x) : ∃ n : ℕ, z = n ∧ (a, n) ∈ W.map Coin.key ∧
      x = worth PyInt.val W (a, n) := by
  have hat : amountAt ((held W a).map textPair) z = some x := by
    have ha := h a
    unfold amountOf at hx
    change amountIn (v.cache a) z = some x at hx
    cases hm : v.cache a with
    | some data =>
      rw [hm] at ha hx
      obtain rfl : data = textOf W a := ha
      rwa [textOf, amountIn_render (clean_held W a)] at hx
    | none =>
      rw [hm] at hx
      cases hx
  obtain ⟨hv, hz⟩ := amountAt_textPair_eq_some hat
  obtain ⟨n, rfl, hk⟩ := mem_held.mp hz
  exact ⟨n, rfl, hk, by rw [← hv, valueAt_held]⟩

/-- A coin with an integer amount is listed with it. -/
theorem amountOf_coin (h : HoldsCache v.cache W) (hn : (W.map Coin.key).Nodup) {d : Coin} (hd : d ∈ W)
    (hb : d.amount.isBool = false) : amountOf v c d.addr d.seqNo = some d.amount.val := by
  have hmem : ((d.seqNo : ℤ), d.amount) ∈ held W d.addr :=
    List.mem_map.mpr ⟨d, List.mem_filter.mpr ⟨hd, by simp⟩, rfl⟩
  have hread : readInt d.amount.str = some d.amount.val :=
    PyInt.readInt_str_eq_some.mpr (PyInt.isBool_eq_false.mp hb)
  have hat : amountAt ((held W d.addr).map textPair) d.seqNo = some d.amount.val := by
    rw [amountAt_textPair]
    have hfind : ((held W d.addr).find? (·.1 = (d.seqNo : ℤ))).isSome :=
      List.find?_isSome.mpr ⟨_, hmem, by simp⟩
    obtain ⟨p, hp⟩ := Option.isSome_iff_exists.mp hfind
    obtain ⟨e, he, rfl⟩ := List.mem_map.mp (List.mem_of_find?_eq_some hp)
    obtain ⟨he, ha⟩ := List.mem_filter.mp he
    have hseq : e.seqNo = d.seqNo := by simpa using List.find?_some hp
    obtain rfl : e = d := List.inj_on_of_nodup_map hn he hd
      (Prod.ext (of_decide_eq_true ha) hseq)
    rw [hp]
    exact hread
  have ha := h d.addr
  show amountIn (v.cache d.addr) d.seqNo = _
  cases hm : v.cache d.addr with
  | some data =>
    rw [hm] at ha
    obtain rfl : data = textOf W d.addr := ha
    rw [textOf, amountIn_render (clean_held W _), hat]
  | none =>
    rw [hm] at ha
    have hnil := List.map_eq_nil_iff.mp (render_eq_nil.mp ha.symm)
    rw [hnil] at hmem
    cases hmem

/-- **The sum over inputs.** When it is returned, every input names a coin, and the sum is that of
their amounts. -/
theorem returns_sumInputs (h : HoldsCache v.cache W) {ins : List Input} {t : ℤ}
    (hn : (ins.map fun i => (i.address, i.seqNo.val)).Nodup)
    (hr : Returns (sumInputs ins c) v t v') :
    v' = v ∧ t = ((ins.map inputName).map (worth PyInt.val W)).sum ∧
      ∀ i ∈ ins, inputName i ∈ W.map Coin.key ∧ i.seqNo.val = (inputName i).2 := by
  obtain ⟨rfl, hall, rfl⟩ := (returns_sumInputs_iff hn).mp hr
  have hname : ∀ i ∈ ins, (amountOf v' c i.address i.seqNo.val).getD 0 =
      worth PyInt.val W (inputName i) ∧ inputName i ∈ W.map Coin.key ∧
        i.seqNo.val = (inputName i).2 := by
    intro i hi
    obtain ⟨x, hx⟩ := Option.isSome_iff_exists.mp (hall i hi)
    obtain ⟨n, hz, hk, rfl⟩ := amountOf_holds h hx
    have he : inputName i = (i.address, n) := by simp [inputName, hz]
    rw [hx, he]
    exact ⟨rfl, hk, hz⟩
  refine ⟨rfl, ?_, fun i hi => (hname i hi).2⟩
  rw [List.map_map]
  exact congrArg List.sum (List.map_congr_left fun i hi => (hname i hi).1)

end TokenPlugin.Token.Sums
