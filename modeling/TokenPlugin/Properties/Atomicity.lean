import Mathlib.Data.Finmap
import TokenPlugin.Reference
import TokenPlugin.Token.FailedUpdates

/-! # What a failed update leaves behind

An update that raises does not take back what it has written. It raises at the first input that the cache
does not list any more, after it has written the key of that input and all that belongs to the inputs
before it; or, when all inputs are spent, at an output to an address whose text cannot be read. So a
failed update changes nothing only where all it has written was there before. -/

namespace TokenPlugin.Properties.Atomicity

open Python Token.Types Token.UtxoCache Token.TokenUtils Token.Handlers Token.Views Token.Pairs
open Token.Updates Token.FailedUpdates Platform Database Lib.Text Lib.Program Lib.LastWrite Reference

/-! ### The property -/

/-- The root of a trie is determined by what the trie holds. -/
def Canonical (p : PruningState) : Prop :=
  ∀ s s', p.lookup (p.headHash s) = p.lookup (p.headHash s') → p.headHash s = p.headHash s'

variable {P : Platform} {u : Updater} {txn : TokenTxn} {c r : Bool}

/-- The head of the state and all reads of the cache are the same. -/
structure Unchanged (s s' : Stores P) : Prop where
  head : P.state.headHash s'.tokenState = P.state.headHash s.tokenState
  reads : ∀ a c, TokenStores.cacheGet s' a c = TokenStores.cacheGet s a c

/-- **A failed update changes nothing.** -/
def ChangesNothing (u : Updater) (txn : TokenTxn) (c : Bool) (s : Stores P) : Prop :=
  ∀ s', Raises (update u txn c) s s' → Unchanged s s'

/-! ### The condition -/

/-- Nothing fails: all inputs are listed, and the text of every output's address can be read. -/
def Applicable (v : View) (txn : TokenTxn) : Prop :=
  Covered v.cache txn.inputs ∧ ∀ o ∈ txn.outputs, (pairsAt v.cache o.address).isSome

/-- The first input is not listed, and the value under its key is already what spending makes of it. -/
def StopsAtOnce (r : Bool) (v : View) (ins : List Input) : Prop :=
  ∃ i ∈ ins.head?, (¬∃ l, Listed v.cache i.address i.seqNo l) ∧
    v.state (createStateKey i.address i.seqNo) = blank r

/-- All inputs are listed, but the text of the address of an output cannot be read; and all that is
written up to that output was there before. -/
def StopsInPlace (r : Bool) (v : View) (txn : TokenTxn) : Prop :=
  Covered v.cache txn.inputs ∧ ∃ before o after, txn.outputs = before ++ o :: after ∧
    (∀ p ∈ before, (pairsAt v.cache p.address).isSome) ∧ pairsAt v.cache o.address = none ∧
    (∀ k x, lastValue k (blankings r txn.inputs ++ payings txn.seqNo (before ++ [o])) = some x →
      v.state k = x) ∧
    ∀ a l, pairsAt v.cache a = some l → taken txn.inputs a l ++ paid txn.seqNo before a = l

/-! ### On views -/

section View
variable {v v' w : View}

/-- A failed run changes nothing, when it has left nothing changed where it ended. -/
theorem forall_raises_iff {x : Py View Unit} (h : Raises x v v') :
    (∀ t, Raises x v t → t = v) ↔ v' = v :=
  ⟨fun hall => hall v' h, fun he _ ht => (ht.unique h).trans he⟩

/-- An input that is not the first one raises: the text of the first one's address is shorter. -/
theorem ne_of_raises_later {i : Input} {ins : List Input} {k : Str} {x : Option Str}
    (h : Returns (spendInputs (i :: ins) c r) v () w) : (⟨Function.update w.state k x, w.cache⟩ : View) ≠ v := by
  intro he
  obtain ⟨l, hl, -⟩ := covered_cons.mp (exists_spendInputs_iff.mp ⟨w, h⟩)
  have hcache : w.cache = v.cache := (View.ext_iff.mp he).2
  have hpairs := (after_spendInputs h).pairs i.address
  rw [hcache, hl.1, Option.map_some, taken_cons, if_pos rfl,
    Option.some.injEq] at hpairs
  have hle := length_taken_le ins i.address (without i.seqNo l)
  rw [← hpairs] at hle
  have hlt := length_without hl.2
  omega

/-- **A run that raises at an input.** -/
theorem stopsAtOnce_iff (h : Raises (spendInputs txn.inputs c r) v v') :
    v' = v ↔ StopsAtOnce r v txn.inputs := by
  obtain ⟨before, i, after, w, hins, hw, hi⟩ := raises_forM.mp h
  obtain ⟨hmiss, rfl⟩ := raises_spendInput.mp hi
  unfold StopsAtOnce
  rw [hins]
  cases before with
  | nil =>
    obtain rfl := returns_forM_nil.mp hw
    have hself : (⟨Function.update v.state (createStateKey i.address i.seqNo) (blank r), v.cache⟩ : View) = v ↔
        v.state (createStateKey i.address i.seqNo) = blank r := by
      rw [View.ext_iff, Function.update_eq_self_iff]
      exact ⟨fun h => h.1.symm, fun h => ⟨h.symm, rfl⟩⟩
    rw [hself]
    constructor
    · exact fun hblank => ⟨i, rfl, hmiss, hblank⟩
    · rintro ⟨i', hi', -, hblank⟩
      obtain rfl : i = i' := by simpa using hi'
      exact hblank
  | cons j before =>
    obtain ⟨l, hl, -⟩ := covered_cons.mp (exists_spendInputs_iff.mp ⟨w, hw⟩)
    refine iff_of_false (ne_of_raises_later hw) ?_
    rintro ⟨j', hj', hno, -⟩
    obtain rfl : j = j' := by simpa using hj'
    exact hno ⟨l, hl⟩

/-- The first entry without a property, and what is before it, are determined. -/
theorem first_unique {α : Type} {p : α → Prop} {xs xs' ys ys' : List α} {x x' : α}
    (h : xs ++ x :: ys = xs' ++ x' :: ys') (hxs : ∀ y ∈ xs, p y) (hx : ¬p x) (hxs' : ∀ y ∈ xs', p y)
    (hx' : ¬p x') : xs = xs' ∧ x = x' := by
  induction xs generalizing xs' with
  | nil =>
    cases xs' with
    | nil => exact ⟨rfl, (List.cons.inj h).1⟩
    | cons y xs' => exact absurd (hxs' x ((List.cons.inj h).1 ▸ List.mem_cons_self)) hx
  | cons z xs ih =>
    obtain ⟨hz, hxs⟩ := List.forall_mem_cons.mp hxs
    cases xs' with
    | nil => exact absurd ((List.cons.inj h).1 ▸ hz) hx'
    | cons y xs' =>
      obtain ⟨rfl, hrest⟩ := List.cons.inj h
      obtain ⟨rfl, hxx⟩ := ih hrest hxs (List.forall_mem_cons.mp hxs').2
      exact ⟨rfl, hxx⟩

/-- **A run that raises at an output.** -/
theorem stopsInPlace_iff (hw : Returns (spendInputs txn.inputs c r) v () w)
    (h : Raises (addNewOutputs txn.outputs txn.seqNo c) w v') : v' = v ↔ StopsInPlace r v txn := by
  obtain ⟨before, o, after, z, houts, hz, ho⟩ := raises_forM.mp h
  obtain ⟨hbad, rfl⟩ := raises_addNewOutput.mp ho
  have hcov : Covered v.cache txn.inputs := exists_spendInputs_iff.mp ⟨w, hw⟩
  have hspent := after_spendInputs hw
  have hadded := hspent.trans (after_addNewOutputs hz)
  have hreads : ∀ p ∈ before, (pairsAt v.cache p.address).isSome := fun p hp => by
    have := exists_addNewOutputs_iff.mp ⟨z, hz⟩ p hp
    rwa [hspent.pairs, Option.isSome_map] at this
  have hbad' : pairsAt v.cache o.address = none := by
    rwa [hadded.pairs, Option.map_eq_none_iff] at hbad
  have hne : ∀ a ∈ txn.inputs.map Input.address ++ before.map OutputSpec.address, ∃ l,
      pairsAt v.cache a = some l ∧ (taken txn.inputs a l ++ paid txn.seqNo before a = l → l ≠ []) := by
    intro a ha
    rcases List.mem_append.mp ha with ha | ha
    · obtain ⟨i, hi, rfl⟩ := List.mem_map.mp ha
      obtain ⟨l, hl, hcount⟩ := hcov i hi
      refine ⟨l, hl, fun _ hnil => ?_⟩
      have hpos : 0 < txn.inputs.count i := List.count_pos_iff.mpr hi
      rw [hnil, List.map_nil, List.count_nil] at hcount
      omega
    · obtain ⟨p, hp, rfl⟩ := List.mem_map.mp ha
      obtain ⟨l, hl⟩ := Option.isSome_iff_exists.mp (hreads p hp)
      refine ⟨l, hl, fun hsame hnil => ?_⟩
      have hpaid : paid txn.seqNo before p.address ≠ [] := fun he => by
        rw [paid, List.map_eq_nil_iff, List.filter_eq_nil_iff] at he
        exact he p hp (by simp)
      rw [hnil] at hsame
      exact hpaid (List.append_eq_nil_iff.mp hsame).2
  have hwrites : blankings r txn.inputs ++ payings txn.seqNo before ++
      [(createStateKey o.address (.int txn.seqNo), some o.amount.str)] =
      blankings r txn.inputs ++ payings txn.seqNo (before ++ [o]) := by
    simp [payings]
  have heq := (hadded.write (createStateKey o.address (.int txn.seqNo)) (some o.amount.str)).eq_iff hne
  rw [hwrites] at heq
  rw [heq]
  constructor
  · rintro ⟨hstate, hcache⟩
    exact ⟨hcov, before, o, after, houts, hreads, hbad', hstate, hcache⟩
  · rintro ⟨-, before', o', after', houts', hreads', hbad'', hstate, hcache⟩
    obtain ⟨rfl, rfl⟩ := first_unique (houts.symm.trans houts') hreads (by simp [hbad']) hreads'
      (by simp [hbad''])
    exact ⟨hstate, hcache⟩

/-- **When a failed update changes nothing**, on views. -/
theorem view_iff (hu : u ≠ .mint) : (∀ t, Raises (update u txn c) v t → t = v) ↔
    Applicable v txn ∨ StopsAtOnce u.removeSpent v txn.inputs ∨ StopsInPlace u.removeSpent v txn := by
  by_cases hcov : Covered v.cache txn.inputs
  · obtain ⟨w, hw⟩ := (exists_spendInputs_iff (c := c) (r := u.removeSpent)).mpr hcov
    have hnot : ∀ t, ¬Raises (spendInputs txn.inputs c u.removeSpent) v t := fun t ht =>
      not_raises_iff.mpr ⟨(), w, hw⟩ ⟨t, ht⟩
    have honce : ¬StopsAtOnce u.removeSpent v txn.inputs := by
      rintro ⟨i, hi, hmiss, -⟩
      obtain ⟨ins, hins⟩ : ∃ ins, txn.inputs = i :: ins := ⟨_, List.eq_cons_of_mem_head? hi⟩
      rw [hins] at hcov
      obtain ⟨l, hl, -⟩ := covered_cons.mp hcov
      exact hmiss ⟨l, hl⟩
    have hupd : ∀ t, Raises (update u txn c) v t ↔ Raises (addNewOutputs txn.outputs txn.seqNo c) w t := by
      intro t
      rw [raises_update hu]
      constructor
      · rintro (h | ⟨w', hw', h⟩)
        · exact absurd h (hnot t)
        · rwa [(hw.unique hw').2]
      · exact fun h => .inr ⟨w, hw, h⟩
    have hpairs : ∀ a, (pairsAt w.cache a).isSome = (pairsAt v.cache a).isSome := fun a => by
      rw [(after_spendInputs hw).pairs, Option.isSome_map]
    by_cases hout : ∃ t, Raises (addNewOutputs txn.outputs txn.seqNo c) w t
    · obtain ⟨t, ht⟩ := hout
      have happ : ¬Applicable v txn := fun ⟨_, h⟩ => by
        obtain ⟨z, hz⟩ := (exists_addNewOutputs_iff (c := c) (n := txn.seqNo) (v := w)).mpr
          fun o ho => (hpairs o.address).symm ▸ h o ho
        exact not_raises_iff.mpr ⟨(), z, hz⟩ ⟨t, ht⟩
      rw [forall_raises_iff ((hupd t).mpr ht), stopsInPlace_iff hw ht]
      simp [happ, honce]
    · obtain ⟨⟨⟩, z, hz⟩ := not_raises_iff.mp hout
      have happ : Applicable v txn := ⟨hcov, fun o ho =>
        hpairs o.address ▸ exists_addNewOutputs_iff.mp ⟨z, hz⟩ o ho⟩
      exact iff_of_true (fun t ht => absurd ⟨t, (hupd t).mp ht⟩ hout) (.inl happ)
  · have hnot : ¬∃ a w, Returns (spendInputs txn.inputs c u.removeSpent) v a w := fun ⟨_, w, hw⟩ =>
      hcov (exists_spendInputs_iff.mp ⟨w, hw⟩)
    obtain ⟨t, ht⟩ := by_contra fun h => hnot (not_raises_iff.mp h)
    rw [forall_raises_iff ((raises_update hu).mpr (.inl ht)), stopsAtOnce_iff ht]
    simp [Applicable, StopsInPlace, hcov]

end View

/-! ### On the stores of a node -/

section Stores
variable {s s' : Stores P}

/-- The cache is the same, when its store, its batches and its pending writes are. -/
theorem contents_eq {o o' : Lib.Staged.Overlay Str Str P.state.Root} (hstore : o.store = o'.store)
    (hpending : (o.batches, o.ops) = (o'.batches, o'.ops)) : o = o' := by
  obtain ⟨hbatches, hops⟩ := Prod.mk.inj hpending
  cases o
  cases o'
  simp_all

/-- **What a failed update changes** is seen in its own mode. -/
theorem unchanged_iff (hcanon : Canonical P.state) (h : Raises (update u txn c) s s') :
    Unchanged s s' ↔ seen c s' = seen c s := by
  have hhead : P.state.lookup (P.state.headHash s'.tokenState) = P.state.lookup (P.state.headHash s.tokenState) →
      P.state.headHash s'.tokenState = P.state.headHash s.tokenState := hcanon _ _
  constructor
  · intro hun
    have hreads : ∀ a c, (P.cache.contents s'.utxoCache).get c a = (P.cache.contents s.utxoCache).get c a := by
      intro a c
      have := hun.reads a c
      rwa [show TokenStores.cacheGet s' a c = _ from P.cache.get_eq _ _ _,
        show TokenStores.cacheGet s a c = _ from P.cache.get_eq _ _ _] at this
    cases c
    · exact View.ext (congrArg P.state.lookup hun.head) (funext fun a => hreads a false)
    · exact View.ext (congrArg P.state.lookup hun.head) (funext fun a => hreads a true)
  · intro hseen
    cases c
    · obtain ⟨_, -, rfl, hpart⟩ := (sim_update (rel_uncommitted s false) u txn).raises ⟨rfl, rfl⟩ h
      obtain ⟨hstate, hcache⟩ := View.ext_iff.mp hseen
      refine ⟨hhead hstate, fun a c => ?_⟩
      show P.cache.get _ a c = P.cache.get _ a c
      rw [P.cache.get_eq, P.cache.get_eq]
      cases c
      · exact congrFun hcache a
      · exact congrFun (Prod.mk.inj (Prod.mk.inj hpart).2).1 a
    · obtain ⟨_, -, rfl, hpart⟩ := (sim_update (rel_direct s true) u txn).raises ⟨rfl, rfl⟩ h
      obtain ⟨hstate, hcache⟩ := View.ext_iff.mp hseen
      refine ⟨hhead hstate, fun a c => ?_⟩
      show P.cache.get _ a c = P.cache.get _ a c
      rw [P.cache.get_eq, P.cache.get_eq, contents_eq hcache hpart]

/-- **When a failed update changes nothing.** -/
theorem changesNothing_iff (hcanon : Canonical P.state) (hu : u ≠ .mint) : ChangesNothing u txn c s ↔
    Applicable (seen c s) txn ∨ StopsAtOnce u.removeSpent (seen c s) txn.inputs ∨
      StopsInPlace u.removeSpent (seen c s) txn := by
  have hsim := sim_update (rel_seen (P := P) c c) u txn
  rw [← view_iff (c := c) hu]
  constructor
  · intro h t ht
    obtain ⟨s', hs', rfl⟩ := hsim.raises_of rfl ht
    exact (unchanged_iff hcanon hs').mp (h s' hs')
  · intro h s' hs'
    obtain ⟨_, ht, rfl⟩ := hsim.raises rfl hs'
    exact (unchanged_iff hcanon hs').mpr (h _ ht)

end Stores

/-! ### Two transfers -/

/-- A state is the finite map of its entries. -/
def finmapState : PruningState where
  Carrier := Finmap (fun _ : Str => Str) × Finmap (fun _ : Str => Str)
  Root := Finmap (fun _ : Str => Str)
  decRoot := inferInstance
  new := (∅, ∅)
  headHash := Prod.fst
  committedHeadHash := Prod.snd
  lookup r k := r.lookup k
  set s k v := (s.1.insert k v, s.2)
  remove s k := (s.1.erase k, s.2)
  revertToHead s r := (r, s.2)
  commit s r := (s.1, r)
  lookup_new k := Finmap.lookup_empty k
  committed_new := rfl
  lookup_set s k v := by
    funext j
    by_cases h : j = k
    · subst h; rw [Function.update_self, Finmap.lookup_insert]
    · rw [Function.update_of_ne h, Finmap.lookup_insert_of_ne _ h]
  committed_set _ _ _ := rfl
  lookup_remove s k := by
    funext j
    by_cases h : j = k
    · subst h; rw [Function.update_self, Finmap.lookup_erase]
    · rw [Function.update_of_ne h, Finmap.lookup_erase_ne h]
  committed_remove _ _ := rfl
  head_revert _ _ := rfl
  committed_revert _ _ := rfl
  head_commit _ _ := rfl
  committed_commit _ _ := rfl

theorem canonical_finmapState : Canonical finmapState := fun _ _ h => Finmap.ext_lookup (congrFun h)

/-- The platform with such a state. -/
def canonicalPlatform : Platform := { ref with
  state := finmapState
  cache := optimisticKVStore _
  tracker := ledgerUncommittedTracker _ _ }

/-- A transfer of 100 tokens to the second address. -/
def transfer (ins : List Input) : TokenTxn where
  type := xferPublic
  inputs := ins
  outputs := [⟨bob.address, .int 100⟩]
  ref := none
  fees := none
  sigs := []
  reqId := 1
  txnTime := 0
  seqNo := 2

/-- The transfer of an output that is not there, to empty databases. -/
theorem changesNothing_iff_missing : Canonical finmapState ∧
    (ChangesNothing .xfer (transfer [⟨alice.address, .int 3⟩]) false (Stores.new : Stores canonicalPlatform) ↔
      Applicable (seen false (Stores.new : Stores canonicalPlatform)) (transfer [⟨alice.address, .int 3⟩]) ∨
      StopsAtOnce true (seen false (Stores.new : Stores canonicalPlatform)) [⟨alice.address, .int 3⟩] ∨
      StopsInPlace true (seen false (Stores.new : Stores canonicalPlatform))
        (transfer [⟨alice.address, .int 3⟩])) :=
  ⟨canonical_finmapState, changesNothing_iff (P := canonicalPlatform) canonical_finmapState (by decide)⟩

/-- Databases with one output of the first address. -/
def oneOutput (c : Bool) : Stores ref :=
  (addNewOutput ⟨alice.address, .int 1, some (.int 100)⟩ c (Stores.new : Stores ref)).2

/-- The transfer of that output and of one that is not there. -/
def transferTwo : TokenTxn := transfer [⟨alice.address, .int 1⟩, ⟨alice.address, .int 2⟩]

/-- It raises, and what the cache lists for the address has changed. -/
theorem transferTwo_raises : ∀ u ∈ [Updater.xfer, .xfer100, .fees], ∀ c : Bool,
    (update u transferTwo c (oneOutput c)).1.isOk = false ∧
      TokenStores.cacheGet (update u transferTwo c (oneOutput c)).2 alice.address c ≠
        TokenStores.cacheGet (oneOutput c) alice.address c := by
  decide +kernel

/-- **A second input that is not there**: the first one stays spent, in each of the three updates. -/
theorem not_changesNothing_second : ¬ChangesNothing .xfer transferTwo false (oneOutput false) ∧
    ¬ChangesNothing .xfer100 transferTwo false (oneOutput false) ∧
    ¬ChangesNothing .fees transferTwo false (oneOutput false) := by
  have hchanges : ∀ u ∈ [Updater.xfer, .xfer100, .fees],
      ¬ChangesNothing u transferTwo false (oneOutput false) := fun u hu h => by
    obtain ⟨hraises, hreads⟩ := transferTwo_raises u hu false
    exact hreads ((h _ (raises_of_isOk hraises)).reads alice.address false)
  exact ⟨hchanges _ (by simp), hchanges _ (by simp), hchanges _ (by simp)⟩

end TokenPlugin.Properties.Atomicity
