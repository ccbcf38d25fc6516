import TokenPlugin.Lib.Paging
import TokenPlugin.Token.Amounts
import TokenPlugin.Token.GetUtxoHandler

/-! # What GET_UTXO lists

On a token state, whose keys are those of outputs and whose values are texts of amounts or empty, the
loop over the entries of an address succeeds when no amount is a boolean, and then gives the unspent
outputs of all addresses that begin with the one asked for, sorted by their numbers. -/

namespace TokenPlugin.Token.Listing

open Python Token.Types Token.TokenUtils Token.Amounts Token.GetUtxoHandler
open Lib.Text Lib.Paging

/-! ### Token states -/

/-- The keys are those of outputs of numbered transactions; a key has the text of an amount, or an
empty text once the output is spent. -/
structure TokenState (m : Str → Option Str) : Prop where
  entry : ∀ k v, m k = some v → ∃ (a : Str) (n : ℕ), ':' ∉ a ∧ 0 < n ∧
    k = createStateKey a (.int n) ∧ (v = [] ∨ ∃ x : PyInt, v = x.str)

theorem TokenState.empty : TokenState fun _ => none := ⟨by rintro k v ⟨⟩⟩

theorem TokenState.update {m : Str → Option Str} (hm : TokenState m) {a : Str} {n : ℕ} (ha : ':' ∉ a) (hn : 0 < n)
    {x : Option Str} (hx : ∀ t ∈ x, t = [] ∨ ∃ y : PyInt, t = y.str) :
    TokenState (Function.update m (createStateKey a (.int n)) x) := by
  refine ⟨fun k t h => ?_⟩
  by_cases hk : k = createStateKey a (.int n)
  · rw [hk, Function.update_self] at h
    exact ⟨a, n, ha, hn, hk, hx t h⟩
  · rw [Function.update_of_ne hk] at h
    exact hm.entry k t h

/-- Output number `n` of the address is unspent, with the amount. -/
def Unspent (m : Str → Option Str) (a : Str) (n : ℕ) (x : PyInt) : Prop :=
  m (createStateKey a (.int n)) = some x.str

/-- An unspent output with an integer amount. -/
def outputOf (a : Str) (n : ℕ) (x : ℤ) : Output := ⟨a, .int n, some (.int x)⟩

/-- The unspent outputs of the addresses that begin with the one given, sorted by their numbers. -/
structure Lists (m : Str → Option Str) (address : Str) (L : List Output) : Prop where
  sorted : L.Pairwise (·.seqNo.val ≤ ·.seqNo.val)
  nodup : L.Nodup
  mem : ∀ o, o ∈ L ↔ ∃ a n x, address <+: a ∧ o = outputOf a n x ∧ Unspent m a n (.int x)

/-- The entries of the keys that begin with an address, in some order. -/
structure EntriesOf (m : Str → Option Str) (address : Str) (rv : List (Str × Str)) : Prop where
  mem : ∀ k v, (k, v) ∈ rv ↔ address <+: k ∧ m k = some v
  nodup : rv.Pairwise (·.1 ≠ ·.1)

theorem entriesOf_entries {p : Platform.PruningState} (N : PrefixReads p) (r : p.Root)
    (address : Str) : EntriesOf (p.lookup r) address (N.entries r address) := by
  refine ⟨N.mem_entries r address, (N.entries_sorted r address).imp fun {e f} h he => ?_⟩
  rw [he] at h
  exact N.before_asymm _ _ h h

/-- Entries in the order of the trie are determined by which they are. -/
theorem eq_of_before {p : Platform.PruningState} (N : PrefixReads p) {es fs : List (Str × Str)}
    (hes : es.Pairwise fun e f => N.before e.1 f.1) (hfs : fs.Pairwise fun e f => N.before e.1 f.1)
    (h : ∀ e, e ∈ es ↔ e ∈ fs) : es = fs := by
  have hnodup : ∀ gs : List (Str × Str), gs.Pairwise (fun e f => N.before e.1 f.1) → gs.Nodup := by
    refine fun gs hgs => hgs.imp fun {e f} hb he => ?_
    rw [he] at hb
    exact N.before_asymm _ _ hb hb
  have hperm : es.Perm fs := (List.perm_ext_iff_of_nodup (hnodup es hes) (hnodup fs hfs)).mpr h
  exact hperm.eq_of_pairwise (fun e f _ _ hb hb' => absurd hb' (N.before_asymm _ _ hb)) hes hfs

/-! ### One entry -/

theorem parseStateKey_createStateKey {a : Str} {s : PyInt} (ha : ':' ∉ a) :
    parseStateKey (createStateKey a s) = [a, s.str] := by
  unfold parseStateKey createStateKey
  rw [List.splitOn_append_cons_self_of_not_mem ha, List.splitOn_eq_singleton s.colon_notMem_str]

variable {a : Str} {n : ℕ}

theorem createStateKey_inj {a b : Str} {s t : PyInt} (h : createStateKey a s = createStateKey b t) :
    a = b ∧ s = t := by
  obtain ⟨ha, hs⟩ := append_delim_inj s.colon_notMem_str t.colon_notMem_str h
  exact ⟨ha, PyInt.str_injective hs⟩

/-- An address that begins a key begins the address of the key. -/
theorem prefix_of_prefix_key {address a : Str} {s : PyInt} (hc : ':' ∉ address)
    (h : address <+: createStateKey a s) : address <+: a := by
  obtain ⟨t, ht⟩ := h
  unfold createStateKey at ht
  rcases List.append_eq_append_iff.mp ht with ⟨u, hu, -⟩ | ⟨u, hu, hs⟩
  · exact ⟨u, hu.symm⟩
  · cases u with
    | nil => exact ⟨[], by simpa using hu⟩
    | cons c u =>
      obtain rfl : ':' = c := (List.cons.inj hs).1
      exact absurd (by rw [hu]; simp) hc

theorem outputOfEntry_nil (ha : ':' ∉ a) : outputOfEntry (createStateKey a (.int n)) [] = .ok none := by
  simp only [outputOfEntry, parseStateKey_createStateKey ha, if_true]

theorem outputOfEntry_int (ha : ':' ∉ a) (x : ℤ) :
    outputOfEntry (createStateKey a (.int n)) (PyInt.int x).str = .ok (some (outputOf a n x)) := by
  simp only [outputOfEntry, parseStateKey_createStateKey ha, intText_ne_nil, if_false,
    PyInt.str_int, pyInt_intText]
  rfl

theorem outputOfEntry_bool (ha : ':' ∉ a) (b : Bool) :
    ∀ o, outputOfEntry (createStateKey a (.int n)) (PyInt.bool b).str ≠ .ok o := by
  intro o h
  simp only [outputOfEntry, parseStateKey_createStateKey ha, PyInt.str_ne_nil, if_false,
    PyInt.str_int, pyInt, readInt_intText, PyInt.readInt_str_bool] at h
  cases h

/-! ### The loop -/

/-- The output of an entry, where it has one. -/
def outputIn (e : Str × Str) : Option Output := (outputOfEntry e.1 e.2).toOption.join

/-- The output of an entry is one of the address in the key. -/
theorem outputIn_eq_some {s : PyInt} {v : Str} {o : Output} (ha : ':' ∉ a)
    (h : outputIn (createStateKey a s, v) = some o) :
    o.address = a ∧ ∃ x, pyInt s.str = .ok x ∧ o.seqNo = .int x := by
  unfold outputIn at h
  rcases hr : outputOfEntry (createStateKey a s) v with err | o'
  · simp [hr, Except.toOption] at h
  · obtain rfl : o' = some o := by simpa [hr, Except.toOption] using h
    simp only [outputOfEntry, parseStateKey_createStateKey ha] at hr
    split_ifs at hr
    · cases hr
    · rcases hn : pyInt s.str with err | n
      · rw [hn] at hr; cases hr
      · rcases hx : pyInt v with err | x
        · rw [hn, hx] at hr; cases hr
        · rw [hn, hx] at hr; cases hr; exact ⟨rfl, n, rfl, rfl⟩

/-- The loop reads every entry and puts the outputs in order. -/
theorem addOutputs_eq_ok {rv : List (Str × Str)} {outputs L : List Output} :
    addOutputs rv outputs = .ok L ↔ (∀ e ∈ rv, ∃ o, outputOfEntry e.1 e.2 = .ok o) ∧
      L = (rv.filterMap outputIn).foldl (insertBy (·.seqNo.val)) outputs := by
  have hadd : ∀ (items : List Output) (o : Output),
      SortedItems.add items o = insertBy (·.seqNo.val) items o := fun items o => by
    simp [SortedItems.add, insertBy, lessThan]
  induction rv generalizing outputs with
  | nil => simp [addOutputs, eq_comm]
  | cons e rv ih =>
    rw [List.forall_mem_cons, List.filterMap_cons,
      show outputIn e = (outputOfEntry e.1 e.2).toOption.join from rfl]
    unfold addOutputs
    rcases outputOfEntry e.1 e.2 with err | (_ | o)
    · simp [bind, Except.bind]
    · exact ih.trans (by simp [Except.toOption])
    · exact ih.trans (by simp [Except.toOption, hadd])

section Entries
variable {m : Str → Option Str} {address : Str} {rv : List (Str × Str)} {L : List Output}

/-- The outputs that the entries hold. -/
theorem mem_filterMap_outputIn (hm : TokenState m) (hrv : EntriesOf m address rv)
    (hcolon : ':' ∉ address) {o : Output} : o ∈ rv.filterMap outputIn ↔
      ∃ a n x, address <+: a ∧ o = outputOf a n x ∧ Unspent m a n (.int x) := by
  rw [List.mem_filterMap]
  constructor
  · rintro ⟨⟨k, v⟩, he, ho⟩
    obtain ⟨hpre, hk⟩ := (hrv.mem k v).mp he
    obtain ⟨a, n, ha, -, rfl, rfl | ⟨x, rfl⟩⟩ := hm.entry k v hk
    · simp [outputIn, outputOfEntry_nil ha, Except.toOption] at ho
    · have hpre := prefix_of_prefix_key hcolon hpre
      rcases x with x | b
      · rw [outputIn, outputOfEntry_int ha] at ho
        exact ⟨a, n, x, hpre, (Option.some.inj ho).symm, hk⟩
      · rw [outputIn] at ho
        rcases hb : outputOfEntry (createStateKey a (.int n)) (PyInt.bool b).str with err | o'
        · simp [hb, Except.toOption] at ho
        · exact absurd hb (outputOfEntry_bool ha b o')
  · rintro ⟨a, n, x, hpre, rfl, hu⟩
    obtain ⟨a', n', ha', -, hkey, -⟩ := hm.entry _ _ hu
    obtain ⟨rfl, -⟩ := createStateKey_inj hkey
    refine ⟨(createStateKey a (.int n), _),
      (hrv.mem _ _).mpr ⟨hpre.trans (List.prefix_append _ _), hu⟩, ?_⟩
    rw [outputIn, outputOfEntry_int ha']
    rfl

/-- No output is listed twice. -/
theorem nodup_filterMap_outputIn (hm : TokenState m) (hrv : EntriesOf m address rv) :
    (rv.filterMap outputIn).Nodup := by
  rw [List.Nodup, List.pairwise_filterMap]
  -- an output determines the key it was read from
  have hkey : ∀ e ∈ rv, ∀ o, outputIn e = some o → e.1 = createStateKey o.address o.seqNo := by
    rintro ⟨k, v⟩ he o ho
    obtain ⟨a, n, ha, -, rfl, -⟩ := hm.entry k v ((hrv.mem k v).mp he).2
    obtain ⟨haddr, x, hx, hseq⟩ := outputIn_eq_some ha ho
    rw [PyInt.str_int, pyInt_intText] at hx
    rw [haddr, hseq, ← Except.ok.inj hx]
  refine hrv.nodup.imp_of_mem fun {e f} he hf hne o ho o' ho' heq => hne ?_
  rw [hkey e he o ho, hkey f hf o' ho', heq]

/-- **What the loop gives.** -/
theorem lists_of_addOutputs (hm : TokenState m) (hrv : EntriesOf m address rv)
    (hcolon : ':' ∉ address) (h : addOutputs rv [] = .ok L) : Lists m address L := by
  obtain ⟨-, rfl⟩ := addOutputs_eq_ok.mp h
  have hperm : (List.foldl (insertBy (·.seqNo.val)) [] (rv.filterMap outputIn)).Perm
      ([] ++ rv.filterMap outputIn) := perm_foldl_insertBy _ _
  rw [List.nil_append] at hperm
  exact ⟨sorted_foldl_insertBy List.Pairwise.nil, hperm.nodup_iff.mpr (nodup_filterMap_outputIn hm hrv),
    fun o => hperm.mem_iff.trans (mem_filterMap_outputIn hm hrv hcolon)⟩

/-- **When the loop does not raise**: no amount is a boolean. -/
theorem exists_addOutputs_iff (hm : TokenState m) (hrv : EntriesOf m address rv)
    (hcolon : ':' ∉ address) : (∃ L, addOutputs rv [] = .ok L) ↔
      ∀ a n b, address <+: a → ¬Unspent m a n (.bool b) := by
  simp only [addOutputs_eq_ok, exists_and_left, exists_eq, and_true]
  constructor
  · intro h a n b hpre hu
    obtain ⟨a', n', ha', -, hkey, -⟩ := hm.entry _ _ hu
    obtain ⟨rfl, -⟩ := createStateKey_inj hkey
    obtain ⟨o, ho⟩ := h (createStateKey a (.int n), _)
      ((hrv.mem _ _).mpr ⟨hpre.trans (List.prefix_append _ _), hu⟩)
    exact outputOfEntry_bool ha' b o ho
  · rintro h ⟨k, v⟩ he
    obtain ⟨hpre, hk⟩ := (hrv.mem k v).mp he
    obtain ⟨a, n, ha, -, rfl, rfl | ⟨x | b, rfl⟩⟩ := hm.entry k v hk
    · exact ⟨_, outputOfEntry_nil ha⟩
    · exact ⟨_, outputOfEntry_int ha x⟩
    · exact absurd hk (h a n b (prefix_of_prefix_key hcolon hpre))

end Entries

/-! ### The outputs of one address -/

/-- The unspent outputs of an address: their numbers, ascending, and amounts. -/
structure Holding (m : Str → Option Str) (address : Str) (U : List (ℕ × PyInt)) : Prop where
  ascending : Ascending Prod.fst U
  mem : ∀ n x, (n, x) ∈ U ↔ Unspent m address n x

/-- No other stored address begins with the address. -/
def Alone (m : Str → Option Str) (address : Str) : Prop :=
  ∀ a s, m (createStateKey a s) ≠ none → address <+: a → a = address

/-- No amount is a boolean. -/
def Readable (U : List (ℕ × PyInt)) : Prop := ∀ p ∈ U, p.2.isBool = false

/-- The outputs as the handler lists them. -/
def listed (address : Str) (U : List (ℕ × PyInt)) : List Output :=
  U.map fun p => outputOf address p.1 p.2.val

section Address
variable {m : Str → Option Str} {address : Str} {rv : List (Str × Str)} {L : List Output}
  {U : List (ℕ × PyInt)}

theorem ascending_listed (h : Ascending Prod.fst U) :
    Ascending (fun o : Output => o.seqNo.val) (listed address U) := by
  rw [listed, Ascending, List.pairwise_map]
  exact h.imp fun hlt => by simpa [outputOf] using hlt

/-- **The outputs of an address**, where no other address begins with it. -/
theorem addOutputs_eq_listed (hm : TokenState m) (hrv : EntriesOf m address rv)
    (hcolon : ':' ∉ address) (halone : Alone m address) (hU : Holding m address U) :
    addOutputs rv [] = .ok L ↔ Readable U ∧ L = listed address U := by
  have hown : ∀ a n x, address <+: a → Unspent m a n x → a = address := fun a n x hpre hu =>
    halone a _ (by rw [show m (createStateKey a (.int n)) = _ from hu]; simp) hpre
  have hread : (∃ L, addOutputs rv [] = .ok L) ↔ Readable U := by
    rw [exists_addOutputs_iff hm hrv hcolon]
    constructor
    · rintro h ⟨n, x | b⟩ hp
      · rfl
      · exact absurd ((hU.mem _ _).mp hp) (h address n b (List.prefix_refl _))
    · intro h a n b hpre hu
      obtain rfl := hown a n _ hpre hu
      exact absurd (h _ ((hU.mem _ _).mpr hu)) (by simp)
  have hval : ∀ L, Readable U → addOutputs rv [] = .ok L → L = listed address U := by
    intro L hr h
    have hL := lists_of_addOutputs hm hrv hcolon h
    have hmem : ∀ o, o ∈ L ↔ o ∈ listed address U := by
      intro o
      rw [hL.mem, listed, List.mem_map]
      constructor
      · rintro ⟨a, n, x, hpre, rfl, hu⟩
        obtain rfl := hown a n _ hpre hu
        exact ⟨_, (hU.mem _ _).mpr hu, rfl⟩
      · rintro ⟨⟨n, x⟩, hp, rfl⟩
        refine ⟨address, n, x.val, List.prefix_refl _, rfl, ?_⟩
        rw [← PyInt.isBool_eq_false.mp (hr _ hp)]
        exact (hU.mem _ _).mp hp
    refine Ascending.ext (Ascending.of_sorted hL.sorted ?_) (ascending_listed hU.ascending) hmem
    refine List.Nodup.map_on (fun o ho o' ho' he => ?_) hL.nodup
    obtain ⟨p, hp, rfl⟩ := List.mem_map.mp ((hmem o).mp ho)
    obtain ⟨q, hq, rfl⟩ := List.mem_map.mp ((hmem o').mp ho')
    have hpq : p.1 = q.1 := by simpa [outputOf] using he
    have hsame : p = q := by
      obtain ⟨n, x⟩ := p
      obtain ⟨n', y⟩ := q
      obtain rfl : n = n' := hpq
      have := Option.some.inj (((hU.mem _ _).mp hp).symm.trans ((hU.mem _ _).mp hq))
      rw [PyInt.str_injective this]
    rw [hsame]
  constructor
  · intro h
    have hr := hread.mp ⟨L, h⟩
    exact ⟨hr, hval L hr h⟩
  · rintro ⟨hr, rfl⟩
    obtain ⟨L, h⟩ := hread.mpr hr
    rwa [hval L hr h] at h

/-! ### Pages -/

/-- The outputs from a number on, where one is given. -/
def since (start : Option PyInt) (U : List (ℕ × PyInt)) : List (ℕ × PyInt) :=
  match start with
  | some f => U.filter fun p => f.val ≤ p.1
  | none => U

/-- The page starts where it should: not at the first output of the address. -/
def StartsInside (start : Option PyInt) (U : List (ℕ × PyInt)) : Prop :=
  ∀ f ∈ start, since (some f) U = [] ∨ ∃ p ∈ U, (p.1 : ℤ) < f.val

theorem startFrom_eq (h : Ascending Prod.fst U) (f : PyInt) : startFrom (listed address U) f =
    if ∃ p ∈ U, (p.1 : ℤ) < f.val then listed address (since (some f) U) else [] := by
  have hdrop : ∀ i, (listed address U).findIdx? (fun utxo => f.val ≤ utxo.seqNo.val) = some i →
      (listed address U).drop i = listed address (since (some f) U) := by
    intro i hi
    rw [← (List.findIdx_eq_getD_findIdx?.trans (by rw [hi]; rfl) :
      (listed address U).findIdx (fun utxo => f.val ≤ utxo.seqNo.val) = i),
      (ascending_listed h).drop_findIdx f.val]
    simp only [listed, since, List.filter_map, Function.comp_def, outputOf, PyInt.val_int]
    rfl
  unfold startFrom
  cases hi : (listed address U).findIdx? fun utxo => f.val ≤ utxo.seqNo.val with
  | none =>
    have hall : ∀ p ∈ U, (p.1 : ℤ) < f.val := fun p hp =>
      not_le.mp (of_decide_eq_false (List.findIdx?_eq_none_iff.mp hi _ (List.mem_map_of_mem hp)))
    have hnil : since (some f) U = [] := List.filter_eq_nil_iff.mpr fun p hp => by
      simpa using hall p hp
    simp [hnil, listed]
  | some i =>
    obtain ⟨hlt, hle, hbefore⟩ := List.findIdx?_eq_some_iff_getElem.mp hi
    have hfirst : i ≠ 0 ↔ ∃ p ∈ U, (p.1 : ℤ) < f.val := by
      constructor
      · intro hne
        have h0 := hbefore 0 (Nat.pos_of_ne_zero hne)
        have hlen : 0 < U.length := by simp [listed] at hlt; omega
        refine ⟨U[0], List.getElem_mem hlen, ?_⟩
        simpa [listed, outputOf] using h0
      · rintro ⟨p, hp, hlt'⟩ rfl
        obtain ⟨j, hj, rfl⟩ := List.getElem_of_mem hp
        have hle0 : f.val ≤ (U[0].1 : ℤ) := by simpa [listed, outputOf] using hle
        have hmono : U[0].1 ≤ U[j].1 := by
          rcases Nat.eq_zero_or_pos j with rfl | hj0
          · exact le_rfl
          · exact (List.pairwise_iff_getElem.mp h 0 j (by omega) hj hj0).le
        omega
    by_cases h0 : i ≠ 0
    · simp only [h0, ne_eq, not_false_eq_true, if_true, if_pos (hfirst.mp h0), hdrop i hi]
    · simp only [h0, if_false, if_neg (mt hfirst.mpr h0)]

end Address

end TokenPlugin.Token.Listing
