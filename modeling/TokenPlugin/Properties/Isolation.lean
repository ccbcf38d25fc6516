import TokenPlugin.Properties.Tombstones

/-! # Whose outputs GET_UTXO shows

GET_UTXO asks the state for the keys that begin with the address, without the delimiter that ends it in
a key. So it shows the outputs of every address that begins with the one asked for. There are two keys of
which the address of one is that of the other with one more character; an address whose payload is at
least `256 ^ 36 / 58` begins no other one. -/

namespace TokenPlugin.Properties.Isolation

open Python Token.Types Token.UtxoCache Token.TokenUtils Token.Handlers Messages.Fields
open Token.GetUtxoHandler Token.Updates Token.Views Token.Listing Token.Replies Token.Addresses Database Lib.Program Lib.Paging Reference
open Properties.Tombstones

variable {P : Platform}

/-- What the state holds under its head. -/
abbrev holds (state : P.state.Carrier) : Str → Option Str := P.state.lookup (P.state.headHash state)

/-- The keys are those of accepted addresses. -/
def KeysOfAddresses (state : P.state.Carrier) : Prop :=
  ∀ k v, holds state k = some v → ∃ b s, ValidAddress P b ∧ k = createStateKey b s

/-- The states hold the same under every key of the address. -/
def AgreeOn (a : Str) (state state' : P.state.Carrier) : Prop :=
  ∀ s : PyInt, holds state (createStateKey a s) = holds state' (createStateKey a s)

/-- Every output in a reply is one of the address. -/
def OutputsOf (a : Str) (reply : List (Str × Json)) : Prop :=
  ∀ l, Json.field reply "outputs" = some (.list l) → ∀ v ∈ l, ∃ o : Output, o.address = a ∧ v = ofOutput o

/-- **GET_UTXO shows an address what is its own**: the reply depends only on the keys of the address, and
its outputs are outputs of the address. -/
structure Isolated (N : ReadNode P) (a : Str) : Prop where
  depends : ∀ r state state', Json.field r.operation "address" = some (.str a) →
    KeysOfAddresses state → KeysOfAddresses state' → AgreeOn a state state' →
    (getResult N state r).map shown = (getResult N state' r).map shown
  outputs : ∀ r state reply, Json.field r.operation "address" = some (.str a) →
    ("outputs" : Str) ∉ r.operation.map Prod.fst → KeysOfAddresses state →
    getResult N state r = .ok reply → OutputsOf a reply

/-! ### States with keys of addresses -/

theorem KeysOfAddresses.new : KeysOfAddresses (P := P) P.state.new := by
  intro k v h
  rw [holds, P.state.lookup_new] at h
  cases h

theorem KeysOfAddresses.set {state : P.state.Carrier} (h : KeysOfAddresses state) {b : Str}
    (hb : ValidAddress P b) (s : PyInt) (v : Str) :
    KeysOfAddresses (P.state.set state (createStateKey b s) v) := by
  intro k w hk
  rw [holds, P.state.lookup_set] at hk
  by_cases hkey : k = createStateKey b s
  · exact ⟨b, s, hb, hkey⟩
  · rw [Function.update_of_ne hkey] at hk
    exact h k w hk

theorem KeysOfAddresses.remove {state : P.state.Carrier} (h : KeysOfAddresses state) (key : Str) :
    KeysOfAddresses (P.state.remove state key) := by
  intro k w hk
  rw [holds, P.state.lookup_remove] at hk
  by_cases hkey : k = key
  · rw [hkey, Function.update_self] at hk
    cases hk
  · rw [Function.update_of_ne hkey] at hk
    exact h k w hk

/-- The state of the stores has such keys. -/
def Keyed (s : Stores P) : Prop := KeysOfAddresses s.tokenState

/-- `add_new_output` writes such keys. -/
theorem keeps_addNewOutput {o : Output} (ho : ValidAddress P o.address) (c : Bool) :
    Keeps Keyed (addNewOutput o c : Py (Stores P) Unit) := by
  have hadd : Keeps Keyed (addOutput o c : Py (Stores P) Unit) :=
    (readOnly_getAmounts _ _ _).keeps.bind fun _ => (readOnly_ofExcept _).keeps.bind fun _ =>
      (readOnly_ofExcept _).keeps.bind fun _ => keeps_modify fun _ h => h
  exact (keeps_modify fun _ h => h.set ho _ _).bind fun _ => hadd

/-- `spend_input` removes keys or writes such keys. -/
theorem keeps_spendInput {a : Str} (ha : ValidAddress P a) (n : PyInt) (c r : Bool) :
    Keeps Keyed (spendInput a n c r : Py (Stores P) Unit) := by
  have hspend : Keeps Keyed (spendOutput ⟨a, n, none⟩ c : Py (Stores P) Unit) :=
    (readOnly_getAmounts _ _ _).keeps.bind fun _ => (readOnly_ofExcept _).keeps.bind fun _ =>
      (readOnly_ofExcept _).keeps.bind fun _ => keeps_modify fun _ h => h
  unfold spendInput
  cases r
  · exact (keeps_modify fun _ h => h.set ha _ _).bind fun _ => hspend
  · exact (keeps_modify fun _ h => h.remove _).bind fun _ => hspend

/-- **An update of accepted addresses leaves keys of accepted addresses**, also when it raises. -/
theorem keeps_update (u : Updater) {txn : TokenTxn} (hin : ∀ i ∈ txn.inputs, ValidAddress P i.address)
    (hout : ∀ o ∈ txn.outputs, ValidAddress P o.address) (c : Bool) :
    Keeps Keyed (update u txn c : Py (Stores P) Unit) := by
  have hspend : ∀ r, Keeps Keyed (spendInputs txn.inputs c r : Py (Stores P) Unit) := fun r =>
    keeps_forM fun i hi => keeps_spendInput (hin i hi) i.seqNo c r
  have hadd : Keeps Keyed (addNewOutputs txn.outputs txn.seqNo c : Py (Stores P) Unit) :=
    keeps_forM fun o ho => keeps_addNewOutput (o := ⟨o.address, .int txn.seqNo, some o.amount⟩) (hout o ho) c
  cases u with
  | mint => exact hadd.catching handler_raises
  | xfer => exact ((hspend true).bind fun _ => hadd).catching handler_raises
  | xfer100 => exact ((hspend false).bind fun _ => hadd).catching handler_raises
  | fees => exact (hspend true).bind fun _ => hadd

/-! ### Isolation -/

section Alone
variable {N : ReadNode P} {a : Str} (ha : ValidAddress P a)
  (halone : ∀ b, ValidAddress P b → a <+: b → b = a)
include ha halone

/-- The keys that begin with the address are its own. -/
theorem exists_eq_createStateKey {state : P.state.Carrier} (h : KeysOfAddresses state) {k v : Str}
    (hpre : a <+: k) (hk : holds state k = some v) : ∃ s, k = createStateKey a s := by
  obtain ⟨b, s, hb, rfl⟩ := h k v hk
  obtain rfl := halone b hb (prefix_of_prefix_key ha.colon_notMem hpre)
  exact ⟨s, rfl⟩

theorem entries_eq {state state' : P.state.Carrier} (h : KeysOfAddresses state)
    (h' : KeysOfAddresses state') (hagree : AgreeOn a state state') :
    N.reads.entries (P.state.headHash state) a = N.reads.entries (P.state.headHash state') a := by
  refine eq_of_before N.reads (N.reads.entries_sorted _ a) (N.reads.entries_sorted _ a) fun ⟨k, v⟩ => ?_
  rw [N.reads.mem_entries, N.reads.mem_entries]
  refine and_congr_right fun hpre => ⟨fun hk => ?_, fun hk => ?_⟩
  · obtain ⟨s, rfl⟩ := exists_eq_createStateKey ha halone h hpre hk
    exact (hagree s).symm.trans hk
  · obtain ⟨s, rfl⟩ := exists_eq_createStateKey ha halone h' hpre hk
    exact (hagree s).trans hk

/-- The loop gives outputs of the address. -/
theorem address_of_addOutputs {state : P.state.Carrier} (h : KeysOfAddresses state) {L : List Output}
    (hL : addOutputs (N.reads.entries (P.state.headHash state) a) [] = .ok L) :
    ∀ o ∈ L, o.address = a := by
  intro o ho
  obtain ⟨-, rfl⟩ := addOutputs_eq_ok.mp hL
  rw [(perm_foldl_insertBy _ _).mem_iff, List.nil_append, List.mem_filterMap] at ho
  obtain ⟨⟨k, v⟩, he, hout⟩ := ho
  obtain ⟨hpre, hk⟩ := (N.reads.mem_entries _ _ _ _).mp he
  obtain ⟨s, rfl⟩ := exists_eq_createStateKey ha halone h hpre hk
  exact (outputIn_eq_some ha.colon_notMem hout).1

/-- **An address that no other one begins with is isolated.** -/
theorem isolated_of_alone : Isolated N a where
  depends := by
    intro r state state' hr h h' hagree
    refine shown_getResult_of_eq N fun v hv => ?_
    obtain rfl : Json.str a = v := Option.some.inj (hr.symm.trans (getItem_eq_ok.mp hv))
    exact congrArg (addOutputs · []) (entries_eq ha halone h h' hagree)
  outputs := by
    intro r state reply hr hout h hreply l hl v hv
    obtain ⟨L, hL, rfl⟩ := (getResult_eq_ok_iff hr).mp hreply
    rw [field_attach (by decide), field_outputs hout] at hl
    obtain rfl := Json.list.inj (Option.some.inj hl)
    obtain ⟨o, ho, rfl⟩ := List.mem_map.mp hv
    exact ⟨o, address_of_addOutputs ha halone h hL o (startAt_subset _ _ (List.mem_of_mem_take ho)), rfl⟩

end Alone

/-- An output that GET_UTXO shows for an address that begins the output's own. -/
theorem not_isolated {N : ReadNode P} {a b : Str} (hb : ValidAddress P b) (hpre : a <+: b) (hne : b ≠ a) :
    ¬Isolated N a := by
  intro h
  set state := P.state.set P.state.new (createStateKey b (.int (1 : ℕ))) (PyInt.int 1).str with hstate
  have hm : TokenState (holds state) := by
    rw [holds, hstate, P.state.lookup_set, show P.state.lookup (P.state.headHash P.state.new) =
      fun _ => none from funext P.state.lookup_new]
    exact TokenState.empty.update hb.colon_notMem (by decide) fun t ht =>
      .inr ⟨_, (Option.mem_some_iff.mp ht).symm⟩
  have hlook : ∀ k v, holds state k = some v → k = createStateKey b (.int (1 : ℕ)) ∧ v = (PyInt.int 1).str := by
    intro k v hk
    rw [holds, hstate, P.state.lookup_set] at hk
    by_cases hkey : k = createStateKey b (.int (1 : ℕ))
    · rw [hkey, Function.update_self] at hk
      exact ⟨hkey, (Option.some.inj hk).symm⟩
    · rw [Function.update_of_ne hkey, P.state.lookup_new] at hk
      cases hk
  have hcolon : ':' ∉ a := fun hc => hb.colon_notMem (hpre.subset hc)
  have hrv := entriesOf_entries N.reads (P.state.headHash state) a
  obtain ⟨L, hL⟩ := (exists_addOutputs_iff hm hrv hcolon).mpr fun c n x _ hu =>
    absurd (hlook _ _ hu).2 (PyInt.str_injective.ne (by simp))
  have hlists := lists_of_addOutputs hm hrv hcolon hL
  have hmem : ∀ o ∈ L, o.address = b := by
    intro o ho
    obtain ⟨c, n, x, -, rfl, hu⟩ := (hlists.mem o).mp ho
    exact (createStateKey_inj (hlook _ _ hu).1).1
  obtain ⟨o, M, rfl⟩ : ∃ o M, L = o :: M := by
    refine List.exists_cons_of_ne_nil (List.ne_nil_of_mem ((hlists.mem (outputOf b 1 1)).mpr
      ⟨b, 1, 1, hpre, rfl, ?_⟩))
    show holds state _ = _
    rw [holds, hstate, P.state.lookup_set, Function.update_self]
  -- the first page shows it
  have hfirst := h.outputs ⟨[], 0, operation a none⟩ state _ field_address
    (field_operation_of_notMem (by decide)) (KeysOfAddresses.new.set hb _ _)
    ((getResult_eq_ok_iff field_address).mpr ⟨_, hL, rfl⟩)
  have hpage : ofOutput o ∈ ((startAt (o :: M) none).take utxoLimit).map ofOutput := List.mem_cons_self
  obtain ⟨o', ho', he⟩ := hfirst _
    ((field_attach (by decide)).trans (field_outputs (field_operation_of_notMem (by decide)))) _ hpage
  have haddr : o.address = o'.address := by
    simp only [ofOutput, Json.obj.injEq, List.cons.injEq, Prod.mk.injEq, Json.str.injEq, true_and] at he
    exact he.1
  exact hne ((hmem o List.mem_cons_self).symm.trans (haddr.trans ho'))

/-- **GET_UTXO shows an address only what is its own exactly when no other accepted address begins with
it.** -/
theorem isolated_iff (N : ReadNode P) {a : Str} (ha : ValidAddress P a) :
    Isolated N a ↔ ∀ b, ValidAddress P b → a <+: b → b = a :=
  ⟨fun h _ hb hpre => by_contra fun hne => not_isolated hb hpre hne h, isolated_of_alone ha⟩

/-- An address that is in use. -/
theorem isolated_iff_alice : ValidAddress ref alice.address ∧ (Isolated readNode alice.address ↔
    ∀ b, ValidAddress ref b → alice.address <+: b → b = alice.address) :=
  ⟨by decide, isolated_iff readNode (by decide)⟩

/-- **An address is shown the outputs of another one**: the two are accepted, and the one continues the
other. -/
theorem not_isolated_short : ValidAddress standard (addressOfKey base58 shortKey) ∧
    ¬Isolated standardReadNode (addressOfKey base58 shortKey) := by
  have hpre : addressOfKey base58 shortKey <+: addressOfKey base58 longKey := by decide +kernel
  have hne : addressOfKey base58 longKey ≠ addressOfKey base58 shortKey := by decide +kernel
  exact ⟨validAddress_addressOfKey base58 shortKey (by decide),
    not_isolated (validAddress_addressOfKey base58 longKey (by decide)) hpre hne⟩

/-! ### Large keys -/

/-- The address of a key with a large payload begins no other address. -/
theorem isolated_of_le_valueOf {N : ReadNode P} (B : Base58 P)
    (halpha : ∀ b, ValidAddress P b → ∀ c ∈ b, c ∈ Lib.Base58.alphabet) {k : List UInt8} (hk : k.length = 32)
    (hv : 256 ^ 36 ≤ 58 * Lib.Base58.valueOf (k ++ B.checksum k)) : Isolated N (addressOfKey B k) := by
  refine isolated_of_alone (validAddress_addressOfKey B k hk) fun b hb hpre => ?_
  obtain ⟨k', hk', rfl⟩ := (validAddress_iff B (halpha b hb)).mp hb
  by_contra hne
  have hlen : (k' ++ B.checksum k').length = 36 := by rw [List.length_append, hk', B.length_checksum]
  have hlt := Lib.Base58.valueOf_lt (k' ++ B.checksum k')
  rw [hlen] at hlt
  have hpow : 256 ^ (36 - Lib.Base58.zeroBytes (k' ++ B.checksum k')) ≤ 256 ^ 36 :=
    Nat.pow_le_pow_right (by decide) (Nat.sub_le _ _)
  have hle := Lib.Base58.mul_valueOf_le hpre (Ne.symm hne)
  omega

end TokenPlugin.Properties.Isolation
