import TokenPlugin.Token.Listing

/-! # The replies to GET_UTXO

A request with the keys `type`, `address` and `from` only; which of these pass static validation, and
what the reply then holds under `outputs` and `next`. -/

namespace TokenPlugin.Token.Replies

open Python Token.Types Messages.Fields Token.GetUtxoHandler Token.Listing Lib.Text Lib.Paging

/-! ### Requests -/

/-- The operation of a request for an address, from a number on where one is given. -/
def operation (address : Str) (start : Option PyInt) : List (Str × Json) :=
  ("type", .str getUtxo) :: ("address", .str address) ::
    start.toList.map fun f => (("from" : Str), ofPyInt f)

variable {address : Str} {start : Option PyInt}

theorem asInt_ofPyInt (v : PyInt) : Json.asInt (ofPyInt v) = some v := by
  cases v <;> rfl

theorem field_address : Json.field (operation address start) "address" = some (.str address) := by
  cases start <;> rfl

theorem field_from : (Json.field (operation address start) "from").bind Json.asInt = start := by
  cases start with
  | none => rfl
  | some f => exact asInt_ofPyInt f

/-- The keys of the operation. -/
theorem field_operation_of_notMem {key : Str}
    (h : key ∉ [("type" : Str), ("address" : Str), ("from" : Str)]) :
    key ∉ (operation address start).map Prod.fst := by
  cases start with
  | none => exact fun hk => h (List.mem_append_left [("from" : Str)] hk)
  | some f => exact h

/-- A request passes static validation when its address is one and its number is at least 1. -/
theorem staticValidation_eq_ok {P : Platform} :
    staticValidation P (operation address start) = .ok () ↔
      ValidAddress P address ∧ ∀ f ∈ start, 1 ≤ f.val := by
  have haddr : addressValidate P (operation address start) = .ok () ↔ ValidAddress P address := by
    have hvalid : publicAddressField P (.str address) = valid ↔ ValidAddress P address := by
      rw [publicAddressField_eq_valid]
      simp [Messages.Fields.asStr]
    rw [← hvalid, addressValidate, field_address]
    simp only
    rcases publicAddressField P (.str address) with e | (_ | msg) <;>
      simp [bind, Except.bind, valid]
  have hfrom : fromValidate (operation address start) = valid ↔ ∀ f ∈ start, 1 ≤ f.val := by
    cases start with
    | none => simp [fromValidate, operation, Json.field, List.lookup, valid]
    | some f =>
      have hf : Json.field (operation address (some f)) "from" = some (ofPyInt f) := rfl
      rw [fromValidate, hf]
      simp only [andThen_eq_valid, txnSeqNoField_eq_valid, asInt_ofPyInt]
      simp
  unfold staticValidation
  rcases hx : addressValidate P (operation address start) with e | u
  · have hno : ¬ValidAddress P address := fun h => by
      rw [haddr.mpr h] at hx
      cases hx
    simp [bind, Except.bind, hno]
  · have hyes := haddr.mp hx
    rw [← hfrom]
    simp only [bind, Except.bind, hyes, true_and]
    rcases fromValidate (operation address start) with e | (_ | msg) <;> simp [valid]

/-! ### Fields of the reply -/

theorem field_setItem (d : List (Str × Json)) (k j : Str) (v : Json) :
    Json.field (setItem d k v) j = if j = k then some v else Json.field d j := by
  unfold Json.field setItem
  rw [List.lookup_cons]
  by_cases h : j = k
  · simp [h]
  · rw [if_neg h, show (j == k) = false by simpa using h]
    show List.lookup j (d.filter (·.1 ≠ k)) = List.lookup j d
    induction d with
    | nil => rfl
    | cons e d ih =>
      by_cases he : e.1 = k
      · rw [List.filter_cons_of_neg (by simpa using he), ih, List.lookup_cons,
          show (j == e.1) = false by simpa [he] using h]
      · rw [List.filter_cons_of_pos (by simpa using he), List.lookup_cons, List.lookup_cons, ih]

theorem field_update {d op : List (Str × Json)} {j : Str} (h : j ∉ op.map Prod.fst) :
    Json.field (update d op) j = Json.field d j := by
  unfold update
  induction op generalizing d with
  | nil => rfl
  | cons e op ih =>
    rw [List.map_cons, List.mem_cons, not_or] at h
    rw [List.foldl_cons, ih h.2, field_setItem, if_neg h.1]

variable {P : Platform} {N : ReadNode P} {r : ReadRequest} {utxos : List Output}

theorem field_attach {d : List (Str × Json)} {p : Option Json} {j : Str} (h : j ≠ "state_proof") :
    Json.field (attach N d p) j = Json.field d j := by
  cases p with
  | none => rfl
  | some p =>
    show Json.field (if _ then _ else _) j = _
    split_ifs
    · rw [field_setItem, if_neg h]
    · rfl

/-- The outputs in the reply. -/
theorem field_outputs (h : ("outputs" : Str) ∉ r.operation.map Prod.fst) :
    Json.field (resultOf r utxos) "outputs" =
      some (.list ((utxos.take utxoLimit).map ofOutput)) := by
  have hbase : Json.field (update [("identifier", .str r.identifier), ("reqId", .int r.reqId),
      ("outputs", .list ((utxos.take utxoLimit).map ofOutput))] r.operation) "outputs" =
      some (.list ((utxos.take utxoLimit).map ofOutput)) := (field_update h).trans rfl
  unfold resultOf
  cases nextSeqno utxos with
  | none => exact hbase
  | some n =>
    simp only
    split_ifs
    · rw [field_setItem, if_neg (by decide)]; exact hbase
    · exact hbase

/-- Where the next page starts, in the reply; numbers start at 1. -/
theorem field_next (h : ("next" : Str) ∉ r.operation.map Prod.fst)
    (hpos : ∀ o ∈ utxos, o.seqNo.val ≠ 0) : Json.field (resultOf r utxos) "next" =
      (utxos[utxoLimit]?).map fun o => ofPyInt o.seqNo := by
  have hbase : Json.field (update [("identifier", .str r.identifier), ("reqId", .int r.reqId),
      ("outputs", .list ((utxos.take utxoLimit).map ofOutput))] r.operation) "next" = none :=
    (field_update h).trans rfl
  unfold resultOf nextSeqno
  by_cases hlt : utxoLimit < utxos.length
  · have hne := hpos _ (List.getElem_mem hlt)
    simp only [hlt, if_true, List.getElem?_eq_getElem, Option.map_some, hne, ne_eq,
      not_false_eq_true, field_setItem]
  · rw [if_neg hlt, List.getElem?_eq_none (not_lt.mp hlt)]
    exact hbase

theorem startAt_subset (utxos : List Output) (start : Option PyInt) : startAt utxos start ⊆ utxos := by
  unfold startAt startFrom
  split
  · split_ifs
    · split
      · split_ifs
        · exact List.drop_subset _ _
        · exact List.nil_subset _
      · exact List.nil_subset _
    · exact List.Subset.refl _
  · exact List.Subset.refl _

/-! ### The reply for one address -/

section Address
variable {state : P.state.Carrier} {U : List (ℕ × PyInt)} {reply : List (Str × Json)}

/-- A reply is made from the outputs that the loop gives. -/
theorem getResult_eq_ok_iff (h : Json.field r.operation "address" = some (.str address)) :
    getResult N state r = .ok reply ↔ ∃ L,
      addOutputs (N.reads.entries (P.state.headHash state) address) [] = .ok L ∧
      reply = attach N (resultOf r (startAt L ((Json.field r.operation "from").bind Json.asInt)))
        (stateProof N state address) := by
  unfold getResult
  rw [getItem_eq_ok.mpr h]
  simp only [bind, Except.bind, Messages.Fields.asStr, Option.getD_some]
  rcases addOutputs (N.reads.entries (P.state.headHash state) address) [] with e | L
  · simp
  · simp [eq_comm]

/-- **The reply**, where no other stored address begins with the one asked for. -/
theorem getResult_eq_ok (hm : TokenState (P.state.lookup (P.state.headHash state)))
    (hcolon : ':' ∉ address) (halone : Alone (P.state.lookup (P.state.headHash state)) address)
    (hU : Holding (P.state.lookup (P.state.headHash state)) address U)
    (hop : r.operation = operation address start) :
    getResult N state r = .ok reply ↔ Readable U ∧
      reply = attach N (resultOf r (startAt (listed address U) start)) (stateProof N state address) := by
  rw [getResult_eq_ok_iff (by rw [hop]; exact field_address), hop, field_from]
  simp only [addOutputs_eq_listed hm (entriesOf_entries N.reads _ address) hcolon halone hU]
  constructor
  · rintro ⟨_, ⟨hr, rfl⟩, rfl⟩; exact ⟨hr, rfl⟩
  · rintro ⟨hr, rfl⟩; exact ⟨_, ⟨hr, rfl⟩, rfl⟩

/-- The numbers of the outputs listed start at 1. -/
theorem seqNo_ne_zero {m : Str → Option Str} (hm : TokenState m) (hU : Holding m address U)
    {W : List (ℕ × PyInt)} (hW : W ⊆ U) : ∀ o ∈ listed address W, o.seqNo.val ≠ 0 := by
  intro o ho
  obtain ⟨⟨n, x⟩, hp, rfl⟩ := List.mem_map.mp ho
  obtain ⟨a, n', -, hn', hkey, -⟩ := hm.entry _ _ ((hU.mem n x).mp (hW hp))
  obtain ⟨-, hn⟩ := createStateKey_inj hkey
  have : n = n' := by simpa using hn
  simp [outputOf]
  omega

theorem since_subset (start : Option PyInt) (U : List (ℕ × PyInt)) : since start U ⊆ U := by
  cases start with
  | none => exact List.Subset.refl _
  | some f => exact List.filter_subset_self _

theorem startAt_of_startsInside (h : Ascending Prod.fst U) (hs : StartsInside start U)
    (hpos : ∀ f ∈ start, 1 ≤ f.val) :
    startAt (listed address U) start = listed address (since start U) := by
  cases start with
  | none => rfl
  | some f =>
    have hne : f.val ≠ 0 := by have := hpos f rfl; omega
    rw [startAt, if_pos hne, startFrom_eq h]
    rcases hs f rfl with hnil | hin
    · simp [hnil, listed]
    · rw [if_pos hin]

/-- A page that starts at the first output of the address, or before it, is empty. -/
theorem startAt_of_not_startsInside (h : Ascending Prod.fst U) (hs : ¬StartsInside start U)
    (hpos : ∀ f ∈ start, 1 ≤ f.val) :
    startAt (listed address U) start = [] ∧ since start U ≠ [] := by
  cases start with
  | none => exact absurd (by rintro f ⟨⟩) hs
  | some f =>
    have hne : f.val ≠ 0 := by have := hpos f rfl; omega
    have hno : since (some f) U ≠ [] ∧ ¬∃ p ∈ U, (p.1 : ℤ) < f.val := by
      rw [← not_or]
      exact fun ho => hs fun g hg => Option.mem_some_iff.mp hg ▸ ho
    rw [startAt, if_pos hne, startFrom_eq h, if_neg hno.2]
    exact ⟨rfl, hno.1⟩

end Address

end TokenPlugin.Token.Replies
