import TokenPlugin.Reference

/-! # Pages of unspent outputs

A GET_UTXO reply is the slice that was asked for, except where the slice would start at the first
output of the address. A client that follows `next` never asks for such a slice, so it gets all
outputs, each once. -/

namespace TokenPlugin.Properties.Pages

open Python Token.Types Token.TokenUtils Token.GetUtxoHandler Token.Listing Token.Replies
open Messages.Fields Lib.Paging Reference

variable {P : Platform} {N : ReadNode P} {state : P.state.Carrier} {r : ReadRequest}
  {address : Str} {start : Option PyInt} {U : List (ℕ × PyInt)}

/-- The token state at the head of a state. -/
abbrev heldAt (state : P.state.Carrier) : Str → Option Str :=
  P.state.lookup (P.state.headHash state)

/-- An unspent output, as it is written. -/
def entry (address : Str) (p : ℕ × PyInt) : Json := ofOutput (outputOf address p.1 p.2.val)

/-- The reply shows the first thousand outputs, and the number of the one after them. -/
structure IsPage (reply : List (Str × Json)) (address : Str) (W : List (ℕ × PyInt)) : Prop where
  outputs : Json.field reply "outputs" = some (.list ((W.take 1000).map (entry address)))
  next : Json.field reply "next" = (W[1000]?).map fun p => .int p.1

/-- What a reply shows of the outputs it is made from. -/
theorem isPage_attach {W : List (ℕ × PyInt)} (hm : TokenState (heldAt state))
    (hU : Holding (heldAt state) address U) (hW : W ⊆ U) (hop : r.operation = operation address start)
    (proof : Option Json) : IsPage (attach N (resultOf r (listed address W)) proof) address W := by
  constructor
  · rw [field_attach (by decide), field_outputs (by rw [hop]; exact field_operation_of_notMem (by decide))]
    simp only [listed, ← List.map_take, List.map_map]
    rfl
  · rw [field_attach (by decide), field_next (by rw [hop]; exact field_operation_of_notMem (by decide))
      (seqNo_ne_zero hm hU hW)]
    simp only [listed, List.getElem?_map, Option.map_map]
    rfl

/-- A slice that starts behind the first output is answered with its page. -/
theorem exists_page (hm : TokenState (heldAt state)) (halone : Alone (heldAt state) address)
    (hvalid : ValidAddress P address) (hpos : ∀ f ∈ start, 1 ≤ f.val)
    (hop : r.operation = operation address start) (hU : Holding (heldAt state) address U)
    (hr : Readable U) (hs : StartsInside start U) :
    ∃ reply, getResult N state r = .ok reply ∧ IsPage reply address (since start U) := by
  refine ⟨_, (getResult_eq_ok hm hvalid.colon_notMem halone hU hop).mpr ⟨hr, rfl⟩, ?_⟩
  rw [startAt_of_startsInside hU.ascending hs hpos]
  exact isPage_attach hm hU (since_subset start U) hop _

/-- **When a page is the requested slice**: no amount is a boolean, and the slice starts behind the
first output of the address, or is empty. -/
theorem page_iff (hm : TokenState (heldAt state)) (halone : Alone (heldAt state) address)
    (hop : r.operation = operation address start)
    (hstatic : staticValidation P r.operation = .ok ()) (hU : Holding (heldAt state) address U) :
    (∃ reply, getResult N state r = .ok reply ∧ IsPage reply address (since start U)) ↔
      Readable U ∧ StartsInside start U := by
  rw [hop] at hstatic
  obtain ⟨hvalid, hpos⟩ := staticValidation_eq_ok.mp hstatic
  constructor
  · rintro ⟨reply, hreply, hpage⟩
    obtain ⟨hr, rfl⟩ := (getResult_eq_ok hm hvalid.colon_notMem halone hU hop).mp hreply
    refine ⟨hr, ?_⟩
    by_contra hs
    obtain ⟨hnil, hne⟩ : startAt (listed address U) start = [] ∧ since start U ≠ [] :=
      startAt_of_not_startsInside hU.ascending hs hpos
    have hout := hpage.outputs
    rw [hnil, field_attach (by decide),
      field_outputs (by rw [hop]; exact field_operation_of_notMem (by decide))] at hout
    exact hne (by simpa using hout)
  · rintro ⟨hr, hs⟩
    exact exists_page hm halone hvalid hpos hop hU hr hs

/-! ### A state with one output -/

/-- The first address has one output, number 1 with amount 5. -/
def oneOutput : ref.state.Carrier := ([(createStateKey alice.address (.int 1), (PyInt.int 5).str)], [])

theorem heldAt_oneOutput (k : Str) : heldAt oneOutput k =
    if k = createStateKey alice.address (.int 1) then some (PyInt.int 5).str else none := by
  have hlook : heldAt oneOutput k =
      List.lookup k [(createStateKey alice.address (.int 1), (PyInt.int 5).str)] := rfl
  rw [hlook, List.lookup_cons]
  by_cases h : k = createStateKey alice.address (.int 1)
  · rw [if_pos h, show (k == _) = true by simpa using h]
  · rw [if_neg h, show (k == _) = false by simpa using h]
    rfl

theorem tokenState_oneOutput : TokenState (heldAt oneOutput) := by
  refine ⟨fun k v h => ?_⟩
  rw [heldAt_oneOutput] at h
  split_ifs at h with hk
  exact ⟨alice.address, 1, by decide, by decide, hk, Or.inr ⟨_, (Option.some.inj h).symm⟩⟩

theorem alone_oneOutput : Alone (heldAt oneOutput) alice.address := by
  intro a s h _
  rw [heldAt_oneOutput] at h
  split_ifs at h with hk
  · exact (createStateKey_inj hk).1
  · exact absurd rfl h

theorem holding_oneOutput : Holding (heldAt oneOutput) alice.address [(1, .int 5)] := by
  refine ⟨List.pairwise_singleton _ _, fun n x => ?_⟩
  rw [Unspent, heldAt_oneOutput, List.mem_singleton, Prod.mk.injEq]
  constructor
  · rintro ⟨rfl, rfl⟩; rfl
  · intro h
    split_ifs at h with hk
    refine ⟨?_, (PyInt.str_injective (Option.some.inj h)).symm⟩
    simpa using (createStateKey_inj hk).2

theorem page_iff_oneOutput :
    (∃ reply, getResult readNode oneOutput (readRequest alice.address none) = .ok reply ∧
      IsPage reply alice.address (since none [(1, .int 5)])) ↔
      Readable [(1, .int 5)] ∧ StartsInside none [(1, .int 5)] :=
  page_iff tokenState_oneOutput alone_oneOutput rfl (by decide +kernel) holding_oneOutput

/-- A page that is to start at the only output of the address comes back empty. -/
theorem not_isPage_oneOutput :
    staticValidation ref (operation alice.address (some (.int 1))) = .ok () ∧
      TokenState (heldAt oneOutput) ∧ Alone (heldAt oneOutput) alice.address ∧
      Holding (heldAt oneOutput) alice.address [(1, .int 5)] ∧
      ¬∃ reply, getResult readNode oneOutput (readRequest alice.address (some (.int 1))) = .ok reply ∧
        IsPage reply alice.address (since (some (.int 1)) [(1, .int 5)]) := by
  refine ⟨by decide +kernel, tokenState_oneOutput, alone_oneOutput, holding_oneOutput, ?_⟩
  rintro ⟨reply, hreply, hpage⟩
  have hempty : (getResult readNode oneOutput (readRequest alice.address (some (.int 1)))).map
      (Json.field · "outputs") = .ok (some (.list [])) := by decide +kernel
  rw [hreply] at hempty
  have := hpage.outputs.symm.trans (Except.ok.inj hempty)
  exact absurd this (by decide +kernel)

/-! ### The client -/

/-- A client asks for the page from a number on. -/
def ask (N : ReadNode P) (state : P.state.Carrier) (identifier : Str) (reqId : ℤ) (address : Str)
    (start : Option PyInt) : Option (List Json × Option PyInt) :=
  match staticValidation P (operation address start),
    getResult N state ⟨identifier, reqId, operation address start⟩ with
  | .ok (), .ok reply =>
    match Json.field reply "outputs" with
    | some (.list outputs) => some (outputs, (Json.field reply "next").bind Json.asInt)
    | _ => none
  | _, _ => none

variable {identifier : Str} {reqId : ℤ}

/-- A request that starts behind the first output gets the page. -/
theorem ask_eq (hm : TokenState (heldAt state)) (halone : Alone (heldAt state) address)
    (hvalid : ValidAddress P address) (hU : Holding (heldAt state) address U) (hr : Readable U)
    (hpos : ∀ f ∈ start, 1 ≤ f.val) (hs : StartsInside start U) :
    ask N state identifier reqId address start =
      some (pageOf 1000 (fun p => PyInt.int p.1) (entry address) (since start U)) := by
  have hstatic : staticValidation P (operation address start) = .ok () :=
    staticValidation_eq_ok.mpr ⟨hvalid, hpos⟩
  obtain ⟨reply, hreply, hpage⟩ := exists_page (N := N)
    (r := ⟨identifier, reqId, operation address start⟩) hm halone hvalid hpos rfl hU hr hs
  unfold ask
  rw [hstatic, hreply]
  simp only [hpage.outputs, hpage.next, pageOf]
  cases (since start U)[1000]? <;> rfl

end TokenPlugin.Properties.Pages
