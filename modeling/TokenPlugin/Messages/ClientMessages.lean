import TokenPlugin.Messages.FieldErrors
import TokenPlugin.Properties.Authentication
import TokenPlugin.Steps

/-! # Client messages

What a message for one of the two ledgers goes through before it is ordered: the plugin's field of a
client request, the static validation of the handler of its type, the signatures of the fee section, and
the authenticator of its type. `accept` is all of it, `read` is the request that the handlers then work
with. plenum and indy-node check more, so that more messages are let in here; the authenticator of
indy-node is a parameter. -/

namespace TokenPlugin.Messages.ClientMessages

open Python Token.Types Steps Messages.Fields Messages.FieldErrors Token.ClientAuthnr Properties.Authentication

variable (P : Platform)

/-- A message of a client. `fees` and `taaAcceptance` are `none` where the attribute is missing. -/
structure ClientMessage where
  identifier : Str
  reqId : ℤ
  operation : List (Str × Json)
  fees : Option Json
  taaAcceptance : Option Json
  /-- The signatures of the message itself, one per identifier. -/
  sigs : List (Str × Json)
  payloadDigest : Str

/-! ### Validation -/

/-- `CLIENT_REQUEST_FIELDS` of sovtokenfees: a `TxnFeesField` that may be missing or null. -/
def clientRequestFields (fees : Option Json) : Verdict :=
  match fees with
  | none | some .null => valid
  | some v => txnFeesField P v

/-- `txn_mint_public_validate`, and what `MintHandler.static_validation` makes of it. -/
def mintStaticValidation (op : List (Str × Json)) : Except PyErr Unit := do
  match ← outputsValidate P op with
  | some error => .error ⟨.invalidClientRequest, error⟩
  | none => do
    let outputs ← getItem op "outputs"
    let n ← pyLen outputs
    if n = 0 then .error ⟨.invalidClientRequest, "Outputs for a mint request can't be empty."⟩
    else .ok ()

/-- `static_validation` of the handlers of the two ledgers; that of `DomainFeeHandler` passes. -/
def staticValidation (op : List (Str × Json)) : Except PyErr Unit := do
  let typ ← getItem op "type"
  if typ = .str mintPublic then mintStaticValidation P op
  else if typ = .str xferPublic then xferStaticValidation P op
  else .ok ()

/-! ### Authentication -/

/-- `TokenAuthNr.authenticate`; a type that is not its own is not verified. -/
def authenticate (core : ClientMessage → Except PyErr (List Json)) (m : ClientMessage) :
    Except PyErr (Option (List Json)) := do
  let typ ← getItem m.operation "type"
  if typ = .str mintPublic then (core m).map some
  else if typ = .str xferPublic then
    (authenticateXfer P m.operation m.taaAcceptance P.verify).map some
  else .ok none

/-- plenum asks the authenticator of the type, which may return nothing. -/
def clientAuthNr (core : ClientMessage → Except PyErr (List Json)) (m : ClientMessage) :
    Except PyErr (List Json) := do
  let typ ← getItem m.operation "type"
  if typ = .str mintPublic ∨ typ = .str xferPublic then
    (authenticate P core m).map fun identifiers => identifiers.getD []
  else core m

/-- A message is let in: its fields, its static validation, `FeesAuthNr.verify_signature` on
`PreSigVerification`, and its authentication. -/
def accept (core : ClientMessage → Except PyErr (List Json)) (m : ClientMessage) : Except PyErr Unit := do
  match ← clientRequestFields P m.fees with
  | some error => .error ⟨.invalidClientRequest, error⟩
  | none => do
    staticValidation P m.operation
    verifySignature P m.fees m.payloadDigest
    let _ ← clientAuthNr P core m
    .ok ()

/-! ### Reading -/

/-- The mint that an operation stands for. -/
def readMint (op : List (Str × Json)) : Option Operation := do
  let outputs ← (Json.field op "outputs").bind (readAll readOutput)
  some (.mint outputs)

/-- The operation, if it is one of a type that moves tokens or pays fees. -/
def readOperation (op : List (Str × Json)) : Option Operation := do
  let typ ← (Json.field op "type").bind asStr
  if typ = mintPublic then readMint op
  else if typ = xferPublic then readXfer op
  else if typ ∈ P.domainTypes then some (.domain typ)
  else none

/-- The fee section, which may be missing or null. -/
def readFeesField (fees : Option Json) : Option (Option FeesSection) :=
  match fees with
  | none | some .null => some none
  | some v => (readFees v).map some

/-- The request that a message stands for. -/
def ClientMessage.read (m : ClientMessage) : Option Request := do
  let op ← readOperation P m.operation
  let fees ← readFeesField m.fees
  some ⟨m.identifier, m.reqId, op, fees, m.sigs, m.payloadDigest⟩

/-! ### What is let in -/

variable {P}

/-- The payment is signed, input by input, with the extra fields. -/
def SignedPayment (P : Platform) (inputs outputs signatures : Json) (extra : List Json) : Prop :=
  ∃ is sigs, items inputs = some is ∧ items signatures = some sigs ∧
    FullySigned P P.verify outputs extra is sigs

/-- The key that an address stands for accepts a signature of the content. -/
def SignedBy (P : Platform) (address : Str) (content : List Json) : Prop :=
  ∃ key sig, P.b58decodeCheck address = some key ∧
    P.verify (P.b58encode key) sig (P.serializeMsgForSigning content) = true

theorem addressToVerkey_eq_ok {a verkey : Str} : addressToVerkey P (.str a) = .ok verkey ↔
    ∃ key, P.b58decodeCheck a = some key ∧ P.b58encode key = verkey := by
  unfold addressToVerkey
  cases hd : P.b58decodeCheck a with
  | none => simp [hd]
  | some key => simp [hd]

theorem addressOf_of_readInput {v : Json} {i : Input} (h : readInput v = some i) :
    addressOf v = .ok (.str i.address) := by
  obtain ⟨p, hp, rfl⟩ := Option.map_eq_some_iff.mp h
  unfold readPair at hp
  simp only [Option.bind_eq_bind, Option.bind_eq_some_iff, Option.some.injEq] at hp
  obtain ⟨m, hm, a, ⟨w, hw, ha⟩, n, -, rfl⟩ := hp
  obtain rfl := asObj_eq_some.mp hm
  obtain rfl := asStr_eq_some.mp ha
  exact getItem_eq_ok.mpr hw

/-- Where an input that can be read is signed, its address has signed it. -/
theorem signedBy_of_signed {inp sig outputs : Json} {extra : List Json} {i : Input}
    (hi : readInput inp = some i) (h : Signed P P.verify outputs extra inp sig) :
    SignedBy P i.address (newData inp outputs extra) := by
  obtain ⟨b, idr, verkey, -, hidr, hkey, hv⟩ := h
  obtain rfl := Except.ok.inj (hidr.symm.trans (addressOf_of_readInput hi))
  obtain ⟨key, hk, rfl⟩ := addressToVerkey_eq_ok.mp hkey
  exact ⟨key, b, hk, hv⟩

/-- A payment that is verified is signed. -/
theorem signedPayment_of_verified {inputs outputs signatures : Json} {extra r : List Json}
    (h : verifySignturesOnPayments P inputs outputs signatures P.verify extra = .ok r) :
    SignedPayment P inputs outputs signatures extra := by
  unfold verifySignturesOnPayments at h
  cases hin : items inputs with
  | none => simp [hin] at h
  | some is =>
    cases hsig : items signatures with
    | none => simp [hin, hsig] at h
    | some sigs =>
      cases hc : correctSigsFrom P P.verify outputs extra (is.zip sigs) with
      | error e => simp [hin, hsig, hc, bind, Except.bind] at h
      | ok correct =>
        simp only [hin, hsig, hc, bind, Except.bind] at h
        split_ifs at h with hlen
        rw [ne_eq, not_not] at hlen
        -- as many are counted as there are inputs, so there is a signature for each
        have hle := length_correctSigsFrom_le hc
        rw [hlen, List.length_zip] at hle
        have hle' : is.length ≤ sigs.length := hle.trans (Nat.min_le_right _ _)
        have hcount : correct.length = (is.zip sigs).length := by
          rw [hlen, List.length_zip, Nat.min_eq_left hle']
        exact ⟨is, sigs, hin, hsig, hle',
          (forall_mem_zip_iff hle').mp (correctSigsFrom_eq_ok_iff.mp ⟨hc, hcount⟩).1⟩

/-- The inputs of a payment, as they are read, with the outputs and what else is signed. -/
structure OwnersSigned (P : Platform) (ins : List Input) (outs : List OutputSpec) (outputs : Json)
    (extra : List Json) : Prop where
  pays : readAll readOutput outputs = some outs
  signed : ∀ i ∈ ins, ∃ inp, readInput inp = some i ∧ SignedBy P i.address (newData inp outputs extra)

/-- **Each input of a signed payment is signed by its address.** -/
theorem ownersSigned_of_payment {inputs outputs signatures : Json} {extra : List Json} {ins : List Input}
    {outs : List OutputSpec} (h : SignedPayment P inputs outputs signatures extra)
    (hi : readAll readInput inputs = some ins) (ho : readAll readOutput outputs = some outs) :
    OwnersSigned P ins outs outputs extra := by
  refine ⟨ho, fun i hmem => ?_⟩
  obtain ⟨is, sigs, his, -, hle, hall⟩ := h
  obtain ⟨l, hl, hm⟩ := Option.bind_eq_some_iff.mp hi
  obtain rfl := asList_eq_some.mp hl
  obtain rfl : l = is := Option.some.inj his
  obtain ⟨k, hk, rfl⟩ := List.mem_iff_getElem.mp hmem
  have hlen := length_of_mapM hm
  have hkl : k < l.length := hlen ▸ hk
  have hread : readInput l[k] = some ins[k] := (List.forall₂_iff_get.mp (mapM_eq_some.mp hm)).2 k hkl hk
  exact ⟨l[k], hread, signedBy_of_signed hread (hall k hkl (hkl.trans_le hle))⟩

/-! ### Messages that were let in -/

variable {core : ClientMessage → Except PyErr (List Json)} {m : ClientMessage}

theorem bind_eq_ok {α β : Type} {x : Except PyErr α} {f : α → Except PyErr β} {b : β} :
    (x >>= f) = .ok b ↔ ∃ a, x = .ok a ∧ f a = .ok b := by
  cases x <;> simp [bind, Except.bind]

/-- What a message that was let in has gone through. -/
theorem passed_of_accept (h : accept P core m = .ok ()) : clientRequestFields P m.fees = valid ∧
    staticValidation P m.operation = .ok () ∧ verifySignature P m.fees m.payloadDigest = .ok () ∧
    ∃ identifiers, clientAuthNr P core m = .ok identifiers := by
  unfold accept at h
  obtain ⟨verdict, hverdict, h⟩ := bind_eq_ok.mp h
  cases verdict with
  | some error => cases h
  | none =>
    obtain ⟨_, hstatic, h⟩ := bind_eq_ok.mp h
    obtain ⟨_, hfees, h⟩ := bind_eq_ok.mp h
    obtain ⟨identifiers, hauth, -⟩ := bind_eq_ok.mp h
    exact ⟨hverdict, hstatic, hfees, identifiers, hauth⟩

theorem readMint_eq_some {op : List (Str × Json)} {o : Operation} : readMint op = some o ↔
    ∃ v outs, Json.field op "outputs" = some v ∧ readAll readOutput v = some outs ∧ o = .mint outs := by
  unfold readMint
  simp only [Option.bind_eq_bind, Option.bind_eq_some_iff, Option.some.injEq]
  constructor
  · rintro ⟨outs, ⟨v, hv, ho⟩, rfl⟩
    exact ⟨v, outs, hv, ho, rfl⟩
  · rintro ⟨v, outs, hv, ho, rfl⟩
    exact ⟨outs, ⟨v, hv, ho⟩, rfl⟩

theorem readFeesField_eq_some {fees : Option Json} {s : FeesSection} :
    readFeesField fees = some (some s) ↔ ∃ v, fees = some v ∧ readFees v = some s := by
  constructor
  · intro h
    cases fees with
    | none => cases h
    | some v =>
      refine ⟨v, rfl, ?_⟩
      cases v with
      | null => simp [readFeesField] at h
      | bool | int | float | str | list | obj =>
        simpa [readFeesField] using h
  · rintro ⟨v, rfl, hs⟩
    cases v with
    | null => cases hs
    | bool | int | float | str | list | obj => simp [readFeesField, hs]

/-- What a request that is read has from its message. -/
structure Reads (P : Platform) (m : ClientMessage) (r : Request) : Prop where
  operation : readOperation P m.operation = some r.operation
  fees : readFeesField m.fees = some r.fees
  reqId : r.reqId = m.reqId
  payloadDigest : r.payloadDigest = m.payloadDigest

theorem reads_of_read {r : Request} (h : m.read P = some r) : Reads P m r := by
  unfold ClientMessage.read at h
  simp only [Option.bind_eq_bind, Option.bind_eq_some_iff, Option.some.injEq] at h
  obtain ⟨op, hop, fees, hfees, rfl⟩ := h
  exact ⟨hop, hfees, rfl, rfl⟩

theorem outputs_of_mint {op : List (Str × Json)} {outs : List OutputSpec}
    (h : readOperation P op = some (.mint outs)) : ∃ v, readAll readOutput v = some outs := by
  unfold readOperation at h
  simp only [Option.bind_eq_bind, Option.bind_eq_some_iff] at h
  obtain ⟨typ, -, h⟩ := h
  split_ifs at h with h₁ h₂ h₃
  · obtain ⟨v, outs, -, hv, ho⟩ := readMint_eq_some.mp h
    obtain rfl := Operation.mint.inj ho
    exact ⟨v, hv⟩
  · unfold readXfer at h
    simp only [Option.bind_eq_bind, Option.bind_eq_some_iff, Option.some.injEq, reduceCtorEq, and_false,
      exists_false] at h
  · cases h

/-- A mint that static validation lets through. -/
theorem validOutputs_of_mint {op : List (Str × Json)} {outs : List OutputSpec}
    (h : mintStaticValidation P op = .ok ()) (hr : readMint op = some (.mint outs)) :
    ValidOutputs P outs ∧ outs ≠ [] := by
  obtain ⟨v, outs, hv, ho, hop⟩ := readMint_eq_some.mp hr
  obtain rfl := Operation.mint.inj hop
  unfold mintStaticValidation at h
  obtain ⟨verdict, hverdict, h⟩ := bind_eq_ok.mp h
  cases verdict with
  | some error => cases h
  | none =>
    obtain ⟨w, hw, hvalid⟩ := bind_eq_valid.mp hverdict
    obtain rfl := Option.some.inj ((needItem_eq_ok.mp hw).symm.trans hv)
    obtain ⟨os, hos, hok, -⟩ := publicOutputsField_eq_valid.mp hvalid
    obtain rfl := Option.some.inj (hos.symm.trans ho)
    refine ⟨hok, ?_⟩
    rintro rfl
    obtain ⟨u, hu, h⟩ := bind_eq_ok.mp h
    obtain rfl := Option.some.inj ((getItem_eq_ok.mp hu).symm.trans hv)
    obtain ⟨l, hl, hm⟩ := Option.bind_eq_some_iff.mp ho
    obtain rfl := asList_eq_some.mp hl
    obtain rfl : l = [] := List.length_eq_zero_iff.mp (length_of_mapM hm).symm
    cases h

/-- **A request that was let in** meets the conditions under which plenum applies it. -/
theorem staticOk_of_accept (h : accept P core m = .ok ()) {r : Request} (hr : m.read P = some r) :
    StaticOk P r := by
  obtain ⟨hfields, hstatic, -, -⟩ := passed_of_accept h
  obtain ⟨hop, hfees, -, -⟩ := reads_of_read hr
  constructor
  · unfold readOperation at hop
    simp only [Option.bind_eq_bind, Option.bind_eq_some_iff] at hop
    obtain ⟨typ, ⟨v, hv, hstr⟩, hop⟩ := hop
    obtain rfl := asStr_eq_some.mp hstr
    unfold staticValidation at hstatic
    simp only [getItem_eq_ok.mpr hv, bind, Except.bind, Json.str.injEq] at hstatic
    split_ifs at hop with h₁ h₂ h₃
    · rw [if_pos h₁] at hstatic
      obtain ⟨-, outs, -, -, ho⟩ := readMint_eq_some.mp hop
      rw [ho] at hop ⊢
      exact validOutputs_of_mint hstatic hop
    · rw [if_neg h₁, if_pos h₂] at hstatic
      obtain ⟨ins, outs, sigs, hx, hvalid⟩ := xferStaticValidation_eq_ok.mp hstatic
      rw [← Option.some.inj (hx.symm.trans hop)]
      exact hvalid
    · rw [← Option.some.inj hop]
      exact h₃
  · cases hf : r.fees with
    | none => trivial
    | some s =>
      rw [hf] at hfees
      obtain ⟨v, hv, hs⟩ := readFeesField_eq_some.mp hfees
      rw [hv] at hfields
      have hvalid : txnFeesField P v = valid := by
        cases v <;> first | exact hfields | cases hs
      obtain ⟨s', hs', hok⟩ := txnFeesField_eq_valid.mp hvalid
      obtain rfl := Option.some.inj (hs'.symm.trans hs)
      exact hok

/-- The type of an operation that is read as a transfer. -/
theorem readXfer_of_readOperation {op : List (Str × Json)} {ins : List Input} {outs : List OutputSpec}
    {sigs : List Json} (h : readOperation P op = some (.xfer ins outs sigs)) :
    Json.field op "type" = some (.str xferPublic) ∧ readXfer op = some (.xfer ins outs sigs) := by
  unfold readOperation at h
  simp only [Option.bind_eq_bind, Option.bind_eq_some_iff] at h
  obtain ⟨typ, ⟨v, hv, hstr⟩, h⟩ := h
  obtain rfl := asStr_eq_some.mp hstr
  split_ifs at h with h₁ h₂ h₃
  · obtain ⟨v, outs', -, -, ho⟩ := readMint_eq_some.mp h
    cases ho
  · subst h₂
    exact ⟨hv, h⟩
  · cases h

/-- **A transfer that was let in** is signed by the addresses of its inputs, over the outputs, `extra`
and the author agreement. -/
theorem ownersSigned_of_xfer (h : accept P core m = .ok ()) {ins : List Input} {outs : List OutputSpec}
    {sigs : List Json} (hr : readOperation P m.operation = some (.xfer ins outs sigs)) :
    ∃ outputs, OwnersSigned P ins outs outputs (extraFields ((Json.field m.operation "extra").getD .null)
      (m.taaAcceptance.getD .null)) := by
  obtain ⟨-, -, -, identifiers, hauth⟩ := passed_of_accept h
  obtain ⟨htype, hr⟩ := readXfer_of_readOperation hr
  have htyp := getItem_eq_ok.mpr htype
  have hmint : (Json.str xferPublic) ≠ .str mintPublic := by decide
  unfold clientAuthNr authenticate at hauth
  simp only [htyp, bind, Except.bind, hmint, false_or, if_true, if_false] at hauth
  unfold readXfer at hr
  simp only [Option.bind_eq_bind, Option.bind_eq_some_iff, Option.some.injEq, Operation.xfer.injEq] at hr
  obtain ⟨_, ⟨vi, hvi, hi⟩, _, ⟨vo, hvo, ho⟩, _, ⟨vs, hvs, -⟩, rfl, rfl, -⟩ := hr
  cases hx : authenticateXfer P m.operation m.taaAcceptance P.verify with
  | error e => simp [hx, Except.map] at hauth
  | ok r =>
    unfold authenticateXfer at hx
    simp only [getItem_eq_ok.mpr hvi, getItem_eq_ok.mpr hvo, getItem_eq_ok.mpr hvs, bind, Except.bind] at hx
    exact ⟨vo, ownersSigned_of_payment (signedPayment_of_verified hx) hi ho⟩

/-- **A fee section that was let in** is signed by the addresses of its inputs, over the change and the
payload digest of the message. -/
theorem ownersSigned_of_fees (h : accept P core m = .ok ()) {s : FeesSection}
    (hr : readFeesField m.fees = some (some s)) :
    ∃ outputs, OwnersSigned P s.inputs s.outputs outputs [.str m.payloadDigest] := by
  obtain ⟨-, -, hfees, -⟩ := passed_of_accept h
  obtain ⟨v, hv, hread⟩ := readFeesField_eq_some.mp hr
  rw [hv] at hfees
  unfold readFees at hread
  split at hread
  · next inputs outputs signatures =>
    simp only [Option.bind_eq_bind, Option.bind_eq_some_iff, Option.some.injEq] at hread
    obtain ⟨ins, hi, outs, ho, sigs, -, rfl⟩ := hread
    unfold verifySignature at hfees
    obtain ⟨r, hr, -⟩ := bind_eq_ok.mp hfees
    exact ⟨outputs, ownersSigned_of_payment (signedPayment_of_verified hr) hi ho⟩
  · cases hread

end TokenPlugin.Messages.ClientMessages
