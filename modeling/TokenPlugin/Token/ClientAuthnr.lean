import TokenPlugin.Messages.Fields

/-! # `TokenAuthNr` and `FeesAuthNr`

Every input of a payment is signed together with all its outputs, and with what else belongs to the
payment: `extra` and the author agreement of a transfer, the payload digest of the request that a fee
section is part of. The two authenticators share one verifier. -/

namespace TokenPlugin.Token.ClientAuthnr

open Python Token.Types Messages.Fields

variable (P : Platform)

/-- `new_data`: what is signed for one input. -/
def newData (inp outputs : Json) (extraFieldsForSigning : List Json) : List Json :=
  [inp, outputs] ++ extraFieldsForSigning

/-- `address_to_verkey`. -/
def addressToVerkey (address : Json) : Except PyErr Str :=
  match address with
  | .str a =>
    match P.b58decodeCheck a with
    | some vkBytes => .ok (P.b58encode vkBytes)
    | none => .error ⟨.unknownIdentifier, a ++ (" is not a valid base58check value" : Str)⟩
  | _ => .error ⟨.typeError, "argument should be a bytes-like object or ASCII string"⟩

/-- `base58.b58decode(sig)`; whatever it raises is raised as another exception. -/
def decodeSig (sig : Json) : Except PyErr (List UInt8) :=
  match (asStr sig).bind P.b58decode with
  | some b => .ok b
  | none => .error ⟨.invalidSignatureFormat, []⟩

/-- `inp[ADDRESS]`. -/
def addressOf : Json → Except PyErr Json
  | .obj l => getItem l "address"
  | _ => .error ⟨.typeError, "indices must be integers"⟩

/-- A verifier: key, signature, message. -/
abbrev Verifier : Type := Str → List UInt8 → List UInt8 → Bool

/-- The addresses whose signature is correct, input by input. `address_to_verkey` raises no
`ValueError`, so that no input is passed over. -/
def correctSigsFrom (verifier : Verifier) (outputs : Json) (extraFieldsForSigning : List Json) :
    List (Json × Json) → Except PyErr (List Json)
  | [] => .ok []
  | (inp, sig) :: l => do
    let sigDecoded ← decodeSig P sig
    let idr ← addressOf inp
    let ser := P.serializeMsgForSigning (newData inp outputs extraFieldsForSigning)
    let verkey ← addressToVerkey P idr
    let rest ← correctSigsFrom verifier outputs extraFieldsForSigning l
    .ok (if verifier verkey sigDecoded ser then idr :: rest else rest)

/-- `verify_signtures_on_payments`. -/
def verifySignturesOnPayments (inputs outputs signatures : Json) (verifier : Verifier)
    (extraFieldsForSigning : List Json) : Except PyErr (List Json) :=
  match items inputs, items signatures with
  | some is, some sigs => do
    let correct ← correctSigsFrom P verifier outputs extraFieldsForSigning (is.zip sigs)
    if correct.length ≠ is.length then
      .error ⟨.insufficientCorrectSignatures, Lib.Text.intText is.length ++
        (" signatures are required, " : Str) ++ Lib.Text.intText correct.length ++
        (" are correct" : Str)⟩
    else .ok correct
  | _, _ => .error ⟨.typeError, "zip argument must support iteration"⟩

/-- The `extra_fields` of a transfer: what is falsy is not signed. -/
def extraFields (extra taaAcceptance : Json) : List Json :=
  (if extra.truthy then [extra] else []) ++ if taaAcceptance.truthy then [taaAcceptance] else []

/-- `TokenAuthNr.authenticate_xfer`, given the operation and the `taaAcceptance` of a request. -/
def authenticateXfer (op : List (Str × Json)) (taaAcceptance : Option Json) (verifier : Verifier) :
    Except PyErr (List Json) := do
  let inputs ← getItem op "inputs"
  let outputs ← getItem op "outputs"
  let signatures ← getItem op "signatures"
  verifySignturesOnPayments P inputs outputs signatures verifier
    (extraFields ((Json.field op "extra").getD .null) (taaAcceptance.getD .null))

/-- `FeesAuthNr.verify_signature`, given the `fees` of a request, if it has any, and its payload
digest. -/
def verifySignature (fees : Option Json) (payloadDigest : Str) : Except PyErr Unit :=
  match fees with
  | none => .ok ()
  | some (.list (inputs :: outputs :: signatures :: _)) => do
    let _ ← verifySignturesOnPayments P inputs outputs signatures P.verify [.str payloadDigest]
    .ok ()
  | some _ => .error ⟨.indexError, "list index out of range"⟩

end TokenPlugin.Token.ClientAuthnr
