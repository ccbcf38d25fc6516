import TokenPlugin.Reference
import TokenPlugin.Token.ClientAuthnr

/-! # What a payment signature covers

The parts that are signed beside input and outputs are appended one after the other, and only when they
are truthy. So two payments of the same input and outputs may have one signed content, and this section
says which. -/

namespace TokenPlugin.Properties.SignedContent

open Python Token.ClientAuthnr Reference

/-- What is signed beside an input and the outputs: `extra` and `taaAcceptance` of a transfer, null
where they are missing, and the payload digest of a request with a fee section. -/
inductive Payment
  | xfer (extra taaAcceptance : Json)
  | fees (payloadDigest : Str)

/-- The extra fields that the authenticator of the payment hands over. -/
def Payment.signedParts : Payment → List Json
  | xfer extra taaAcceptance => extraFields extra taaAcceptance
  | fees payloadDigest => [.str payloadDigest]

/-- The list that is serialized and signed. -/
def signedContent (inp outputs : Json) (p : Payment) : List Json := newData inp outputs p.signedParts

/-- The same extra and agreement of a transfer, or the same digest of a fee section. -/
def Same : Payment → Payment → Prop
  | .xfer extra taaAcceptance, .xfer extra' taaAcceptance' =>
    extra = extra' ∧ taaAcceptance = taaAcceptance'
  | .fees payloadDigest, .fees payloadDigest' => payloadDigest = payloadDigest'
  | _, _ => False

/-- Two values of which at least one is signed only if they are equal; both are left out, if they
differ. -/
def Unsigned (v w : Json) : Prop := v = w ∨ (v.truthy = false ∧ w.truthy = false)

/-- A value stands in one place alone and is signed. -/
def Alone (v other : Json) : Prop := v.truthy ∧ other.truthy = false

/-- Payments that differ in falsy values only; or in whether the one signed value is `extra` or
`taaAcceptance`; or one is a transfer whose one signed value is the digest of the other. -/
def Confusable : Payment → Payment → Prop
  | .xfer e t, .xfer e' t' =>
    (Unsigned e e' ∧ Unsigned t t' ∧ ¬(e = e' ∧ t = t')) ∨
      (Alone e t ∧ Alone t' e' ∧ e = t') ∨ (Alone t e ∧ Alone e' t' ∧ t = e')
  | .xfer e t, .fees d | .fees d, .xfer e t =>
    (Alone e t ∧ e = .str d) ∨ (Alone t e ∧ t = .str d)
  | .fees _, .fees _ => False

variable {inp outputs e t e' t' : Json} {d d' : Str} {p q : Payment}

theorem signedContent_eq : signedContent inp outputs p = signedContent inp outputs q ↔
    p.signedParts = q.signedParts := by
  unfold signedContent newData
  exact List.append_right_inj _

/-- When two transfers have one signed content. -/
theorem extraFields_xfer_eq : extraFields e t = extraFields e' t' ↔
    (Unsigned e e' ∧ Unsigned t t') ∨ (Alone e t ∧ Alone t' e' ∧ e = t') ∨
      (Alone t e ∧ Alone e' t' ∧ t = e') := by
  unfold extraFields Unsigned Alone
  cases he : e.truthy <;> cases ht : t.truthy <;> cases he' : e'.truthy <;> cases ht' : t'.truthy <;>
    simp <;> grind

/-- When a transfer has the signed content of a fee section. -/
theorem extraFields_eq_digest : extraFields e t = [.str d] ↔
    (Alone e t ∧ e = .str d) ∨ (Alone t e ∧ t = .str d) := by
  unfold extraFields Alone
  cases e.truthy <;> cases t.truthy <;> simp

/-- **What a signature covers.** Payments of one input and the same outputs with equal signed contents are
the same payment, unless they are confusable. -/
theorem same_iff : (signedContent inp outputs p = signedContent inp outputs q → Same p q) ↔
    ¬Confusable p q := by
  rw [signedContent_eq]
  rcases p with ⟨e, t⟩ | d <;> rcases q with ⟨e', t'⟩ | d' <;>
    simp only [Payment.signedParts, Same, Confusable]
  · -- a value that has moved is signed on one side and left out on the other
    have hmoved : (Alone e t ∧ Alone t' e' ∧ e = t') ∨ (Alone t e ∧ Alone e' t' ∧ t = e') →
        ¬(e = e' ∧ t = t') := by
      rintro (⟨⟨he, -⟩, ⟨-, he'⟩, -⟩ | ⟨⟨-, he⟩, ⟨he', -⟩, -⟩) ⟨rfl, -⟩ <;> simp [he] at he'
    rw [extraFields_xfer_eq]
    tauto
  · rw [extraFields_eq_digest]
  · rw [eq_comm, extraFields_eq_digest]
  · simp

/-! ### Payments that are confused -/

/-- An input and an output of a payment. -/
def anInput : Json := .obj [("address", .str alice.address), ("seqNo", .int 1)]

def someOutputs : Json := .list [.obj [("address", .str bob.address), ("amount", .int 30)]]

/-- The text of an `extra`. -/
def note : Json := .obj [("aaa", .str "bbb")]

/-- A note may be moved from `extra` to `taaAcceptance`; a transfer whose `extra` is a payload digest has
the signed content of a fee section; and an empty `extra` may be dropped. -/
theorem not_same :
    (signedContent anInput someOutputs (.xfer note .null) =
        signedContent anInput someOutputs (.xfer .null note) ∧ ¬Same (.xfer note .null) (.xfer .null note)) ∧
    (signedContent anInput someOutputs (.xfer (.str payloadDigest) .null) =
        signedContent anInput someOutputs (.fees payloadDigest) ∧
      ¬Same (.xfer (.str payloadDigest) .null) (.fees payloadDigest)) ∧
    (signedContent anInput someOutputs (.xfer (.str []) .null) =
        signedContent anInput someOutputs (.xfer .null .null) ∧
      ¬Same (.xfer (.str []) .null) (.xfer .null .null)) := by
  refine ⟨⟨rfl, ?_⟩, ⟨rfl, ?_⟩, rfl, ?_⟩
  · rintro ⟨h, -⟩
    cases h
  · exact id
  · rintro ⟨h, -⟩
    cases h

end TokenPlugin.Properties.SignedContent
