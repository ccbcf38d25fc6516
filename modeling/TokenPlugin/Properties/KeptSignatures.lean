import TokenPlugin.Reference

/-! # The payment signatures in the ledger

A transfer appends one entry to its signatures for each input. The signatures of a fee section go through
a map from addresses, which has room for one signature of an address. -/

namespace TokenPlugin.Properties.KeptSignatures

open Python Token.Types Token.Handlers Messages.Fields Database Node Steps Effects
open Fees.DomainFeeHandler Lib.Program Reference

variable {P : Platform} {inputs : List Input} {signatures : List Json} {txn : TokenTxn}

/-- What inputs are spent for: a transfer, or the fee section of a domain request. -/
inductive Payment
  | xfer (inputs : List Input) (outputs : List OutputSpec) (signatures : List Json)
  | fees (s : FeesSection)

/-- The address of each input with the signature at its place. -/
def signedBy (inputs : List Input) (signatures : List Json) : List (Str × Json) :=
  (inputs.zip signatures).map fun p => (p.1.address, p.2)

def Payment.pairs : Payment → List (Str × Json)
  | xfer inputs _ signatures => signedBy inputs signatures
  | fees s => signedBy s.inputs s.signatures

/-- The payment has passed static validation. -/
def Payment.Valid (P : Platform) : Payment → Prop
  | xfer inputs outputs signatures => ValidXfer P inputs outputs signatures
  | fees s => ValidFees P s

instance : (p : Payment) → Decidable (p.Valid P)
  | .xfer inputs outputs signatures => inferInstanceAs (Decidable (ValidXfer P inputs outputs signatures))
  | .fees s => inferInstanceAs (Decidable (ValidFees P s))

/-- The transaction that is written to the token ledger for a payment. -/
inductive Writes (P : Platform) : Payment → TokenTxn → Prop
  | xfer {r : Request} {inputs : List Input} {outputs : List OutputSpec} {signatures : List Json}
      {txnTime : ℤ} {seqNo : ℕ} :
      Writes P (.xfer inputs outputs signatures) (xferTxn r inputs outputs signatures txnTime seqNo)
  | fees {r : Request} {s : FeesSection} {prev : DomainTxn} {n n' : Node P} {txn : TokenTxn}
      (hf : r.fees = some s) (happly : Returns (applyRequest r prev) n () n')
      (hlog : (P.ledger.contents n'.tokenLedger).all = (P.ledger.contents n.tokenLedger).all ++ [txn]) :
      Writes P (.fees s) txn

/-- Each pair of the payment is among the signatures of the transaction, as often as it occurs. -/
def Keeps (p : Payment) (txn : TokenTxn) : Prop := p.pairs.Subperm txn.sigs

/-- In a fee section, no address has two inputs. -/
def OneInputEach : Payment → Prop
  | .xfer _ _ _ => True
  | .fees s => (s.inputs.map Input.address).Nodup

/-! ### The map of a fee section -/

/-- One entry of the comprehension. -/
def setSig (sigs : List (Str × Json)) (p : Input × Json) : List (Str × Json) :=
  if p.1.address ∈ sigs.map Prod.fst then
    sigs.map fun e => if e.1 = p.1.address then (e.1, p.2) else e
  else sigs ++ [(p.1.address, p.2)]

theorem sigsByAddress_eq : sigsByAddress inputs signatures = (inputs.zip signatures).foldl setSig [] := rfl

theorem map_fst_setSig (sigs : List (Str × Json)) (p : Input × Json) : (setSig sigs p).map Prod.fst =
    if p.1.address ∈ sigs.map Prod.fst then sigs.map Prod.fst
    else sigs.map Prod.fst ++ [p.1.address] := by
  unfold setSig
  split_ifs
  · rw [List.map_map]
    refine List.map_congr_left fun e _ => ?_
    simp only [Function.comp]
    split_ifs <;> rfl
  · rw [List.map_append]
    rfl

/-- An address has one signature in the map. -/
theorem nodup_foldl_setSig {l : List (Input × Json)} {sigs : List (Str × Json)}
    (h : (sigs.map Prod.fst).Nodup) : ((l.foldl setSig sigs).map Prod.fst).Nodup := by
  induction l generalizing sigs with
  | nil => exact h
  | cons p l ih =>
    refine ih ?_
    rw [map_fst_setSig]
    split_ifs with hp
    · exact h
    · rw [List.nodup_append_comm]
      exact List.nodup_cons.mpr ⟨hp, h⟩

/-- Nothing is replaced where the addresses are all different. -/
theorem foldl_setSig {l : List (Input × Json)} {sigs : List (Str × Json)}
    (h : (sigs.map Prod.fst ++ l.map (·.1.address)).Nodup) :
    l.foldl setSig sigs = sigs ++ l.map fun p => (p.1.address, p.2) := by
  induction l generalizing sigs with
  | nil => simp
  | cons p l ih =>
    have hp : p.1.address ∉ sigs.map Prod.fst := fun hp =>
      (List.nodup_append.mp h).2.2 _ hp _ (by simp) rfl
    have hset : setSig sigs p = sigs ++ [(p.1.address, p.2)] := if_neg hp
    rw [List.foldl_cons, hset, ih (by simpa using h)]
    simp

/-- The map has every pair exactly when no address is repeated. -/
theorem signedBy_subperm_iff (hlen : inputs.length = signatures.length) :
    (signedBy inputs signatures).Subperm (sigsByAddress inputs signatures) ↔
      (inputs.map Input.address).Nodup := by
  have haddr : (inputs.zip signatures).map (·.1.address) = inputs.map Input.address := by
    rw [← List.map_fst_zip hlen.le, List.map_map]
    simp [List.map_fst_zip hlen.le, Function.comp_def]
  rw [sigsByAddress_eq]
  constructor
  · rintro ⟨l, hperm, hsub⟩
    have hfst : (signedBy inputs signatures).map Prod.fst = inputs.map Input.address := by
      rw [← haddr, signedBy, List.map_map]
      rfl
    rw [← hfst, ← (hperm.map Prod.fst).nodup_iff]
    have hkeys : (((inputs.zip signatures).foldl setSig []).map Prod.fst).Nodup :=
      nodup_foldl_setSig List.nodup_nil
    exact hkeys.sublist (hsub.map Prod.fst)
  · intro hn
    rw [foldl_setSig (by simpa [haddr] using hn)]
    exact (List.Perm.refl _).subperm

/-! ### The transaction -/

/-- **Which signatures are kept.** The transaction written for a valid payment has an entry for each
input, unless the payment is a fee section with two inputs of one address. -/
theorem keeps_iff {p : Payment} (hv : p.Valid P) (hw : Writes P p txn) : Keeps p txn ↔ OneInputEach p := by
  cases hw with
  | xfer => exact iff_of_true (List.sublist_append_right _ _).subperm trivial
  | @fees r s prev n n' _ hf happly hlog =>
    obtain ⟨fees, s', -, -, rfl⟩ := (returns_applyRequest hf).mp happly
    have htxn : txn = feesTxn P s prev fees (nextSeqNo n) := by
      simpa [eq_comm] using hlog
    rw [htxn]
    exact signedBy_subperm_iff hv.2.2.2

/-! ### Two inputs of one address -/

/-- A fee of 10 is set, and the first address gets 60 and 50. -/
def minted : List Action := [.config [("nym", 10)], mint 60, mint 50, .close .token]

theorem minted_isSome : (run ref minted).isSome := by decide +kernel

/-- The node after that. -/
def mintedNode : Node ref := ((run ref minted).get minted_isSome).1

/-- A fee section that spends outputs of the first address. -/
def spends (seqNos : List ℤ) (change : ℤ) (signatures : List Json) : FeesSection :=
  ⟨seqNos.map fun z => ⟨alice.address, .int z⟩, [⟨bob.address, .int change⟩], signatures⟩

/-- A NYM with the fee section. -/
def paying (s : FeesSection) : Request := request (.domain nym) (some s)

/-- The transaction of a NYM. -/
def nymTxn : DomainTxn := ⟨nym, 1, 0, 1, none⟩

/-- What is written for the fee section on that node. -/
theorem writes_of_apply {s : FeesSection} {txn : TokenTxn}
    (h : (applyRequest (paying s) nymTxn mintedNode).1 = .ok ())
    (hlog : (ref.ledger.contents (applyRequest (paying s) nymTxn mintedNode).2.tokenLedger).all =
      (ref.ledger.contents mintedNode.tokenLedger).all ++ [txn]) : Writes ref (.fees s) txn :=
  .fees rfl (returns_of_fst h) hlog

/-- The second signature of the two inputs. -/
def other : Json := .str "2"

theorem keeps_iff_one : Keeps (.fees (spends [1] 50 [.str signature]))
      (feesTxn ref (spends [1] 50 [.str signature]) nymTxn 10 3) ↔
    OneInputEach (.fees (spends [1] 50 [.str signature])) :=
  keeps_iff (P := ref) (by decide +kernel) (writes_of_apply (by decide +kernel) (by decide +kernel))

/-- The first signature of an address that pays with two outputs is lost. -/
theorem not_keeps_two : Payment.Valid ref (.fees (spends [1, 2] 100 [.str signature, other])) ∧
    Writes ref (.fees (spends [1, 2] 100 [.str signature, other]))
      (feesTxn ref (spends [1, 2] 100 [.str signature, other]) nymTxn 10 3) ∧
    ¬Keeps (.fees (spends [1, 2] 100 [.str signature, other]))
      (feesTxn ref (spends [1, 2] 100 [.str signature, other]) nymTxn 10 3) := by
  refine ⟨by decide +kernel, writes_of_apply (by decide +kernel) (by decide +kernel), ?_⟩
  intro h
  have hlen := h.length_le
  revert hlen
  decide +kernel

end TokenPlugin.Properties.KeptSignatures
