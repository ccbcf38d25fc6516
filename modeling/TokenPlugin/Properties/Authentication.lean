import TokenPlugin.Token.ClientAuthnr

/-! # Which payments are authenticated

The verifier counts the correct signatures, input by input, and compares their number with that of the
inputs. No signature is correct for two inputs, and none that is missing is made up for: the count is
reached only when the signature at the place of each input is correct for it. -/

namespace TokenPlugin.Properties.Authentication

open Python Messages.Fields Token.ClientAuthnr

variable {P : Platform} {verifier : Verifier} {outputs : Json} {extraFieldsForSigning : List Json}
  {inputs signatures addresses : List Json}

variable (P verifier outputs extraFieldsForSigning) in
/-- The signature decodes, the address of the input decodes to a key, and the verifier of that key accepts
the signature over the input, the outputs and the extra fields. -/
def Signed (inp sig : Json) : Prop :=
  ∃ sigDecoded idr verkey, decodeSig P sig = .ok sigDecoded ∧ addressOf inp = .ok idr ∧
    addressToVerkey P idr = .ok verkey ∧
    verifier verkey sigDecoded (P.serializeMsgForSigning (newData inp outputs extraFieldsForSigning)) = true

variable (P verifier outputs extraFieldsForSigning) in
/-- Each input has a signature at its place that is correct for it. -/
def FullySigned (inputs signatures : List Json) : Prop :=
  inputs.length ≤ signatures.length ∧ ∀ i (hi : i < inputs.length) (hs : i < signatures.length),
    Signed P verifier outputs extraFieldsForSigning inputs[i] signatures[i]

/-! ### The loop -/

/-- One turn: what decodes, and whose signature is counted. -/
theorem correctSigsFrom_cons {inp sig : Json} {l : List (Json × Json)} {r : List Json} :
    correctSigsFrom P verifier outputs extraFieldsForSigning ((inp, sig) :: l) = .ok r ↔
      ∃ sigDecoded idr verkey rest, decodeSig P sig = .ok sigDecoded ∧ addressOf inp = .ok idr ∧
        addressToVerkey P idr = .ok verkey ∧
        correctSigsFrom P verifier outputs extraFieldsForSigning l = .ok rest ∧
        r = if verifier verkey sigDecoded
          (P.serializeMsgForSigning (newData inp outputs extraFieldsForSigning)) then idr :: rest
          else rest := by
  rw [correctSigsFrom]
  cases decodeSig P sig with
  | error e => simp [bind, Except.bind]
  | ok b =>
    cases addressOf inp with
    | error e => simp [bind, Except.bind]
    | ok idr =>
      cases hk : addressToVerkey P idr with
      | error e => simp [bind, Except.bind, hk]
      | ok verkey =>
        cases correctSigsFrom P verifier outputs extraFieldsForSigning l with
        | error e => simp [bind, Except.bind, hk]
        | ok rest =>
          simp only [bind, Except.bind, hk]
          constructor
          · intro h
            exact ⟨b, idr, verkey, rest, rfl, rfl, hk, rfl, (Except.ok.inj h).symm⟩
          · rintro ⟨_, _, _, _, ⟨⟩, ⟨⟩, hk', ⟨⟩, rfl⟩
            cases hk.symm.trans hk'
            rfl

/-- A signature is counted at most once. -/
theorem length_correctSigsFrom_le {l : List (Json × Json)} {r : List Json}
    (h : correctSigsFrom P verifier outputs extraFieldsForSigning l = .ok r) : r.length ≤ l.length := by
  induction l generalizing r with
  | nil =>
    cases h
    exact Nat.le_refl 0
  | cons p l ih =>
    obtain ⟨b, idr, verkey, rest, -, -, -, hrest, rfl⟩ := correctSigsFrom_cons.mp h
    have := ih hrest
    split_ifs <;> simp <;> omega

/-- All pairs are counted when every one is signed, and then the addresses are those of the inputs. -/
theorem correctSigsFrom_eq_ok_iff {l : List (Json × Json)} {r : List Json} :
    correctSigsFrom P verifier outputs extraFieldsForSigning l = .ok r ∧ r.length = l.length ↔
      (∀ p ∈ l, Signed P verifier outputs extraFieldsForSigning p.1 p.2) ∧
        l.map (fun p => addressOf p.1) = r.map .ok := by
  induction l generalizing r with
  | nil => simp [correctSigsFrom, eq_comm]
  | cons p l ih =>
    obtain ⟨inp, sig⟩ := p
    rw [correctSigsFrom_cons, List.forall_mem_cons]
    constructor
    · rintro ⟨⟨b, idr, verkey, rest, hb, hidr, hkey, hrest, rfl⟩, hlen⟩
      have hle := length_correctSigsFrom_le hrest
      -- an input that is not counted leaves too few for the rest to make up
      split_ifs at hlen with hv
      · obtain ⟨hall, hmap⟩ := ih.mp ⟨hrest, by simpa using hlen⟩
        refine ⟨⟨⟨b, idr, verkey, hb, hidr, hkey, hv⟩, hall⟩, ?_⟩
        rw [if_pos hv, List.map_cons, List.map_cons, hmap, hidr]
      · simp only [List.length_cons] at hlen
        omega
    · rintro ⟨⟨⟨b, idr, verkey, hb, hidr, hkey, hv⟩, hall⟩, hmap⟩
      cases r with
      | nil => simp at hmap
      | cons a rest =>
        rw [List.map_cons, List.map_cons, List.cons.injEq, hidr] at hmap
        obtain ⟨ha, hmap⟩ := hmap
        obtain ⟨hrest, hlen⟩ := ih.mpr ⟨hall, hmap⟩
        refine ⟨⟨b, idr, verkey, rest, hb, hidr, hkey, hrest, ?_⟩, by simp [hlen]⟩
        rw [if_pos hv, Except.ok.inj ha]

theorem forall_mem_zip_iff {α β : Type} {p : α → β → Prop} {as : List α} {bs : List β}
    (h : as.length ≤ bs.length) :
    (∀ x ∈ as.zip bs, p x.1 x.2) ↔ ∀ i (ha : i < as.length) (hb : i < bs.length), p as[i] bs[i] := by
  rw [List.forall_mem_iff_forall_getElem]
  simp only [List.length_zip, List.getElem_zip]
  exact ⟨fun hp i ha hb => hp i (by omega), fun hp i hi => hp i (by omega) (by omega)⟩

/-! ### The verdict -/

/-- **Exactly the fully signed payments are authenticated.** The verifier returns when each input has a
correct signature at its place, and raises otherwise; what it returns are the addresses of the inputs. -/
theorem authenticated_iff :
    verifySignturesOnPayments P (.list inputs) outputs (.list signatures) verifier extraFieldsForSigning =
        .ok addresses ↔
      FullySigned P verifier outputs extraFieldsForSigning inputs signatures ∧
        inputs.map addressOf = addresses.map .ok := by
  have hcount : verifySignturesOnPayments P (.list inputs) outputs (.list signatures) verifier
        extraFieldsForSigning = .ok addresses ↔
      correctSigsFrom P verifier outputs extraFieldsForSigning (inputs.zip signatures) = .ok addresses ∧
        addresses.length = inputs.length := by
    unfold verifySignturesOnPayments
    simp only [items]
    cases correctSigsFrom P verifier outputs extraFieldsForSigning (inputs.zip signatures) with
    | error e => simp [bind, Except.bind]
    | ok correct =>
      by_cases h : correct.length = inputs.length
      · simp only [bind, Except.bind, h, ne_eq, not_true_eq_false, if_false, Except.ok.injEq]
        exact ⟨fun hc => ⟨hc, hc ▸ h⟩, And.left⟩
      · simp only [bind, Except.bind, h, ne_eq, not_false_eq_true, if_true, Except.ok.injEq]
        constructor
        · rintro ⟨⟩
        · rintro ⟨rfl, hl⟩
          exact absurd hl h
  rw [hcount]
  by_cases hle : inputs.length ≤ signatures.length
  · have hzip : (inputs.zip signatures).length = inputs.length := by
      rw [List.length_zip]
      omega
    have hmap : (inputs.zip signatures).map (fun p => addressOf p.1) = inputs.map addressOf := by
      rw [← List.map_fst_zip hle, List.map_map]
      simp [List.map_fst_zip hle, Function.comp_def]
    rw [← hzip, correctSigsFrom_eq_ok_iff, hmap, forall_mem_zip_iff hle]
    exact and_congr_left fun _ => ⟨fun h => ⟨hle, h⟩, And.right⟩
  · refine iff_of_false ?_ fun h => hle h.1.1
    rintro ⟨h, hlen⟩
    have := length_correctSigsFrom_le h
    rw [List.length_zip] at this
    omega

end TokenPlugin.Properties.Authentication
