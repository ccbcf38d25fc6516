import TokenPlugin.Reference

/-! # From addresses to keys

The address of a key always gives the key back. `getVerkey` takes it for a key by the length of its text,
43 or 44 characters, and asks the base class about all others. The text of a key with `z` zero bytes in
front has one character for each of them and the digits of its value: it is never longer than 44
characters, and shorter than 43 when the value is below `58 ^ (42 - z)`. -/

namespace TokenPlugin.Properties.PaymentKeys

open Python Token.ClientAuthnr Token.Addresses Lib.Base58 Reference

variable {P : Platform}

/-- The address of a key resolves to the key, whatever the base class knows. -/
def Resolves (B : Base58 P) (k : List UInt8) : Prop :=
  ∃ a, verkeyToAddress B (P.b58encode k) = .ok a ∧ addressToVerkey P (.str a) = .ok (P.b58encode k) ∧
    ∀ (R : Type) (base : Str → R → Except PyErr Str) (request : R),
      getVerkey (P := P) base a request = .ok (P.b58encode k)

variable {B : Base58 P} {k : List UInt8}

/-! ### Lengths of keys -/

theorem zeroBytes_le_of_length (hk : k.length = 32) : zeroBytes k ≤ 32 := hk ▸ zeroBytes_le k

/-- The text of a key is not longer than 44 characters. -/
theorem length_encode_le (hk : k.length = 32) : (encode k).length ≤ 44 := by
  have hz := zeroBytes_le_of_length hk
  have hpow : ∀ z ≤ 32, 256 ^ (32 - z) ≤ 58 ^ (44 - z) := by decide +kernel
  have hv : valueOf k < 58 ^ (44 - zeroBytes k) :=
    calc valueOf k < 256 ^ (k.length - zeroBytes k) := valueOf_lt k
      _ = 256 ^ (32 - zeroBytes k) := by rw [hk]
      _ ≤ 58 ^ (44 - zeroBytes k) := hpow _ hz
  by_contra hlt
  exact absurd ((lt_length_encode_iff (by omega)).mp (not_le.mp hlt)) (not_le.mpr hv)

/-- When the text of a key has 43 or 44 characters. -/
theorem length_encode_iff (hk : k.length = 32) :
    (encode k).length = 43 ∨ (encode k).length = 44 ↔ 58 ^ (42 - zeroBytes k) ≤ valueOf k := by
  have hz := zeroBytes_le_of_length hk
  have hle := length_encode_le hk
  rw [← lt_length_encode_iff (by omega)]
  omega

/-- A key resolves when the length of its text is one of the two. -/
theorem resolves_iff_length (hk : k.length = 32) :
    Resolves B k ↔ (encode k).length = 43 ∨ (encode k).length = 44 := by
  unfold Resolves
  constructor
  · rintro ⟨a, ha, -, hget⟩
    obtain rfl : addressOfKey B k = a := by
      rw [verkeyToAddress_b58encode] at ha
      exact Except.ok.inj ha
    by_contra hlen
    -- a base class that raises
    have hraise := hget Unit (fun _ _ => .error ⟨.unknownIdentifier, []⟩) ()
    rw [getVerkey_addressOfKey B k hk, if_neg hlen] at hraise
    cases hraise
  · intro hlen
    refine ⟨_, verkeyToAddress_b58encode B k, addressToVerkey_addressOfKey B k, fun R base request => ?_⟩
    rw [getVerkey_addressOfKey B k hk, if_pos hlen]

/-! ### Which keys resolve -/

/-- **A payment address resolves to its key exactly when the key is not small**: with `z` zero bytes in
front, its value is at least `58 ^ (42 - z)`. -/
theorem resolves_iff (B : Base58 P) (hk : k.length = 32) :
    Resolves B k ↔ 58 ^ (42 - zeroBytes k) ≤ valueOf k :=
  (resolves_iff_length hk).trans (length_encode_iff hk)

/-- The key of an address that is in use. -/
theorem resolves_iff_alice : alice.bytes.length = 32 ∧
    (Resolves base58 alice.bytes ↔ 58 ^ (42 - zeroBytes alice.bytes) ≤ valueOf alice.bytes) :=
  ⟨by decide, resolves_iff base58 (by decide)⟩

/-- **The key of zeros does not resolve**: its text is 32 ones. -/
theorem not_resolves_zero : zeroKey.length = 32 ∧ ¬Resolves base58 zeroKey := by
  have hk : zeroKey.length = 32 := by decide
  refine ⟨hk, fun h => ?_⟩
  have hv := (length_encode_iff hk).mp ((resolves_iff_length hk).mp h)
  exact absurd hv (by decide +kernel)

/-! ### How many zero bytes there may be -/

/-- Every key whose first byte is not zero resolves. -/
theorem resolves_of_zeroBytes_eq_zero (hk : k.length = 32) (hz : zeroBytes k = 0) : Resolves B k := by
  rw [resolves_iff_length hk, length_encode_iff hk, hz]
  calc 58 ^ 42 ≤ 256 ^ 31 := by decide
    _ ≤ valueOf k := pow_le_valueOf_iff.mpr (by omega)

/-- No key with five zero bytes in front resolves. -/
theorem not_resolves_of_five_le (hk : k.length = 32) (hz : 5 ≤ zeroBytes k) : ¬Resolves B k := by
  have hpow : ∀ z ≤ 32, 5 ≤ z → 256 ^ (32 - z) ≤ 58 ^ (42 - z) := by decide +kernel
  rw [resolves_iff_length hk, length_encode_iff hk, not_le]
  calc valueOf k < 256 ^ (k.length - zeroBytes k) := valueOf_lt k
    _ = 256 ^ (32 - zeroBytes k) := by rw [hk]
    _ ≤ 58 ^ (42 - zeroBytes k) := hpow _ (zeroBytes_le_of_length hk) hz

end TokenPlugin.Properties.PaymentKeys
