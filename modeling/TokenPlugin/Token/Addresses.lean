import TokenPlugin.Lib.Base58
import TokenPlugin.Token.ClientAuthnr

/-! # Payment addresses

The address of a verification key is its base58check text. An address gives its key back, as far as the
base58 library is the standard one; `Base58` says what that means. -/

namespace TokenPlugin.Token.Addresses

open Python Messages.Fields Token.ClientAuthnr Lib.Base58

variable {P : Platform}

/-- The base58 library: on texts over the alphabet its functions are the standard ones, with some
checksum of four bytes. -/
structure Base58 (P : Platform) where
  checksum : List UInt8 → List UInt8
  b58encodeCheck : List UInt8 → Str
  length_checksum : ∀ payload, (checksum payload).length = 4
  b58encode_eq : ∀ bytes, P.b58encode bytes = encode bytes
  b58decode_eq : ∀ text : Str, (∀ c ∈ text, c ∈ alphabet) → P.b58decode text = decode text
  b58encodeCheck_eq : ∀ payload, b58encodeCheck payload = encodeCheck checksum payload
  b58decodeCheck_eq : ∀ text : Str, (∀ c ∈ text, c ∈ alphabet) →
    P.b58decodeCheck text = decodeCheck checksum text

/-- `verkey_to_address`. -/
def verkeyToAddress (B : Base58 P) (verkey : Str) : Except PyErr Str :=
  match P.b58decode verkey with
  | some bytes => .ok (B.b58encodeCheck bytes)
  | none => .error ⟨.valueError, "Invalid character"⟩

/-- `TokenAuthNr.getVerkey`, given that of its base class, which looks the identifier up in a cache. -/
def getVerkey {R : Type} (base : Str → R → Except PyErr Str) (ident : Str) (request : R) :
    Except PyErr Str :=
  if ident.length ≠ 21 ∧ ident.length ≠ 22 then do
    let vk ← addressToVerkey P (.str ident)
    if vk.length = 43 ∨ vk.length = 44 then .ok vk else base ident request
  else base ident request

variable (B : Base58 P) (k : List UInt8)

/-- The address of a key. -/
def addressOfKey : Str := encodeCheck B.checksum k

theorem mem_alphabet_of_mem_addressOfKey : ∀ c ∈ addressOfKey B k, c ∈ alphabet := fun _ h =>
  mem_alphabet_of_mem_encode h

theorem b58decodeCheck_addressOfKey : P.b58decodeCheck (addressOfKey B k) = some k := by
  rw [B.b58decodeCheck_eq _ (mem_alphabet_of_mem_addressOfKey B k)]
  exact (decodeCheck_eq_some B.length_checksum).mpr rfl

/-- **The address that is made of a key.** -/
theorem verkeyToAddress_b58encode : verkeyToAddress B (P.b58encode k) = .ok (addressOfKey B k) := by
  rw [verkeyToAddress, B.b58encode_eq, B.b58decode_eq _ fun _ h => mem_alphabet_of_mem_encode h,
    decode_encode]
  exact congrArg _ (B.b58encodeCheck_eq k)

/-- **The key that is read from its address.** -/
theorem addressToVerkey_addressOfKey :
    addressToVerkey P (.str (addressOfKey B k)) = .ok (P.b58encode k) := by
  simp only [addressToVerkey, b58decodeCheck_addressOfKey]

/-- An address is longer than the identifiers that are looked up. -/
theorem length_addressOfKey (hk : k.length = 32) : 36 ≤ (addressOfKey B k).length := by
  have hle := length_le_length_encode (k ++ B.checksum k)
  rwa [List.length_append, hk, B.length_checksum] at hle

/-- The key is returned where its text has 43 or 44 characters; else the base class is asked. -/
theorem getVerkey_addressOfKey (hk : k.length = 32) {R : Type} (base : Str → R → Except PyErr Str)
    (request : R) : getVerkey (P := P) base (addressOfKey B k) request =
      if (encode k).length = 43 ∨ (encode k).length = 44 then .ok (P.b58encode k)
      else base (addressOfKey B k) request := by
  have hlen := length_addressOfKey B k hk
  have hne : (addressOfKey B k).length ≠ 21 ∧ (addressOfKey B k).length ≠ 22 := by omega
  rw [getVerkey, if_pos hne, addressToVerkey_addressOfKey, ← B.b58encode_eq]
  rfl

theorem validAddress_addressOfKey (hk : k.length = 32) : ValidAddress P (addressOfKey B k) := by
  rw [ValidAddress, b58decodeCheck_addressOfKey, Option.map_some, hk]

/-- Addresses of keys are accepted, and over the alphabet no other texts are. -/
theorem validAddress_iff {a : Str} (ha : ∀ c ∈ a, c ∈ alphabet) :
    ValidAddress P a ↔ ∃ k : List UInt8, k.length = 32 ∧ a = addressOfKey B k := by
  unfold ValidAddress
  rw [Option.map_eq_some_iff]
  constructor
  · rintro ⟨k, hdec, hk⟩
    rw [B.b58decodeCheck_eq a ha] at hdec
    exact ⟨k, hk, (decodeCheck_eq_some B.length_checksum).mp hdec⟩
  · rintro ⟨k, hk, rfl⟩
    exact Option.map_eq_some_iff.mp (validAddress_addressOfKey B k hk)

end TokenPlugin.Token.Addresses
