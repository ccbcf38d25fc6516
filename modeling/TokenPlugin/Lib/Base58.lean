import Mathlib.Data.List.GetD
import TokenPlugin.Lib.Numerals

/-! # Base 58

Bytes are digits in base 256, and a text is a list of digits in base 58 under an alphabet; leading zero
bytes become leading ones of the alphabet. With a checksum, the payload is followed by four bytes that a
function of it gives. -/

namespace TokenPlugin.Lib.Base58

open Lib.Numerals

/-- The alphabet. -/
def alphabet : List Char := "123456789ABCDEFGHJKLMNPQRSTUVWXYZabcdefghijkmnopqrstuvwxyz".toList

/-- The character of a digit. -/
def charOf (d : ℕ) : Char := alphabet.getD d '1'

/-- The digit of a character. -/
def digitOf (c : Char) : Option ℕ := alphabet.findIdx? (· = c)

/-- The digits of bytes in base 58. -/
def digits (bytes : List UInt8) : List ℕ := convert 256 58 (bytes.map UInt8.toNat)

/-- `b58encode`. -/
def encode (bytes : List UInt8) : List Char := (digits bytes).map charOf

/-- `b58decode`; `none` where a character is not in the alphabet. -/
def decode (text : List Char) : Option (List UInt8) :=
  (text.mapM digitOf).map fun ds => (convert 58 256 ds).map Nat.toUInt8

variable {bytes k : List UInt8} {text : List Char}

/-! ### Characters -/

theorem length_alphabet : alphabet.length = 58 := by decide

theorem digitOf_charOf {d : ℕ} (h : d < 58) : digitOf (charOf d) = some d := by
  have hall : ∀ d < 58, digitOf (charOf d) = some d := by decide
  exact hall d h

theorem charOf_digitOf {c : Char} {d : ℕ} (h : digitOf c = some d) : charOf d = c ∧ d < 58 := by
  obtain ⟨hlt, hc, -⟩ := List.findIdx?_eq_some_iff_getElem.mp h
  rw [length_alphabet] at hlt
  refine ⟨?_, hlt⟩
  rw [charOf, List.getD_eq_getElem _ _ (by rw [length_alphabet]; exact hlt)]
  simpa using hc

theorem charOf_mem {d : ℕ} (h : d < 58) : charOf d ∈ alphabet := by
  rw [charOf, List.getD_eq_getElem _ _ (by rw [length_alphabet]; exact h)]
  exact List.getElem_mem _

theorem mapM_digitOf {ds : List ℕ} (h : ∀ d ∈ ds, d < 58) : (ds.map charOf).mapM digitOf = some ds := by
  induction ds with
  | nil => rfl
  | cons d ds ih =>
    obtain ⟨hd, hds⟩ := List.forall_mem_cons.mp h
    simp [digitOf_charOf hd, ih hds]

theorem map_charOf_of_mapM {ds : List ℕ} (h : text.mapM digitOf = some ds) :
    ds.map charOf = text ∧ ∀ d ∈ ds, d < 58 := by
  induction text generalizing ds with
  | nil =>
    obtain rfl : [] = ds := by simpa using h
    exact ⟨rfl, by simp⟩
  | cons c text ih =>
    simp only [List.mapM_cons, Option.bind_eq_bind, Option.bind_eq_some_iff, Option.pure_def,
      Option.some.injEq] at h
    obtain ⟨d, hd, ds, hds, rfl⟩ := h
    obtain ⟨hc, hlt⟩ := charOf_digitOf hd
    obtain ⟨hmap, hall⟩ := ih hds
    exact ⟨by rw [List.map_cons, hc, hmap], List.forall_mem_cons.mpr ⟨hlt, hall⟩⟩

/-! ### Bytes and texts -/

theorem toNat_lt (bytes : List UInt8) : ∀ d ∈ bytes.map UInt8.toNat, d < 256 := by
  intro d hd
  obtain ⟨x, -, rfl⟩ := List.mem_map.mp hd
  exact x.toNat_lt

theorem digits_lt (bytes : List UInt8) : ∀ d ∈ digits bytes, d < 58 := fun _ h =>
  lt_of_mem_convert (by decide) h

theorem map_toUInt8_map_toNat (bytes : List UInt8) : (bytes.map UInt8.toNat).map Nat.toUInt8 = bytes := by
  rw [List.map_map]
  exact (List.map_congr_left fun x _ => UInt8.ofNat_toNat).trans (List.map_id _)

theorem map_toNat_map_toUInt8 {ds : List ℕ} (h : ∀ d ∈ ds, d < 256) :
    (ds.map Nat.toUInt8).map UInt8.toNat = ds := by
  rw [List.map_map]
  refine (List.map_congr_left fun d hd => ?_).trans (List.map_id _)
  exact UInt8.toNat_ofNat_of_lt' (h d hd)

/-- **What is encoded is decoded.** -/
theorem decode_encode (bytes : List UInt8) : decode (encode bytes) = some bytes := by
  rw [decode, encode, mapM_digitOf (digits_lt bytes), Option.map_some, digits,
    convert_convert (by decide) (toNat_lt bytes), map_toUInt8_map_toNat]

/-- **What is decoded is encoded the same way.** -/
theorem encode_of_decode (h : decode text = some bytes) : encode bytes = text := by
  obtain ⟨ds, hds, rfl⟩ := Option.map_eq_some_iff.mp h
  obtain ⟨hmap, hlt⟩ := map_charOf_of_mapM hds
  have h256 : ∀ d ∈ convert 58 256 ds, d < 256 := fun d hd => lt_of_mem_convert (by decide) hd
  rw [encode, digits, map_toNat_map_toUInt8 h256, convert_convert (by decide) hlt, hmap]

theorem mem_alphabet_of_mem_encode {c : Char} (h : c ∈ encode bytes) : c ∈ alphabet := by
  obtain ⟨d, hd, rfl⟩ := List.mem_map.mp h
  exact charOf_mem (digits_lt bytes d hd)

/-! ### Lengths -/

/-- How many zero bytes there are in front. -/
def zeroBytes (bytes : List UInt8) : ℕ := zeros (bytes.map UInt8.toNat)

/-- The number that the bytes are, most significant first. -/
def valueOf (bytes : List UInt8) : ℕ := value 256 (bytes.map UInt8.toNat)

theorem length_encode : (encode bytes).length = (digits bytes).length := List.length_map _

theorem zeroBytes_le (bytes : List UInt8) : zeroBytes bytes ≤ bytes.length := by
  have := zeros_le_length (by decide) (toNat_lt bytes)
  rwa [List.length_map] at this

theorem valueOf_lt (bytes : List UInt8) : valueOf bytes < 256 ^ (bytes.length - zeroBytes bytes) := by
  have := value_lt (by decide) (toNat_lt bytes)
  rwa [List.length_map] at this

theorem pow_le_valueOf_iff {n : ℕ} : 256 ^ n ≤ valueOf bytes ↔ zeroBytes bytes + n < bytes.length := by
  have := pow_le_value_iff (by decide) (toNat_lt bytes) (n := n)
  rwa [List.length_map] at this

/-- A text is not shorter than the bytes. -/
theorem length_le_length_encode (bytes : List UInt8) : bytes.length ≤ (encode bytes).length := by
  have := length_le_length_convert (by decide : 1 < 58) (by decide) (toNat_lt bytes)
  rw [List.length_map] at this
  rwa [length_encode, digits]

theorem lt_length_encode_iff {n : ℕ} (hn : zeroBytes bytes ≤ n) :
    n < (encode bytes).length ↔ 58 ^ (n - zeroBytes bytes) ≤ valueOf bytes := by
  rw [length_encode]
  exact lt_length_convert_iff (by decide) hn

/-! ### Texts that begin with another text -/

theorem isPrefix_digits (h : encode k <+: encode bytes) : digits k <+: digits bytes := by
  obtain ⟨t, ht⟩ := h
  obtain ⟨ds, es, hds, hmap, -⟩ := List.map_eq_append_iff.mp ht.symm
  have hlt : ∀ d ∈ ds, d < 58 := fun d hd => digits_lt bytes d (hds ▸ List.mem_append_left es hd)
  have heq : ds = digits k := by
    have := congrArg (List.mapM digitOf) hmap
    rw [mapM_digitOf hlt, encode, mapM_digitOf (digits_lt k)] at this
    exact Option.some.inj this
  exact ⟨es, by rw [hds, heq]⟩

/-- A text that continues another one has a value 58 times as large. -/
theorem mul_valueOf_le (h : encode k <+: encode bytes) (hne : encode k ≠ encode bytes) :
    58 * valueOf k ≤ valueOf bytes := by
  have hdigits : digits k ≠ digits bytes := fun he => hne (by rw [encode, encode, he])
  have hle := mul_value_le_of_prefix (b := 58) (by decide) (isPrefix_digits h) hdigits
  rwa [digits, digits, value_convert, value_convert] at hle

/-! ### Checksums -/

section Checksum
variable (checksum : List UInt8 → List UInt8)

/-- `b58encode_check`. -/
def encodeCheck (payload : List UInt8) : List Char := encode (payload ++ checksum payload)

/-- `b58decode_check`; `none` where it raises. -/
def decodeCheck (text : List Char) : Option (List UInt8) :=
  (decode text).bind fun result =>
    let payload := result.take (result.length - 4)
    if result.drop (result.length - 4) = checksum payload then some payload else none

variable {checksum}

/-- **The texts with a correct checksum.** -/
theorem decodeCheck_eq_some (hc : ∀ k, (checksum k).length = 4) :
    decodeCheck checksum text = some k ↔ text = encodeCheck checksum k := by
  unfold decodeCheck encodeCheck
  rw [Option.bind_eq_some_iff]
  constructor
  · rintro ⟨result, hresult, h⟩
    simp only at h
    split_ifs at h with hsum
    obtain rfl := Option.some.inj h
    rw [← hsum, List.take_append_drop, encode_of_decode hresult]
  · rintro rfl
    refine ⟨_, decode_encode _, ?_⟩
    have hlen : (k ++ checksum k).length - 4 = k.length := by
      rw [List.length_append, hc]
      omega
    simp only [hlen, List.take_left', List.drop_left', if_true]

theorem mem_alphabet_of_decodeCheck {c : Char} (h : decodeCheck checksum text = some k) (hm : c ∈ text) :
    c ∈ alphabet := by
  obtain ⟨result, hresult, -⟩ := Option.bind_eq_some_iff.mp h
  rw [← encode_of_decode hresult] at hm
  exact mem_alphabet_of_mem_encode hm

end Checksum

end TokenPlugin.Lib.Base58
