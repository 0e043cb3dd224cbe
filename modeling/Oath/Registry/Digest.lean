import Mathlib.Data.Set.Function
import Oath.Library.Sha2

/-! Strings, their bytes and hexadecimal SHA-256 digests, as the registry hashes
them. -/

namespace Oath.Registry

/-- The UTF-8 bytes of a string. -/
def asBytes (s : String) : List UInt8 := s.toByteArray.data.toList

theorem asBytes_append (s t : String) : asBytes (s ++ t) = asBytes s ++ asBytes t := by
  simp [asBytes]

theorem asBytes_injective : Function.Injective asBytes := by
  intro s t h
  exact String.toByteArray_inj.mp (ByteArray.ext (Array.toList_inj.mp h))

theorem asBytes_ofList (cs : List Char) :
    asBytes (String.ofList cs) = cs.flatMap String.utf8EncodeChar := by
  simp [asBytes, List.utf8Encode]

/-- `str::starts_with`. -/
def beginsWith (s head : String) : Bool := (asBytes head).isPrefixOf (asBytes s)

/-- SHA-256 as the registry uses it: thirty-two bytes for every byte string. -/
structure Sha256 where
  digest : List UInt8 → List UInt8
  length_digest (bytes : List UInt8) : (digest bytes).length = 32

def Sha256.fips180 : Sha256 := ⟨Sha2.sha256, Sha2.length_sha256⟩

def hexDigits (byte : UInt8) : List Char :=
  [Nat.digitChar (byte.toNat / 16), Nat.digitChar (byte.toNat % 16)]

def hexEncode (bytes : List UInt8) : String := String.ofList (bytes.flatMap hexDigits)

theorem utf8EncodeChar_hexDigits (byte : UInt8) :
    ((hexDigits byte).flatMap String.utf8EncodeChar).length = 2 := by
  have h : ∀ n < 16, (String.utf8EncodeChar (Nat.digitChar n)).length = 1 := by decide
  have hlt := byte.toNat_lt
  simp [hexDigits, h (byte.toNat / 16) (by omega), h (byte.toNat % 16) (by omega)]

theorem length_asBytes_hexEncode (bytes : List UInt8) :
    (asBytes (hexEncode bytes)).length = 2 * bytes.length := by
  rw [hexEncode, asBytes_ofList, List.flatMap_assoc]
  induction bytes with
  | nil => rfl
  | cons b bs ih =>
    rw [List.flatMap_cons, List.length_append, ih, utf8EncodeChar_hexDigits, List.length_cons]
    omega

/-! ## Reading a digest back -/

def hexValue (b : UInt8) (index : ℕ) : Except String ℕ :=
  if 48 ≤ b ∧ b ≤ 57 then .ok (b.toNat - 48)
  else if 97 ≤ b ∧ b ≤ 102 then .ok (b.toNat - 87)
  else if 65 ≤ b ∧ b ≤ 70 then .ok (b.toNat - 55)
  else .error ("Invalid character '" ++ (Char.ofNat b.toNat).toString ++ "' at position " ++
    toString index)

def hexPairs (index : ℕ) : List UInt8 → Except String (List UInt8)
  | a :: b :: rest => do
    let high ← hexValue a index
    let low ← hexValue b (index + 1)
    let bytes ← hexPairs (index + 2) rest
    .ok (UInt8.ofNat (16 * high + low) :: bytes)
  | _ => .ok []

def hexDecode (s : String) : Except String (List UInt8) :=
  if (asBytes s).length % 2 ≠ 0 then .error "Odd number of digits" else hexPairs 0 (asBytes s)

/-- The byte of a hexadecimal digit. -/
def hexByte (n : ℕ) : UInt8 := UInt8.ofNat (Nat.digitChar n).toNat

theorem utf8EncodeChar_digitChar {n : ℕ} (h : n < 16) :
    String.utf8EncodeChar (Nat.digitChar n) = [hexByte n] := by
  have hall : ∀ n < 16, String.utf8EncodeChar (Nat.digitChar n) = [hexByte n] := by decide
  exact hall n h

theorem hexValue_hexByte {n : ℕ} (h : n < 16) (index : ℕ) : hexValue (hexByte n) index = .ok n := by
  have hall : ∀ n < 16, (48 ≤ hexByte n ∧ hexByte n ≤ 57 ∧ (hexByte n).toNat - 48 = n) ∨
      (¬ (48 ≤ hexByte n ∧ hexByte n ≤ 57) ∧ 97 ≤ hexByte n ∧ hexByte n ≤ 102 ∧
        (hexByte n).toNat - 87 = n) := by decide
  unfold hexValue
  rcases hall n h with ⟨hlo, hhi, hn⟩ | ⟨hnot, hlo, hhi, hn⟩
  · rw [if_pos ⟨hlo, hhi⟩, hn]
  · rw [if_neg hnot, if_pos ⟨hlo, hhi⟩, hn]

theorem hexPairs_hexDigits (bytes : List UInt8) (index : ℕ) :
    hexPairs index (bytes.flatMap fun b => (hexDigits b).flatMap String.utf8EncodeChar) =
      .ok bytes := by
  induction bytes generalizing index with
  | nil => rfl
  | cons b bs ih =>
    have hlt := b.toNat_lt
    have hhigh : b.toNat / 16 < 16 := by omega
    have hlow : b.toNat % 16 < 16 := by omega
    have hpair : (hexDigits b).flatMap String.utf8EncodeChar =
        [hexByte (b.toNat / 16), hexByte (b.toNat % 16)] := by
      simp [hexDigits, utf8EncodeChar_digitChar hhigh, utf8EncodeChar_digitChar hlow]
    rw [List.flatMap_cons, hpair, List.cons_append, List.cons_append, List.nil_append, hexPairs,
      hexValue_hexByte hhigh, hexValue_hexByte hlow]
    show (hexPairs (index + 2) _ >>= _) = _
    rw [ih, show 16 * (b.toNat / 16) + b.toNat % 16 = b.toNat by omega]
    show Except.ok (UInt8.ofNat b.toNat :: bs) = _
    rw [UInt8.ofNat_toNat]

theorem hexDecode_hexEncode (bytes : List UInt8) : hexDecode (hexEncode bytes) = .ok bytes := by
  unfold hexDecode
  rw [length_asBytes_hexEncode, if_neg (by omega), hexEncode, asBytes_ofList, List.flatMap_assoc]
  exact hexPairs_hexDigits bytes 0

theorem hexEncode_injective : Function.Injective hexEncode := by
  intro as bs h
  have has := hexDecode_hexEncode as
  rw [h, hexDecode_hexEncode] at has
  exact (Except.ok.inj has).symm

def hexSha256 (sha : Sha256) (bytes : List UInt8) : String := hexEncode (sha.digest bytes)

theorem length_hexSha256 (sha : Sha256) (bytes : List UInt8) :
    (asBytes (hexSha256 sha bytes)).length = 64 := by
  rw [hexSha256, length_asBytes_hexEncode, sha.length_digest]

theorem hexSha256_injOn (sha : Sha256) {S : Set (List UInt8)} (h : Set.InjOn sha.digest S) :
    Set.InjOn (hexSha256 sha) S := hexEncode_injective.comp_injOn h

end Oath.Registry
