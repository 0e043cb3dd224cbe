import Mathlib.Data.List.Basic
import Mathlib.Logic.Function.Basic
import Oath.Library.Utf8

/-! Percent encoding of byte strings: bytes that are safe stand for themselves, of the others there
are two digits behind a percent sign. What is encoded is read back, so different byte strings have
different texts. -/

namespace Percent

/-- The two hexadecimal digits of a byte, in capitals. -/
def hexPair (byte : UInt8) : List Char :=
  [(Nat.digitChar (byte.toNat / 16)).toUpper, (Nat.digitChar (byte.toNat % 16)).toUpper]

def hexValue (c : Char) : ℕ := if c.isDigit then c.toNat - 48 else c.toNat - 55

def decode : List Char → List UInt8
  | '%' :: a :: b :: rest => UInt8.ofNat (hexValue a * 16 + hexValue b) :: decode rest
  | c :: rest => UInt8.ofNat c.toNat :: decode rest
  | [] => []

section Encode
variable (safe : UInt8 → Bool)

def encodeByte (byte : UInt8) : List Char :=
  if safe byte then [Char.ofNat byte.toNat] else '%' :: hexPair byte

def encode (bytes : List UInt8) : List Char := bytes.flatMap (encodeByte safe)

/-! ## Reading back -/

theorem hexValue_digit {n : ℕ} (h : n < 16) : hexValue (Nat.digitChar n).toUpper = n := by
  have hall : ∀ n < 16, hexValue (Nat.digitChar n).toUpper = n := by decide
  exact hall n h

theorem decode_of_ne {c : Char} (h : c ≠ '%') (rest : List Char) :
    decode (c :: rest) = UInt8.ofNat c.toNat :: decode rest := by
  rw [decode]
  rintro a b more rfl
  exact absurd rfl h

theorem decode_hexPair (byte : UInt8) (rest : List Char) :
    decode ('%' :: (hexPair byte ++ rest)) = byte :: decode rest := by
  have hlt := byte.toNat_lt
  have hvalue : byte.toNat / 16 * 16 + byte.toNat % 16 = byte.toNat := by omega
  rw [hexPair, List.cons_append, List.cons_append, List.nil_append, decode,
    hexValue_digit (by omega), hexValue_digit (by omega), hvalue, UInt8.ofNat_toNat]

variable {safe}

theorem decode_encodeByte (hpercent : safe 37 = false) (byte : UInt8) (rest : List Char) :
    decode (encodeByte safe byte ++ rest) = byte :: decode rest := by
  unfold encodeByte
  split_ifs with hsafe
  · have hbyte : (Char.ofNat byte.toNat).toNat = byte.toNat :=
      Utf8.toNat_ofNat (Or.inl (lt_trans byte.toNat_lt (by decide)))
    have hne : Char.ofNat byte.toNat ≠ '%' := by
      intro heq
      have hnat : byte.toNat = 37 := by rw [← hbyte, heq]; rfl
      have hsame : byte = 37 := UInt8.toNat_inj.mp hnat
      rw [hsame, hpercent] at hsafe
      cases hsafe
    rw [List.singleton_append, decode_of_ne hne, hbyte, UInt8.ofNat_toNat]
  · exact decode_hexPair byte rest

theorem decode_encode (hpercent : safe 37 = false) (bytes : List UInt8) :
    decode (encode safe bytes) = bytes := by
  induction bytes with
  | nil => rfl
  | cons byte bytes ih =>
    have hstep := decode_encodeByte hpercent byte (encode safe bytes)
    rw [ih] at hstep
    exact hstep

/-! ## The characters of a text -/

theorem mem_encode {bytes : List UInt8} {c : Char} (h : c ∈ encode safe bytes) :
    (∃ byte ∈ bytes, safe byte ∧ c = Char.ofNat byte.toNat) ∨ c = '%' ∨
      ∃ n < 16, c = (Nat.digitChar n).toUpper := by
  obtain ⟨byte, hbyte, hc⟩ := List.mem_flatMap.mp h
  unfold encodeByte at hc
  split_ifs at hc with hsafe
  · exact Or.inl ⟨byte, hbyte, hsafe, List.mem_singleton.mp hc⟩
  · have hlt := byte.toNat_lt
    simp only [hexPair, List.mem_cons, List.not_mem_nil, or_false] at hc
    rcases hc with hpercent | hhigh | hlow
    · exact Or.inr (Or.inl hpercent)
    · exact Or.inr (Or.inr ⟨byte.toNat / 16, by omega, hhigh⟩)
    · exact Or.inr (Or.inr ⟨byte.toNat % 16, by omega, hlow⟩)

theorem encode_ne_nil {bytes : List UInt8} (h : bytes ≠ []) : encode safe bytes ≠ [] := by
  obtain ⟨byte, rest, rfl⟩ := List.exists_cons_of_ne_nil h
  unfold encode encodeByte
  rw [List.flatMap_cons]
  split_ifs
  · exact List.cons_ne_nil _ _
  · exact List.cons_ne_nil _ _

end Encode

end Percent
