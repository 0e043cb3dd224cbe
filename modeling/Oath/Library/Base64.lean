import Mathlib.Data.Nat.Notation
import Mathlib.Tactic.SplitIfs

/-! Base64 with the standard alphabet and padding. The text of given bytes is the only one that is
decoded strictly. A loose decoder takes the padding but not the bits that it cuts off to be as they
should. -/

namespace Base64

/-- `A`-`Z`, `a`-`z`, `0`-`9`, `+` and `/`. -/
def digit (n : ℕ) : Char :=
  if n < 26 then Char.ofNat (n + 65)
  else if n < 52 then Char.ofNat (n + 71)
  else if n < 62 then Char.ofNat (n - 4)
  else if n = 62 then '+'
  else '/'

def value? (b : UInt8) : Option ℕ :=
  if 65 ≤ b ∧ b ≤ 90 then some (b.toNat - 65)
  else if 97 ≤ b ∧ b ≤ 122 then some (b.toNat - 71)
  else if 48 ≤ b ∧ b ≤ 57 then some (b.toNat + 4)
  else if b = 43 then some 62
  else if b = 47 then some 63
  else none

/-- Three bytes are four digits; what is missing of the last three is padding. -/
def encodeBytes : List UInt8 → List Char
  | a :: b :: c :: rest =>
    let n := a.toNat * 65536 + b.toNat * 256 + c.toNat
    digit (n / 262144) :: digit (n / 4096 % 64) :: digit (n / 64 % 64) :: digit (n % 64) ::
      encodeBytes rest
  | [a, b] =>
    let n := a.toNat * 1024 + b.toNat * 4
    [digit (n / 4096), digit (n / 64 % 64), digit (n % 64), '=']
  | [a] =>
    let n := a.toNat * 16
    [digit (n / 64), digit (n % 64), '=', '=']
  | [] => []

/-- The padding is `=`, and the bits that it cuts off have to be zero. -/
def decodeDigits : List UInt8 → Option (List UInt8)
  | [] => some []
  | [a, b, 61, 61] => do
    let n := (← value? a) * 64 + (← value? b)
    if n % 16 = 0 then some [UInt8.ofNat (n / 16)] else none
  | [a, b, c, 61] => do
    let n := (← value? a) * 4096 + (← value? b) * 64 + (← value? c)
    if n % 4 = 0 then some [UInt8.ofNat (n / 1024), UInt8.ofNat (n / 4 % 256)] else none
  | a :: b :: c :: d :: rest => do
    let n := (← value? a) * 262144 + (← value? b) * 4096 + (← value? c) * 64 + (← value? d)
    let bytes ← decodeDigits rest
    some (UInt8.ofNat (n / 65536) :: UInt8.ofNat (n / 256 % 256) :: UInt8.ofNat (n % 256) :: bytes)
  | _ => none

def encode (bytes : List UInt8) : String := String.ofList (encodeBytes bytes)

def decode (s : String) : Option (List UInt8) := decodeDigits s.toByteArray.data.toList

/-- The digits of the URL-safe alphabet, without padding. -/
def encodeUrlSafe (bytes : List UInt8) : String :=
  String.ofList (((encodeBytes bytes).filter (· ≠ '=')).map fun c =>
    if c = '+' then '-' else if c = '/' then '_' else c)

example : encode [1, 2, 3, 4] = "AQIDBA==" := by decide
example : decode "AQIDBA==" = some [1, 2, 3, 4] := by decide

/-- The bits that the padding cuts off are not looked at. -/
def decodeLoose : List UInt8 → Option (List UInt8)
  | [] => some []
  | [a, b, 61, 61] => do
    let n := (← value? a) * 64 + (← value? b)
    some [UInt8.ofNat (n / 16)]
  | [a, b, c, 61] => do
    let n := (← value? a) * 4096 + (← value? b) * 64 + (← value? c)
    some [UInt8.ofNat (n / 1024), UInt8.ofNat (n / 4 % 256)]
  | a :: b :: c :: d :: rest => do
    let n := (← value? a) * 262144 + (← value? b) * 4096 + (← value? c) * 64 + (← value? d)
    let bytes ← decodeLoose rest
    some (UInt8.ofNat (n / 65536) :: UInt8.ofNat (n / 256 % 256) :: UInt8.ofNat (n % 256) :: bytes)
  | _ => none

theorem decodeLoose_of_decodeDigits {digits bytes : List UInt8}
    (h : decodeDigits digits = some bytes) : decodeLoose digits = some bytes := by
  fun_induction decodeDigits digits generalizing bytes with
  | case1 => exact h
  | case2 a b =>
    obtain ⟨x, hx, h1⟩ := Option.bind_eq_some_iff.mp h
    obtain ⟨y, hy, h2⟩ := Option.bind_eq_some_iff.mp h1
    dsimp only at h2
    split_ifs at h2
    simp [decodeLoose, hx, hy, h2]
  | case3 a b c hc =>
    obtain ⟨x, hx, h1⟩ := Option.bind_eq_some_iff.mp h
    obtain ⟨y, hy, h2⟩ := Option.bind_eq_some_iff.mp h1
    obtain ⟨z, hz, h3⟩ := Option.bind_eq_some_iff.mp h2
    dsimp only at h3
    split_ifs at h3
    simp [decodeLoose, hx, hy, hz, h3]
  | case4 a b c d rest h1 h2 ih =>
    obtain ⟨x, hx, h3⟩ := Option.bind_eq_some_iff.mp h
    obtain ⟨y, hy, h4⟩ := Option.bind_eq_some_iff.mp h3
    obtain ⟨z, hz, h5⟩ := Option.bind_eq_some_iff.mp h4
    obtain ⟨w, hw, h6⟩ := Option.bind_eq_some_iff.mp h5
    obtain ⟨more, hmore, h7⟩ := Option.bind_eq_some_iff.mp h6
    rw [decodeLoose.eq_4 a b c d rest h1 h2]
    simp [hx, hy, hz, hw, ih hmore, ← h7]
  | case5 => cases h

/-! ## Digits -/

def digitByte (n : ℕ) : UInt8 := UInt8.ofNat (digit n).toNat

theorem digit_of_le {n : ℕ} (h : 64 ≤ n) : digit n = '/' := by
  unfold digit
  rw [if_neg (by omega), if_neg (by omega), if_neg (by omega), if_neg (by omega)]

theorem utf8_digit (n : ℕ) : String.utf8EncodeChar (digit n) = [digitByte n] := by
  by_cases h : n < 64
  · have hall : ∀ n < 64, String.utf8EncodeChar (digit n) = [digitByte n] := by decide
    exact hall n h
  · rw [digitByte, digit_of_le (Nat.le_of_not_lt h)]
    decide

theorem value?_digitByte {n : ℕ} (h : n < 64) : value? (digitByte n) = some n := by
  have hall : ∀ n < 64, value? (digitByte n) = some n := by decide
  exact hall n h

theorem digitByte_of_value? {byte : UInt8} {n : ℕ} (h : value? byte = some n) :
    n < 64 ∧ digitByte n = byte := by
  have hall : ∀ i : Fin 256, ∀ n ∈ value? (UInt8.ofNat i), n < 64 ∧ digitByte n = UInt8.ofNat i := by
    decide +kernel
  have hbyte := hall ⟨byte.toNat, byte.toNat_lt⟩ n
  rw [UInt8.ofNat_toNat] at hbyte
  exact hbyte h

theorem digitByte_ne_padding (n : ℕ) : digitByte n ≠ 61 := by
  by_cases h : n < 64
  · intro heq
    have hvalue := value?_digitByte h
    rw [heq] at hvalue
    cases hvalue
  · rw [digitByte, digit_of_le (Nat.le_of_not_lt h)]
    decide

/-- Digits are above the control characters. -/
theorem le_digitByte (n : ℕ) : 43 ≤ digitByte n := by
  by_cases h : n < 64
  · have hall : ∀ n < 64, 43 ≤ digitByte n := by decide
    exact hall n h
  · rw [digitByte, digit_of_le (Nat.le_of_not_lt h)]
    decide

/-! ## Texts -/

def textBytes (text : List Char) : List UInt8 := text.flatMap String.utf8EncodeChar

theorem textBytes_digit (n : ℕ) (text : List Char) :
    textBytes (digit n :: text) = digitByte n :: textBytes text := by
  rw [textBytes, List.flatMap_cons, utf8_digit]
  rfl

theorem textBytes_padding (text : List Char) : textBytes ('=' :: text) = 61 :: textBytes text := rfl

theorem le_textBytes (bytes : List UInt8) : ∀ byte ∈ textBytes (encodeBytes bytes), 43 ≤ byte := by
  have hnil : textBytes [] = [] := rfl
  have hpadding : (43 : UInt8) ≤ 61 := by decide
  fun_induction encodeBytes bytes with
  | case1 a b c rest n ih =>
    simp only [textBytes_digit, List.forall_mem_cons]
    exact ⟨le_digitByte _, le_digitByte _, le_digitByte _, le_digitByte _, ih⟩
  | case2 a b n =>
    simp only [textBytes_digit, textBytes_padding, hnil, List.forall_mem_cons]
    exact ⟨le_digitByte _, le_digitByte _, le_digitByte _, hpadding, by simp⟩
  | case3 a n =>
    simp only [textBytes_digit, textBytes_padding, hnil, List.forall_mem_cons]
    exact ⟨le_digitByte _, le_digitByte _, hpadding, hpadding, by simp⟩
  | case4 => simp [hnil]

theorem toNat_byte {n : ℕ} (h : n < 256) : (UInt8.ofNat n).toNat = n :=
  UInt8.toNat_ofNat_of_lt' h

theorem byte_of_toNat {n : ℕ} {byte : UInt8} (h : n = byte.toNat) : UInt8.ofNat n = byte := by
  rw [h, UInt8.ofNat_toNat]

/-- What is encoded is decoded, group by group. -/
theorem decodeDigits_encodeBytes (bytes : List UInt8) :
    decodeDigits (textBytes (encodeBytes bytes)) = some bytes := by
  fun_induction encodeBytes bytes with
  | case1 a b c rest n ih =>
    have ha := a.toNat_lt
    have hb := b.toNat_lt
    have hc := c.toNat_lt
    have hn : n = a.toNat * 65536 + b.toNat * 256 + c.toNat := rfl
    clear_value n
    have hjoin : n / 262144 * 262144 + n / 4096 % 64 * 4096 + n / 64 % 64 * 64 + n % 64 = n := by
      omega
    have h1 : UInt8.ofNat (n / 65536) = a := byte_of_toNat (by omega)
    have h2 : UInt8.ofNat (n / 256 % 256) = b := byte_of_toNat (by omega)
    have h3 : UInt8.ofNat (n % 256) = c := byte_of_toNat (by omega)
    simp only [textBytes_digit]
    rw [decodeDigits.eq_4 _ _ _ _ _ (by simp [digitByte_ne_padding])
      (by simp [digitByte_ne_padding])]
    rw [value?_digitByte (by omega), value?_digitByte (by omega), value?_digitByte (by omega),
      value?_digitByte (by omega), ih]
    simp only [Option.bind_eq_bind, Option.bind_some, hjoin, h1, h2, h3]
  | case2 a b n =>
    have ha := a.toNat_lt
    have hb := b.toNat_lt
    have hn : n = a.toNat * 1024 + b.toNat * 4 := rfl
    clear_value n
    have hjoin : n / 4096 * 4096 + n / 64 % 64 * 64 + n % 64 = n := by omega
    have h1 : UInt8.ofNat (n / 1024) = a := byte_of_toNat (by omega)
    have h2 : UInt8.ofNat (n / 4 % 256) = b := byte_of_toNat (by omega)
    simp only [textBytes_digit, textBytes_padding]
    rw [show textBytes [] = [] from rfl, decodeDigits.eq_3 _ _ _ (digitByte_ne_padding _)]
    rw [value?_digitByte (by omega), value?_digitByte (by omega), value?_digitByte (by omega)]
    simp only [Option.bind_eq_bind, Option.bind_some, hjoin, h1, h2]
    exact if_pos (by omega)
  | case3 a n =>
    have ha := a.toNat_lt
    have hn : n = a.toNat * 16 := rfl
    clear_value n
    have hjoin : n / 64 * 64 + n % 64 = n := by omega
    have h1 : UInt8.ofNat (n / 16) = a := byte_of_toNat (by omega)
    simp only [textBytes_digit, textBytes_padding]
    rw [show textBytes [] = [] from rfl, decodeDigits.eq_2]
    rw [value?_digitByte (by omega), value?_digitByte (by omega)]
    simp only [Option.bind_eq_bind, Option.bind_some, hjoin, h1]
    exact if_pos (by omega)
  | case4 => rfl

/-- What is decoded strictly was encoded. -/
theorem encodeBytes_of_decodeDigits {digits bytes : List UInt8}
    (h : decodeDigits digits = some bytes) : textBytes (encodeBytes bytes) = digits := by
  fun_induction decodeDigits digits generalizing bytes with
  | case1 =>
    obtain rfl := Option.some.inj h
    rfl
  | case2 a b =>
    obtain ⟨x, hx, h1⟩ := Option.bind_eq_some_iff.mp h
    obtain ⟨y, hy, h2⟩ := Option.bind_eq_some_iff.mp h1
    dsimp only at h2
    split_ifs at h2 with hzero
    obtain rfl := Option.some.inj h2
    obtain ⟨hx64, rfl⟩ := digitByte_of_value? hx
    obtain ⟨hy64, rfl⟩ := digitByte_of_value? hy
    have hbyte := toNat_byte (show (x * 64 + y) / 16 < 256 by omega)
    have h1 : (x * 64 + y) / 16 * 16 / 64 = x := by omega
    have h2 : (x * 64 + y) / 16 * 16 % 64 = y := by omega
    simp only [encodeBytes, textBytes_digit, textBytes_padding, hbyte, h1, h2]
    rfl
  | case3 a b c hc =>
    obtain ⟨x, hx, h1⟩ := Option.bind_eq_some_iff.mp h
    obtain ⟨y, hy, h2⟩ := Option.bind_eq_some_iff.mp h1
    obtain ⟨z, hz, h3⟩ := Option.bind_eq_some_iff.mp h2
    dsimp only at h3
    split_ifs at h3 with hzero
    obtain rfl := Option.some.inj h3
    obtain ⟨hx64, rfl⟩ := digitByte_of_value? hx
    obtain ⟨hy64, rfl⟩ := digitByte_of_value? hy
    obtain ⟨hz64, rfl⟩ := digitByte_of_value? hz
    obtain ⟨n, hn⟩ : ∃ n, n = x * 4096 + y * 64 + z := ⟨_, rfl⟩
    rw [← hn] at hzero ⊢
    have hfirst := toNat_byte (show n / 1024 < 256 by omega)
    have hsecond := toNat_byte (show n / 4 % 256 < 256 by omega)
    have hjoin : n / 1024 * 1024 + n / 4 % 256 * 4 = n := by omega
    have h4 : n / 4096 = x := by omega
    have h5 : n / 64 % 64 = y := by omega
    have h6 : n % 64 = z := by omega
    simp only [encodeBytes, textBytes_digit, textBytes_padding, hfirst, hsecond, hjoin, h4, h5, h6]
    rfl
  | case4 a b c d rest h1 h2 ih =>
    obtain ⟨x, hx, h3⟩ := Option.bind_eq_some_iff.mp h
    obtain ⟨y, hy, h4⟩ := Option.bind_eq_some_iff.mp h3
    obtain ⟨z, hz, h5⟩ := Option.bind_eq_some_iff.mp h4
    obtain ⟨w, hw, h6⟩ := Option.bind_eq_some_iff.mp h5
    obtain ⟨more, hmore, h7⟩ := Option.bind_eq_some_iff.mp h6
    obtain ⟨hx64, rfl⟩ := digitByte_of_value? hx
    obtain ⟨hy64, rfl⟩ := digitByte_of_value? hy
    obtain ⟨hz64, rfl⟩ := digitByte_of_value? hz
    obtain ⟨hw64, rfl⟩ := digitByte_of_value? hw
    obtain rfl := Option.some.inj h7
    obtain ⟨n, hn⟩ : ∃ n, n = x * 262144 + y * 4096 + z * 64 + w := ⟨_, rfl⟩
    rw [← hn]
    have hfirst := toNat_byte (show n / 65536 < 256 by omega)
    have hsecond := toNat_byte (show n / 256 % 256 < 256 by omega)
    have hthird := toNat_byte (show n % 256 < 256 by omega)
    have hjoin : n / 65536 * 65536 + n / 256 % 256 * 256 + n % 256 = n := by omega
    have h8 : n / 262144 = x := by omega
    have h9 : n / 4096 % 64 = y := by omega
    have h10 : n / 64 % 64 = z := by omega
    have h11 : n % 64 = w := by omega
    simp only [encodeBytes, textBytes_digit, hfirst, hsecond, hthird, hjoin, h8, h9, h10, h11,
      ih hmore]
  | case5 => cases h

theorem bytes_encode (bytes : List UInt8) :
    (encode bytes).toByteArray.data.toList = textBytes (encodeBytes bytes) := by
  simp [encode, textBytes, List.utf8Encode]

/-- The only text that is decoded to these bytes is the one that encodes them. -/
theorem decode_eq_some {text : String} {bytes : List UInt8} :
    decode text = some bytes ↔ text = encode bytes := by
  constructor
  · intro h
    have hbytes : text.toByteArray.data.toList = (encode bytes).toByteArray.data.toList := by
      rw [bytes_encode, encodeBytes_of_decodeDigits h]
    exact String.toByteArray_inj.mp (ByteArray.ext (Array.toList_inj.mp hbytes))
  · intro h
    rw [h, decode, bytes_encode, decodeDigits_encodeBytes]

theorem decodeLoose_encode (bytes : List UInt8) :
    decodeLoose (encode bytes).toByteArray.data.toList = some bytes := by
  rw [bytes_encode]
  exact decodeLoose_of_decodeDigits (decodeDigits_encodeBytes bytes)

end Base64
