import Mathlib.Data.List.Infix
import Mathlib.Tactic.Ring

/-! UTF-8 decoding that reports every maximal ill-formed part, and the fact that the
ASCII text of a byte string survives it: a search for an ASCII word gives the same
answer before and after decoding. Text that was encoded is read back. -/

namespace Utf8

/-- Bounds of the second byte and the number of bytes after it, for each lead byte of a
longer sequence (the table of well-formed byte sequences). -/
def leadByte (b : UInt8) : Option (UInt8 × UInt8 × ℕ) :=
  if 0xC2 ≤ b ∧ b ≤ 0xDF then some (0x80, 0xBF, 0)
  else if b = 0xE0 then some (0xA0, 0xBF, 1)
  else if b = 0xED then some (0x80, 0x9F, 1)
  else if 0xE1 ≤ b ∧ b ≤ 0xEF then some (0x80, 0xBF, 1)
  else if b = 0xF0 then some (0x90, 0xBF, 2)
  else if 0xF1 ≤ b ∧ b ≤ 0xF3 then some (0x80, 0xBF, 2)
  else if b = 0xF4 then some (0x80, 0x8F, 2)
  else none

def leadBits (b : UInt8) (more : ℕ) : ℕ := b.toNat % 2 ^ (5 - more)

/-- `more` continuation bytes after `code`: the code point if all are there, and how many
bytes belong to the sequence. -/
def continuation (code : ℕ) : ℕ → List UInt8 → Option ℕ × ℕ
  | 0, _ => (some code, 0)
  | _ + 1, [] => (none, 0)
  | more + 1, b :: bs =>
    if 0x80 ≤ b ∧ b ≤ 0xBF then
      let (result, used) := continuation (code * 64 + b.toNat % 64) more bs
      (result, used + 1)
    else (none, 0)

/-- What stands at the front of a byte string: a character or an ill-formed part, and the
number of bytes it takes after the first. -/
def sequence (b : UInt8) (bs : List UInt8) : Option ℕ × ℕ :=
  if b < 0x80 then (some b.toNat, 0)
  else match leadByte b, bs with
    | some (lo, hi, more), c :: cs =>
      if lo ≤ c ∧ c ≤ hi then
        let (result, used) := continuation (leadBits b more * 64 + c.toNat % 64) more cs
        (result, used + 1)
      else (none, 0)
    | _, _ => (none, 0)

def decodeLoop : ℕ → List UInt8 → List (Option Char)
  | 0, _ => []
  | _ + 1, [] => []
  | fuel + 1, b :: bs =>
    let (code, used) := sequence b bs
    code.map Char.ofNat :: decodeLoop fuel (bs.drop used)

/-- The characters of a byte string; `none` for an ill-formed part. -/
def decode (bytes : List UInt8) : List (Option Char) := decodeLoop bytes.length bytes

def isValid (bytes : List UInt8) : Bool := (decode bytes).all Option.isSome

/-- The text with each ill-formed part replaced by U+FFFD. -/
def lossy (bytes : List UInt8) : List Char := (decode bytes).map (·.getD '\uFFFD')

/-! ## ASCII text -/

theorem continuation_used (code more : ℕ) (bs : List UInt8) :
    ∀ b ∈ bs.take (continuation code more bs).2, 0x80 ≤ b := by
  induction more generalizing code bs with
  | zero => simp [continuation]
  | succ more ih =>
    cases bs with
    | nil => simp [continuation]
    | cons c cs =>
      rw [continuation]
      split
      · next h =>
        intro b hb
        rcases List.mem_cons.mp hb with rfl | hb
        · exact h.1
        · exact ih _ _ b hb
      · simp

theorem continuation_code {code more n : ℕ} {bs : List UInt8}
    (h : (continuation code more bs).1 = some n) :
    code * 64 ^ more ≤ n ∧ n < (code + 1) * 64 ^ more := by
  induction more generalizing code bs with
  | zero =>
    simp only [continuation, Option.some.injEq] at h
    omega
  | succ more ih =>
    cases bs with
    | nil => simp [continuation] at h
    | cons c cs =>
      rw [continuation] at h
      split at h
      · obtain ⟨hle, hlt⟩ := ih h
        have hc : c.toNat % 64 < 64 := Nat.mod_lt _ (by omega)
        rw [pow_succ]
        constructor
        · calc code * (64 ^ more * 64) = code * 64 * 64 ^ more := by ring
            _ ≤ (code * 64 + c.toNat % 64) * 64 ^ more := Nat.mul_le_mul_right _ (by omega)
            _ ≤ n := hle
        · calc n < (code * 64 + c.toNat % 64 + 1) * 64 ^ more := hlt
            _ ≤ ((code + 1) * 64) * 64 ^ more := Nat.mul_le_mul_right _ (by omega)
            _ = (code + 1) * (64 ^ more * 64) := by ring
      · simp at h

/-- The bits of the first two bytes, in the three lengths a longer sequence can have. -/
theorem leadByte_start {b c lo hi : UInt8} {more : ℕ} (h : leadByte b = some (lo, hi, more))
    (hlo : lo ≤ c) (hhi : c ≤ hi) :
    let start := leadBits b more * 64 + c.toNat % 64
    0x80 ≤ c ∧ ((more = 0 ∧ 128 ≤ start ∧ start < 2048) ∨
      (more = 1 ∧ 32 ≤ start ∧ (start < 864 ∨ 896 ≤ start ∧ start < 1024)) ∨
      (more = 2 ∧ 16 ≤ start ∧ start < 272)) := by
  unfold leadByte at h
  simp only [leadBits]
  split_ifs at h <;>
    obtain ⟨rfl, rfl, rfl⟩ : _ ∧ _ ∧ _ := (by simpa using h) <;>
    simp only [UInt8.le_iff_toNat_le, ← UInt8.toNat_inj, UInt8.reduceToNat, Nat.reduceSub,
      Nat.reducePow, OfNat.ofNat_ne_zero, OfNat.ofNat_ne_one, zero_ne_one,
      one_ne_zero, OfNat.zero_ne_ofNat, OfNat.one_ne_ofNat, false_and, true_and, or_false,
      false_or] at * <;>
    omega

/-- A sequence that starts above ASCII has no ASCII byte and stands for a character above
ASCII. -/
theorem sequence_above {b : UInt8} (hb : 0x80 ≤ b) (bs : List UInt8) :
    (∀ x ∈ bs.take (sequence b bs).2, 0x80 ≤ x) ∧
      ∀ n, (sequence b bs).1 = some n → n.isValidChar ∧ 0x80 ≤ n := by
  have hnot : ¬ b < 0x80 := by
    rw [UInt8.not_lt]
    exact hb
  unfold sequence
  rw [if_neg hnot]
  split
  · next lo hi more c cs hlead =>
    split
    · next hc =>
      obtain ⟨h80, hstart⟩ := leadByte_start hlead hc.1 hc.2
      constructor
      · intro x hx
        rcases List.mem_cons.mp hx with rfl | hx
        · exact h80
        · exact continuation_used _ _ _ x hx
      · intro n hn
        obtain ⟨hle, hlt⟩ := continuation_code hn
        rw [Nat.isValidChar]
        rcases hstart with ⟨rfl, h1, h2⟩ | ⟨rfl, h1, h2⟩ | ⟨rfl, h1, h2⟩ <;> omega
    · simp
  · simp

theorem toNat_ofNat {n : ℕ} (h : n.isValidChar) : (Char.ofNat n).toNat = n := by
  unfold Char.ofNat
  rw [dif_pos h]
  rfl

/-- A byte string cut into ASCII bytes and parts without ASCII bytes, and its text. -/
inductive Chunks : List UInt8 → List Char → Prop
  | nil : Chunks [] []
  | ascii {b : UInt8} (hb : b < 0x80) {bs : List UInt8} {cs : List Char} (h : Chunks bs cs) :
    Chunks (b :: bs) (Char.ofNat b.toNat :: cs)
  | above {part : List UInt8} (hne : part ≠ []) (hp : ∀ x ∈ part, 0x80 ≤ x) {c : Char}
    (hc : 0x80 ≤ c.toNat) {bs : List UInt8} {cs : List Char} (h : Chunks bs cs) :
    Chunks (part ++ bs) (c :: cs)

theorem chunks_decodeLoop (fuel : ℕ) (bytes : List UInt8) (h : bytes.length ≤ fuel) :
    Chunks bytes ((decodeLoop fuel bytes).map (·.getD '\uFFFD')) := by
  induction fuel generalizing bytes with
  | zero =>
    obtain rfl := List.length_eq_zero_iff.mp (Nat.le_zero.mp h)
    exact Chunks.nil
  | succ fuel ih =>
    cases bytes with
    | nil => exact Chunks.nil
    | cons b bs =>
      have hrest : Chunks (bs.drop (sequence b bs).2)
          ((decodeLoop fuel (bs.drop (sequence b bs).2)).map (·.getD '\uFFFD')) := by
        apply ih
        simp only [List.length_cons] at h
        simp only [List.length_drop]
        omega
      rw [decodeLoop, List.map_cons]
      by_cases hb : b < 0x80
      · have hseq : sequence b bs = (some b.toNat, 0) := by
          unfold sequence
          rw [if_pos hb]
        rw [hseq] at hrest ⊢
        exact Chunks.ascii hb hrest
      · rw [UInt8.not_lt] at hb
        obtain ⟨hused, hcode⟩ := sequence_above hb bs
        have hc : 0x80 ≤ (((sequence b bs).1.map Char.ofNat).getD '\uFFFD').toNat := by
          cases hs : (sequence b bs).1 with
          | none => decide
          | some n =>
            obtain ⟨hvalid, hn⟩ := hcode n hs
            rw [Option.map_some, Option.getD_some, toNat_ofNat hvalid]
            exact hn
        have hne : b :: bs.take (sequence b bs).2 ≠ [] := by simp
        have hpart := Chunks.above hne
          (List.forall_mem_cons.mpr ⟨hb, hused⟩) hc hrest
        rwa [List.cons_append, List.take_append_drop] at hpart

theorem chunks_lossy (bytes : List UInt8) : Chunks bytes (lossy bytes) :=
  chunks_decodeLoop bytes.length bytes le_rfl

def asciiChar (b : UInt8) : Char := Char.ofNat b.toNat

theorem lossy_ascii {b : UInt8} (hb : b < 0x80) (bytes : List UInt8) :
    lossy (b :: bytes) = asciiChar b :: lossy bytes := by
  have hsequence : sequence b bytes = (some b.toNat, 0) := by
    unfold sequence
    rw [if_pos hb]
  rw [lossy, decode, List.length_cons, decodeLoop, hsequence]
  rfl

theorem asciiChar_toNat {b : UInt8} (hb : b < 0x80) : (asciiChar b).toNat = b.toNat := by
  have hlt : b.toNat < 128 := by simpa [UInt8.lt_iff_toNat_lt] using hb
  exact toNat_ofNat (Or.inl (by omega))

theorem prefix_chunks {word : List UInt8} (hw : ∀ b ∈ word, b < 0x80) {bytes : List UInt8}
    {text : List Char} (h : Chunks bytes text) :
    word <+: bytes ↔ word.map asciiChar <+: text := by
  induction word generalizing bytes text with
  | nil => simp
  | cons a word ih =>
    obtain ⟨ha, hw⟩ := List.forall_mem_cons.mp hw
    cases h with
    | nil => simp
    | @ascii b hb bs cs h =>
      rw [List.map_cons, List.cons_prefix_cons, List.cons_prefix_cons, ih hw h]
      apply and_congr_left
      intro _
      constructor
      · rintro rfl
        rfl
      · intro heq
        have := congrArg Char.toNat heq
        rwa [asciiChar_toNat ha, ← asciiChar, asciiChar_toNat hb, UInt8.toNat_inj] at this
    | @above part hne hp c hc bs cs h =>
      obtain ⟨x, xs, rfl⟩ := List.exists_cons_of_ne_nil hne
      have hx := (List.forall_mem_cons.mp hp).1
      rw [List.map_cons, List.cons_append, List.cons_prefix_cons, List.cons_prefix_cons]
      have hax : a ≠ x := by
        rintro rfl
        exact absurd ha (UInt8.not_lt.mpr hx)
      have hac : asciiChar a ≠ c := by
        rintro rfl
        rw [asciiChar_toNat ha] at hc
        have hlt : a.toNat < 128 := by simpa [UInt8.lt_iff_toNat_lt] using ha
        omega
      simp [hax, hac]

theorem infix_above_append {word part bs : List UInt8} (hne : word ≠ [])
    (hw : ∀ b ∈ word, b < 0x80) (hp : ∀ x ∈ part, 0x80 ≤ x) :
    word <:+: part ++ bs ↔ word <:+: bs := by
  induction part with
  | nil => rfl
  | cons x part ih =>
    obtain ⟨hx, hp⟩ := List.forall_mem_cons.mp hp
    obtain ⟨a, word, rfl⟩ := List.exists_cons_of_ne_nil hne
    have ha := (List.forall_mem_cons.mp hw).1
    have hax : a ≠ x := by
      rintro rfl
      exact absurd ha (UInt8.not_lt.mpr hx)
    rw [List.cons_append, List.infix_cons_iff, ih hp, List.cons_prefix_cons]
    simp [hax]

/-- An ASCII word stands in a byte string exactly when it stands in its text. -/
theorem infix_lossy {word : List UInt8} (hne : word ≠ []) (hw : ∀ b ∈ word, b < 0x80)
    (bytes : List UInt8) : word <:+: bytes ↔ word.map asciiChar <:+: lossy bytes := by
  suffices h : ∀ {bytes text}, Chunks bytes text → (word <:+: bytes ↔ word.map asciiChar <:+: text)
    from h (chunks_lossy bytes)
  intro bytes text h
  induction h with
  | nil => simp
  | @ascii b hb bs cs h ih =>
    rw [List.infix_cons_iff, List.infix_cons_iff, ih, prefix_chunks hw (Chunks.ascii hb h)]
  | @above part hpne hp c hc bs cs h ih =>
    have hfirst := prefix_chunks hw (Chunks.above hpne hp hc h)
    have hno : ¬ word.map asciiChar <+: c :: cs := by
      rw [← hfirst]
      obtain ⟨a, word, rfl⟩ := List.exists_cons_of_ne_nil hne
      obtain ⟨x, xs, rfl⟩ := List.exists_cons_of_ne_nil hpne
      rw [List.cons_append, List.cons_prefix_cons]
      rintro ⟨rfl, -⟩
      exact absurd (List.forall_mem_cons.mp hw).1
        (UInt8.not_lt.mpr (List.forall_mem_cons.mp hp).1)
    rw [infix_above_append hne hw hp, ih, List.infix_cons_iff]
    simp [hno]

/-! ## Encoding and back

The bytes of a character by the length of its sequence. -/

theorem sequence_two {n : ℕ} (h : 0x7f < n) (h' : n ≤ 0x7ff) (rest : List UInt8) :
    sequence (.ofNat (n / 64 % 0x20 + 0xc0)) (.ofNat (n % 0x40 + 0x80) :: rest) = (some n, 1) := by
  have hb : (UInt8.ofNat (n / 64 % 0x20 + 0xc0)).toNat = n / 64 + 0xc0 := by
    rw [UInt8.toNat_ofNat']
    omega
  have hc : (UInt8.ofNat (n % 0x40 + 0x80)).toNat = n % 64 + 0x80 := by
    rw [UInt8.toNat_ofNat']
    omega
  have hlead : leadByte (.ofNat (n / 64 % 0x20 + 0xc0)) = some (0x80, 0xBF, 0) := by
    unfold leadByte
    rw [if_pos]
    simp only [UInt8.le_iff_toNat_le, hb, UInt8.reduceToNat]
    omega
  unfold sequence
  rw [hlead, if_neg]
  dsimp only
  rw [if_pos]
  · simp only [continuation, leadBits, hb, hc, Prod.mk.injEq, Option.some.injEq, Nat.reduceSub,
        Nat.reducePow, and_true]
    omega
  · simp only [UInt8.le_iff_toNat_le, hc, UInt8.reduceToNat]
    omega
  · simp only [UInt8.lt_iff_toNat_lt, hb, UInt8.reduceToNat]
    omega

theorem sequence_three {n : ℕ} (h : 0x7ff < n) (h' : n ≤ 0xffff)
    (hchar : n < 0xd800 ∨ 0xdfff < n) (rest : List UInt8) :
    sequence (.ofNat (n / 4096 % 0x10 + 0xe0))
      (.ofNat (n / 64 % 0x40 + 0x80) :: .ofNat (n % 0x40 + 0x80) :: rest) = (some n, 2) := by
  have hb : (UInt8.ofNat (n / 4096 % 0x10 + 0xe0)).toNat = n / 4096 + 0xe0 := by
    rw [UInt8.toNat_ofNat']
    omega
  have hc : (UInt8.ofNat (n / 64 % 0x40 + 0x80)).toNat = n / 64 % 64 + 0x80 := by
    rw [UInt8.toNat_ofNat']
    omega
  have hd : (UInt8.ofNat (n % 0x40 + 0x80)).toNat = n % 64 + 0x80 := by
    rw [UInt8.toNat_ofNat']
    omega
  have hlead : ∃ lo hi, leadByte (.ofNat (n / 4096 % 0x10 + 0xe0)) = some (lo, hi, 1) ∧
      lo ≤ UInt8.ofNat (n / 64 % 0x40 + 0x80) ∧ UInt8.ofNat (n / 64 % 0x40 + 0x80) ≤ hi := by
    unfold leadByte
    simp only [UInt8.le_iff_toNat_le, ← UInt8.toNat_inj, hb, hc, UInt8.reduceToNat]
    split_ifs <;> first
      | (exfalso; omega)
      | (refine ⟨_, _, rfl, ?_, ?_⟩ <;> simp only [UInt8.reduceToNat] <;> omega)
  obtain ⟨lo, hi, hlead, hlo, hhi⟩ := hlead
  have hlast : continuation ((n / 4096 + 0xe0) % 2 ^ (5 - 1) * 64 + (n / 64 % 64 + 0x80) % 64) 1
      (.ofNat (n % 0x40 + 0x80) :: rest) = (some n, 1) := by
    unfold continuation
    rw [if_pos]
    · simp only [continuation, hd, Prod.mk.injEq, Option.some.injEq, Nat.reduceSub,
        Nat.reducePow, and_true]
      omega
    · simp only [UInt8.le_iff_toNat_le, hd, UInt8.reduceToNat]
      omega
  unfold sequence
  rw [hlead, if_neg]
  dsimp only
  rw [if_pos ⟨hlo, hhi⟩, leadBits, hb, hc, hlast]
  simp only [UInt8.lt_iff_toNat_lt, hb, UInt8.reduceToNat]
  omega

theorem sequence_four {n : ℕ} (h : 0xffff < n) (h' : n ≤ 0x10ffff) (rest : List UInt8) :
    sequence (.ofNat (n / 262144 % 0x08 + 0xf0))
      (.ofNat (n / 4096 % 0x40 + 0x80) :: .ofNat (n / 64 % 0x40 + 0x80) ::
        .ofNat (n % 0x40 + 0x80) :: rest) = (some n, 3) := by
  have hb : (UInt8.ofNat (n / 262144 % 0x08 + 0xf0)).toNat = n / 262144 + 0xf0 := by
    rw [UInt8.toNat_ofNat']
    omega
  have hc : (UInt8.ofNat (n / 4096 % 0x40 + 0x80)).toNat = n / 4096 % 64 + 0x80 := by
    rw [UInt8.toNat_ofNat']
    omega
  have hd : (UInt8.ofNat (n / 64 % 0x40 + 0x80)).toNat = n / 64 % 64 + 0x80 := by
    rw [UInt8.toNat_ofNat']
    omega
  have he : (UInt8.ofNat (n % 0x40 + 0x80)).toNat = n % 64 + 0x80 := by
    rw [UInt8.toNat_ofNat']
    omega
  have hlead : ∃ lo hi, leadByte (.ofNat (n / 262144 % 0x08 + 0xf0)) = some (lo, hi, 2) ∧
      lo ≤ UInt8.ofNat (n / 4096 % 0x40 + 0x80) ∧ UInt8.ofNat (n / 4096 % 0x40 + 0x80) ≤ hi := by
    unfold leadByte
    simp only [UInt8.le_iff_toNat_le, ← UInt8.toNat_inj, hb, hc, UInt8.reduceToNat]
    split_ifs <;> first
      | (exfalso; omega)
      | (refine ⟨_, _, rfl, ?_, ?_⟩ <;> simp only [UInt8.reduceToNat] <;> omega)
  obtain ⟨lo, hi, hlead, hlo, hhi⟩ := hlead
  have hmore : continuation
      ((n / 262144 + 0xf0) % 2 ^ (5 - 2) * 64 + (n / 4096 % 64 + 0x80) % 64) 2
      (.ofNat (n / 64 % 0x40 + 0x80) :: .ofNat (n % 0x40 + 0x80) :: rest) = (some n, 2) := by
    unfold continuation
    rw [if_pos]
    · unfold continuation
      rw [if_pos]
      · simp only [continuation, hd, he, Prod.mk.injEq, Option.some.injEq, Nat.reduceSub,
        Nat.reducePow, and_true]
        omega
      · simp only [UInt8.le_iff_toNat_le, he, UInt8.reduceToNat]
        omega
    · simp only [UInt8.le_iff_toNat_le, hd, UInt8.reduceToNat]
      omega
  unfold sequence
  rw [hlead, if_neg]
  dsimp only
  rw [if_pos ⟨hlo, hhi⟩, leadBits, hb, hc, hmore]
  simp only [UInt8.lt_iff_toNat_lt, hb, UInt8.reduceToNat]
  omega

theorem decodeLoop_cons {b : UInt8} {part rest : List UInt8} {n fuel : ℕ}
    (h : sequence b (part ++ rest) = (some n, part.length)) :
    decodeLoop (fuel + 1) (b :: part ++ rest) = some (Char.ofNat n) :: decodeLoop fuel rest := by
  rw [List.cons_append, decodeLoop, h]
  simp

theorem decodeLoop_utf8EncodeChar (c : Char) (rest : List UInt8) (fuel : ℕ) :
    decodeLoop (fuel + 1) (String.utf8EncodeChar c ++ rest) = some c :: decodeLoop fuel rest := by
  have hchar : c.toNat < 0xd800 ∨ 0xdfff < c.toNat ∧ c.toNat < 0x110000 := c.valid
  have hback : Char.ofNat c.val.toNat = c := Char.ofNat_toNat c
  have hn : c.val.toNat = c.toNat := rfl
  unfold String.utf8EncodeChar
  dsimp only
  split_ifs with h1 h2 h3
  · have hb : (UInt8.ofNat c.val.toNat).toNat = c.val.toNat := by
      rw [UInt8.toNat_ofNat']
      omega
    have hseq : sequence (.ofNat c.val.toNat) ([] ++ rest) = (some c.val.toNat, 0) := by
      unfold sequence
      rw [if_pos, hb]
      simp only [UInt8.lt_iff_toNat_lt, hb, UInt8.reduceToNat]
      omega
    rw [decodeLoop_cons hseq, hback]
  · rw [decodeLoop_cons (sequence_two (by omega) h2 rest), hback]
  · rw [decodeLoop_cons (sequence_three (by omega) h3 (by omega) rest), hback]
  · rw [decodeLoop_cons (sequence_four (by omega) (by omega) rest), hback]

theorem decode_encode (text : List Char) :
    decode (text.flatMap String.utf8EncodeChar) = text.map some := by
  have hloop : ∀ fuel, (text.flatMap String.utf8EncodeChar).length ≤ fuel →
      decodeLoop fuel (text.flatMap String.utf8EncodeChar) = text.map some := by
    induction text with
    | nil => exact fun fuel _ => by cases fuel <;> rfl
    | cons c rest ih =>
      intro fuel hfuel
      rw [List.flatMap_cons, List.length_append, String.length_utf8EncodeChar] at hfuel
      have hpos := c.utf8Size_pos
      obtain ⟨fuel, rfl⟩ : ∃ more, fuel = more + 1 := ⟨fuel - 1, by omega⟩
      rw [List.flatMap_cons, decodeLoop_utf8EncodeChar, ih fuel (by omega), List.map_cons]
  exact hloop _ le_rfl

/-- What was encoded is read back. -/
theorem lossy_encode (text : List Char) : lossy (text.flatMap String.utf8EncodeChar) = text := by
  rw [lossy, decode_encode, List.map_map]
  exact List.map_id text

end Utf8
