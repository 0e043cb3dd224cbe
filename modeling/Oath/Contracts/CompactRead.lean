import Oath.Contracts.JsonReader
import Oath.Library.Outcome

/-! The compact text of a value, with the fields of its objects in the order they have, is read
back: as the value as a map of fields holds it, unless it is opened deeper than the reader goes. -/

namespace Oath.Contracts.Value
open Registry Replace

/-! ## Strings -/

theorem hexDigit?_digitChar {n : ℕ} (h : n < 16) : hexDigit? (Nat.digitChar n) = some n := by
  have hall : ∀ n < 16, hexDigit? (Nat.digitChar n) = some n := by decide
  exact hall n h

theorem readHex_digits {code : ℕ} (h : code < 32) (rest : List Char) :
    readHex ('0' :: '0' :: Nat.digitChar (code / 16) :: Nat.digitChar (code % 16) :: rest) =
      some (code, rest) := by
  have hzero : hexDigit? '0' = some 0 := by decide
  have hcode : code / 16 * 16 + code % 16 = code := by omega
  rw [readHex, hzero, hexDigit?_digitChar (by omega), hexDigit?_digitChar (by omega)]
  have hvalue : some (((0 * 16 + 0) * 16 + code / 16) * 16 + code % 16, rest) =
      some (code, rest) := by
    simp only [Nat.zero_mul, Nat.zero_add, hcode]
  exact hvalue

theorem readChar_escape (c : Char) (rest : List Char) :
    readChar (escape c ++ rest) = some (c, rest) := by
  have hchar : ∀ n, c.toNat = n → Char.ofNat n = c := fun n hn => hn ▸ Char.ofNat_toNat c
  unfold escape
  split_ifs with h1 h2 h3 h4 h5 h6 h7 h8
  · rw [h1]
    rfl
  · rw [h2]
    rfl
  · rw [← hchar 8 h3]
    rfl
  · rw [← hchar 9 h4]
    rfl
  · rw [← hchar 10 h5]
    rfl
  · rw [← hchar 12 h6]
    rfl
  · rw [← hchar 13 h7]
    rfl
  · have hunicode : readUnicode ('0' :: '0' :: Nat.digitChar (c.toNat / 16) ::
        Nat.digitChar (c.toNat % 16) :: rest) = some (c, rest) := by
      unfold readUnicode
      refine Option.bind_of_eq_some (readHex_digits h8 rest) ?_
      dsimp only
      rw [if_neg (by omega), if_neg (by omega), hchar c.toNat rfl]
    exact hunicode
  · rw [List.singleton_append, readChar, if_neg h2, if_neg h8]

theorem readText_escaped (s rest : List Char) {fuel : ℕ} (h : s.length < fuel) :
    readText fuel (s.flatMap escape ++ '"' :: rest) = some (s, rest) := by
  induction s generalizing fuel with
  | nil =>
    obtain ⟨fuel, rfl⟩ : ∃ more, fuel = more + 1 := ⟨fuel - 1, by rw [List.length_nil] at h; omega⟩
    rfl
  | cons c s ih =>
    rw [List.length_cons] at h
    obtain ⟨fuel, rfl⟩ : ∃ more, fuel = more + 1 := ⟨fuel - 1, by omega⟩
    have hhead : (escape c ++ (s.flatMap escape ++ '"' :: rest)).head? ≠ some '"' := by
      intro hquote
      obtain ⟨text, htext⟩ := List.head?_eq_some_iff.mp hquote
      exact escape_ne_quote c _ text htext
    rw [List.flatMap_cons, List.append_assoc, readText, if_neg hhead]
    refine Option.bind_of_eq_some (readChar_escape c _) ?_
    exact Option.bind_of_eq_some (ih (by omega)) rfl

theorem length_le_escaped (s : List Char) : s.length ≤ (s.flatMap escape).length := by
  have hone : ∀ c, 1 ≤ (escape c).length := by
    intro c
    unfold escape
    split_ifs <;> simp
  induction s with
  | nil => exact le_rfl
  | cons c s ih =>
    rw [List.flatMap_cons, List.length_append, List.length_cons]
    have := hone c
    omega

theorem readString_escaped (s : String) (rest : List Char) :
    readString (s.toList.flatMap escape ++ '"' :: rest) = some (s, rest) := by
  have hlength := length_le_escaped s.toList
  rw [readString, readText_escaped s.toList rest (by rw [List.length_append]; omega)]
  show some (String.ofList s.toList, rest) = _
  rw [String.ofList_toList]

/-! ## Numbers -/

theorem head_toDigits {n : ℕ} (h : 0 < n) : (Nat.toDigits 10 n).head? ≠ some '0' := by
  induction n using Nat.strong_induction_on with
  | _ n ih =>
    by_cases hsmall : n < 10
    · rw [Nat.toDigits_of_lt_base hsmall, List.head?_cons, Ne, Option.some.injEq,
        Nat.digitChar_eq_zero]
      omega
    · have hlarge : 10 ≤ n := by omega
      rw [Nat.toDigits_of_base_le (by decide) hlarge, List.head?_append]
      have hrest := ih (n / 10) (by omega) (by omega)
      cases hdigits : (Nat.toDigits 10 (n / 10)).head? with
      | none => exact absurd (List.head?_eq_none_iff.mp hdigits) Nat.toDigits_ne_nil
      | some c =>
        rw [hdigits] at hrest
        exact hrest

theorem not_leading_zero (n : ℕ) : ¬ (Nat.toDigits 10 n = [] ∨
    (Nat.toDigits 10 n).head? = some '0' ∧ (Nat.toDigits 10 n).length ≠ 1) := by
  rintro (hnil | ⟨hzero, hlength⟩)
  · exact Nat.toDigits_ne_nil hnil
  · rcases Nat.eq_zero_or_pos n with rfl | hpos
    · exact hlength rfl
    · exact head_toDigits hpos hzero

/-- What follows is not more of a number. -/
def Stops (rest : List Char) : Prop :=
  ∀ c, rest.head? = some c → c.isDigit = false ∧ c ≠ '.' ∧ c ≠ 'e' ∧ c ≠ 'E'

theorem Ends.stops {rest : List Char} (h : Ends rest) : Stops rest := by
  intro c hc
  have hmem : c = ',' ∨ c = ']' ∨ c = '\x7d' := by simpa using h c hc
  rcases hmem with rfl | rfl | rfl <;> decide

theorem takeWhile_digits {digits rest : List Char} (hdigits : ∀ c ∈ digits, c.isDigit)
    (h : Stops rest) : (digits ++ rest).takeWhile Char.isDigit = digits ∧
      (digits ++ rest).dropWhile Char.isDigit = rest := by
  have hstop : rest.takeWhile Char.isDigit = [] ∧ rest.dropWhile Char.isDigit = rest := by
    cases rest with
    | nil => exact ⟨rfl, rfl⟩
    | cons c more =>
      have hdigit : ¬c.isDigit = true := by rw [(h c rfl).1]; exact Bool.false_ne_true
      exact ⟨List.takeWhile_cons_of_neg hdigit, List.dropWhile_cons_of_neg hdigit⟩
  rw [List.takeWhile_append_of_pos hdigits, List.dropWhile_append_of_pos hdigits, hstop.1, hstop.2,
    List.append_nil]
  exact ⟨rfl, rfl⟩

theorem readFraction_stops {rest : List Char} (h : Stops rest) :
    readFraction rest = some ([], rest) ∧ readExponent rest = some ([], rest) := by
  cases rest with
  | nil => exact ⟨rfl, rfl⟩
  | cons c more =>
    obtain ⟨-, hpoint, hsmall, hlarge⟩ := h c rfl
    constructor
    · unfold readFraction
      split
      · next heq => exact absurd (List.cons.inj heq).1 hpoint
      · rfl
    · exact if_neg (not_or.mpr ⟨hsmall, hlarge⟩)

section Reader
variable {readFloat : List Char → Option String}

theorem readUnsigned_digits {minus : Bool} {n : ℕ} {value : ℤ} {rest : List Char}
    (hnumber : numberOf minus (Nat.toDigits 10 n) = some value) (h : Stops rest) :
    readUnsigned readFloat minus (Nat.toDigits 10 n ++ rest) = some (int value, rest) := by
  have hdigits : ∀ c ∈ Nat.toDigits 10 n, c.isDigit :=
    fun c hc => Nat.isDigit_of_mem_toDigits (by decide) (by decide) hc
  obtain ⟨htake, hdrop⟩ := takeWhile_digits hdigits h
  obtain ⟨hfraction, hexponent⟩ := readFraction_stops h
  unfold readUnsigned
  rw [htake, hdrop]
  dsimp only
  rw [if_neg (not_leading_zero n)]
  refine Option.bind_of_eq_some hfraction (Option.bind_of_eq_some hexponent ?_)
  dsimp only
  rw [if_pos ⟨rfl, rfl⟩, hnumber]

theorem toString_int (n : ℤ) : (toString n).toList =
    if n < 0 then '-' :: Nat.toDigits 10 n.natAbs else Nat.toDigits 10 n.natAbs := by
  rw [Int.toString_eq_repr, Int.repr_eq_if]
  by_cases h : n < 0
  · rw [if_neg (by omega), if_pos h, String.toList_append, Nat.toList_repr]
    have habs : (-n).toNat = n.natAbs := by omega
    rw [habs]
    rfl
  · rw [if_pos (by omega), if_neg h, Nat.toList_repr]
    have habs : n.toNat = n.natAbs := by omega
    rw [habs]

theorem readNumber_toString {n : ℤ} {rest : List Char} (hmachine : isMachine n) (h : Stops rest) :
    readNumber readFloat ((toString n).toList ++ rest) = some (int n, rest) := by
  rw [toString_int]
  by_cases hsign : n < 0
  · rw [if_pos hsign, readNumber, List.cons_append, if_pos (List.head?_cons ..)]
    refine readUnsigned_digits ?_ h
    have habs : -((n.natAbs : ℕ) : ℤ) = n := by omega
    have hzero : ¬ ((n.natAbs : ℕ) : ℤ) = 0 := by omega
    rw [numberOf, Nat.ofDigitChars_ten_toDigits]
    simp only [hzero, and_false, if_false, if_true, habs, hmachine]
  · have hhead : (Nat.toDigits 10 n.natAbs ++ rest).head? ≠ some '-' := by
      intro hminus
      rw [List.head?_append_of_ne_nil _ Nat.toDigits_ne_nil] at hminus
      have hdigit := Nat.isDigit_of_mem_toDigits (by decide) (by decide)
        (List.mem_of_mem_head? hminus)
      exact absurd hdigit (by decide)
    rw [if_neg hsign, readNumber, if_neg hhead]
    refine readUnsigned_digits ?_ h
    have habs : ((n.natAbs : ℕ) : ℤ) = n := by omega
    rw [numberOf, Nat.ofDigitChars_ten_toDigits]
    simp only [Bool.false_eq_true, false_and, if_false, habs, hmachine, if_true]

/-! ## Values -/

theorem ne_of_numeral {c other : Char} (h : isNumeral c) (hother : isNumeral other = false) :
    c ≠ other := by
  intro heq
  rw [heq, hother] at h
  cases h

theorem not_isSpace_numeral {c : Char} (h : isNumeral c) : isSpace c = false := by
  have hne : ∀ other, isNumeral other = false → c ≠ other := fun _ => ne_of_numeral h
  simp only [isSpace, Bool.or_eq_false_iff, decide_eq_false_iff_not]
  exact ⟨⟨⟨hne ' ' (by decide), hne '\n' (by decide)⟩, hne '\t' (by decide)⟩,
    hne '\r' (by decide)⟩

theorem skipSpace_cons {c : Char} (h : isSpace c = false) (cs : List Char) :
    skipSpace (c :: cs) = c :: cs :=
  List.dropWhile_cons_of_neg (by rw [h]; exact Bool.false_ne_true)

theorem readValue_numeral {fuel limit : ℕ} {c : Char} {cs : List Char} (h : isNumeral c) :
    readValue readFloat (fuel + 1) limit (c :: cs) = readNumber readFloat (c :: cs) := by
  have hne : ∀ other, isNumeral other = false → c ≠ other := fun _ => ne_of_numeral h
  rw [readValue, skipSpace_cons (not_isSpace_numeral h)]
  split
  · next heq => exact absurd (List.cons.inj heq).1 (hne 'n' (by decide))
  · next heq => exact absurd (List.cons.inj heq).1 (hne 't' (by decide))
  · next heq => exact absurd (List.cons.inj heq).1 (hne 'f' (by decide))
  · next heq => exact absurd (List.cons.inj heq).1 (hne '"' (by decide))
  · next heq => exact absurd (List.cons.inj heq).1 (hne '[' (by decide))
  · next heq => exact absurd (List.cons.inj heq).1 (hne '\x7b' (by decide))
  · rfl

mutual

/-- How often values are opened in one another. -/
def depth : Value → ℕ
  | array values => 1 + depthItems values
  | object fields => 1 + depthFields fields
  | _ => 0

def depthItems : List Value → ℕ
  | [] => 0
  | value :: rest => max (depth value) (depthItems rest)

def depthFields : List (String × Value) → ℕ
  | [] => 0
  | (_, value) :: rest => max (depth value) (depthFields rest)

end

mutual

/-- The steps that reading the value takes. -/
def steps : Value → ℕ
  | array values => 1 + stepsItems values
  | object fields => 1 + stepsFields fields
  | _ => 1

def stepsItems : List Value → ℕ
  | [] => 0
  | value :: rest => 1 + steps value + stepsItems rest

def stepsFields : List (String × Value) → ℕ
  | [] => 0
  | (_, value) :: rest => 1 + steps value + stepsFields rest

end

/-- Every number is an integer of the machine. -/
def isMachineIntegral : Value → Bool := numbersAre isMachine (fun _ => false)

theorem isMachineIntegral_cons {value : Value} {values : List Value} :
    isMachineIntegral (array (value :: values)) ↔
      isMachineIntegral value ∧ isMachineIntegral (array values) := by
  simp only [isMachineIntegral, numbersAre, numbersAreItems, Bool.and_eq_true]

theorem isMachineIntegralFields_cons {key : String} {value : Value}
    {fields : List (String × Value)} :
    isMachineIntegral (object ((key, value) :: fields)) ↔
      isMachineIntegral value ∧ isMachineIntegral (object fields) := by
  simp only [isMachineIntegral, numbersAre, numbersAreFields, Bool.and_eq_true]

mutual

/-- The text as serde_json writes it: no blanks, and the fields of an object as they come. -/
def compact : Value → List Char
  | null => "null".toList
  | bool value => (if value then "true" else "false").toList
  | int value => (toString value).toList
  | float text => text.toList
  | string value => quoted value
  | array values => '[' :: compactItems true values
  | object fields => '\x7b' :: compactFields true fields

/-- The items of an array and its end, with a comma before all but the first. -/
def compactItems : Bool → List Value → List Char
  | _, [] => [']']
  | first, value :: rest =>
    (if first then [] else [',']) ++ (compact value ++ compactItems false rest)

def compactFields : Bool → List (String × Value) → List Char
  | _, [] => ['\x7d']
  | first, (key, value) :: rest =>
    (if first then [] else [',']) ++
      (quoted key ++ ':' :: (compact value ++ compactFields false rest))

end

theorem ends_compactItems (values : List Value) (rest : List Char) :
    Ends (compactItems false values ++ rest) := by
  intro c hc
  cases values with
  | nil =>
    obtain rfl := Option.some.inj hc
    decide
  | cons value values =>
    obtain rfl := Option.some.inj hc
    decide

theorem ends_compactFields (fields : List (String × Value)) (rest : List Char) :
    Ends (compactFields false fields ++ rest) := by
  intro c hc
  cases fields with
  | nil =>
    obtain rfl := Option.some.inj hc
    decide
  | cons field fields =>
    obtain rfl := Option.some.inj hc
    decide

/-- The text of a value does not start with white space or a bracket that closes. -/
theorem compact_head {value : Value} (h : value.isMachineIntegral) :
    ∃ c cs, compact value = c :: cs ∧ isSpace c = false ∧ c ≠ ']' := by
  cases value with
  | null => exact ⟨'n', _, rfl, by decide, by decide⟩
  | bool value =>
    cases value with
    | false => exact ⟨'f', _, rfl, by decide, by decide⟩
    | true => exact ⟨'t', _, rfl, by decide, by decide⟩
  | int value =>
    obtain ⟨c, more, hcons⟩ := List.exists_cons_of_ne_nil (toString_ne_nil value)
    have hnumeral := isNumeral_toString value c (by rw [hcons]; exact List.mem_cons_self)
    exact ⟨c, more, hcons, not_isSpace_numeral hnumeral, ne_of_numeral hnumeral (by decide)⟩
  | float text => cases h
  | string value => exact ⟨'"', _, quoted_eq value, by decide, by decide⟩
  | array values => exact ⟨'[', _, rfl, by decide, by decide⟩
  | object fields => exact ⟨'\x7b', _, rfl, by decide, by decide⟩

theorem compact_array_cons (value : Value) (values : List Value) (rest : List Char) :
    compact (array (value :: values)) ++ rest =
      '[' :: (compact value ++ (compactItems false values ++ rest)) := by
  rw [compact, compactItems, if_pos rfl, List.nil_append, List.cons_append, List.append_assoc]

theorem compact_object_cons (field : String × Value) (fields : List (String × Value))
    (rest : List Char) : compact (object (field :: fields)) ++ rest =
      '\x7b' :: (quoted field.1 ++ ':' :: (compact field.2 ++
        (compactFields false fields ++ rest))) := by
  rw [compact, compactFields, if_pos rfl, List.nil_append, List.cons_append, List.append_assoc,
    List.cons_append, List.append_assoc]

theorem steps_pos (value : Value) : 1 ≤ value.steps := by
  cases value with
  | array values => exact Nat.le_add_right 1 _
  | object fields => exact Nat.le_add_right 1 _
  | _ => exact le_rfl

theorem readValue_array (fuel limit : ℕ) (cs : List Char) :
    readValue readFloat (fuel + 1) limit ('[' :: cs) =
      if limit = 0 then none
      else if (skipSpace cs).head? = some ']' then some (array [], (skipSpace cs).tail)
      else (readItems readFloat fuel (limit - 1) cs).map fun (values, rest) =>
        (array values, rest) := rfl

theorem readValue_object (fuel limit : ℕ) (cs : List Char) :
    readValue readFloat (fuel + 1) limit ('\x7b' :: cs) =
      if limit = 0 then none
      else if (skipSpace cs).head? = some '\x7d' then some (object [], (skipSpace cs).tail)
      else (readMembers readFloat fuel (limit - 1) [] cs).map fun (fields, rest) =>
        (object fields, rest) := rfl

/-- What reading gives when the value is not opened too deep. -/
def within {α : Type} (levels limit : ℕ) (result : α) : Option α :=
  if levels ≤ limit then some result else none

theorem within_of_le {α : Type} {levels limit : ℕ} (h : levels ≤ limit) (result : α) :
    within levels limit result = some result :=
  if_pos h

theorem within_of_lt {α : Type} {levels limit : ℕ} (h : limit < levels) (result : α) :
    within levels limit result = none :=
  if_neg (not_le.mpr h)

theorem map_within {α β : Type} (levels limit : ℕ) (result : α) (f : α → β) :
    (within levels limit result).map f = within levels limit (f result) := by
  unfold within
  split_ifs
  · rfl
  · rfl

/-- The levels of a bracket and of what stands in it. -/
theorem within_succ {α : Type} {levels limit : ℕ} (h : ¬ limit = 0) (result : α) :
    within levels (limit - 1) result = within (1 + levels) limit result := by
  have hiff : levels ≤ limit - 1 ↔ 1 + levels ≤ limit := by omega
  simp only [within, hiff]

/-- Something read in two parts, one after the other. -/
theorem within_bind {α β γ : Type} {first second limit : ℕ} {a : α} {b : β} {f : α → Option γ}
    {g : β → γ} (h : f a = (within second limit b).map g) :
    (within first limit a).bind f = within (max first second) limit (g b) := by
  rcases le_or_gt first limit with hfirst | hfirst
  · rw [within_of_le hfirst, Option.bind_some, h, map_within]
    have hiff : second ≤ limit ↔ max first second ≤ limit :=
      ⟨fun hsecond => max_le hfirst hsecond, fun hmax => le_trans (le_max_right _ _) hmax⟩
    simp only [within, hiff]
  · rw [within_of_lt hfirst, within_of_lt (lt_of_lt_of_le hfirst (le_max_left _ _))]
    rfl

theorem within_zero {α : Type} (limit : ℕ) (result : α) : within 0 limit result = some result :=
  within_of_le (Nat.zero_le limit) result

theorem readValue_int {n : ℤ} {rest : List Char} (h : isMachine n) (hrest : Stops rest)
    (fuel limit : ℕ) :
    readValue readFloat (fuel + 1) limit (compact (int n) ++ rest) = some (int n, rest) := by
  obtain ⟨c, more, hcons⟩ := List.exists_cons_of_ne_nil (toString_ne_nil n)
  have hnumeral := isNumeral_toString n c (by rw [hcons]; exact List.mem_cons_self)
  have hread : readNumber readFloat ((toString n).toList ++ rest) = some (int n, rest) :=
    readNumber_toString h hrest
  have htext : compact (int n) = (toString n).toList := rfl
  rw [hcons] at hread htext
  rw [htext, List.cons_append, readValue_numeral hnumeral]
  exact hread

theorem quoted_append (key : String) (rest : List Char) :
    quoted key ++ rest = '"' :: (key.toList.flatMap escape ++ '"' :: rest) := by
  rw [quoted_eq, List.cons_append, List.append_assoc]
  rfl

theorem readValue_string (s : String) (rest : List Char) (fuel limit : ℕ) :
    readValue readFloat (fuel + 1) limit (compact (string s) ++ rest) = some (string s, rest) := by
  have htext : compact (string s) ++ rest = '"' :: (s.toList.flatMap escape ++ '"' :: rest) :=
    quoted_append s rest
  rw [htext, readValue_quote, readString_escaped]
  rfl

theorem readValue_array_nil (rest : List Char) (fuel limit : ℕ) :
    readValue readFloat (fuel + 1) limit (compact (array []) ++ rest) =
      within 1 limit (array [], rest) := by
  have htext : compact (array []) ++ rest = '[' :: ']' :: rest := rfl
  rw [htext, readValue_array]
  rcases Nat.eq_zero_or_pos limit with rfl | hpos
  · rfl
  · rw [if_neg (by omega), within_of_le hpos]
    rfl

theorem readValue_array_cons {value : Value} {values others : List Value} {rest : List Char}
    {fuel limit levels : ℕ} (hvalue : value.isMachineIntegral)
    (h : readItems readFloat fuel (limit - 1)
      (compact value ++ (compactItems false values ++ rest)) =
        within levels (limit - 1) (others, rest)) :
    readValue readFloat (fuel + 1) limit (compact (array (value :: values)) ++ rest) =
      within (1 + levels) limit (array others, rest) := by
  rw [compact_array_cons, readValue_array]
  rcases Nat.eq_zero_or_pos limit with rfl | hpos
  · rw [if_pos rfl, within_of_lt (by omega)]
  · have hlimit : ¬ limit = 0 := by omega
    obtain ⟨c, cs, hhead, hspace, hclosing⟩ := compact_head hvalue
    have hskip : (skipSpace (compact value ++ (compactItems false values ++ rest))).head? =
        some c := by
      rw [hhead, List.cons_append, skipSpace_cons hspace]
      rfl
    rw [if_neg hlimit, hskip, if_neg fun heq => hclosing (Option.some.inj heq), h, map_within,
      within_succ hlimit]

theorem readValue_object_nil (rest : List Char) (fuel limit : ℕ) :
    readValue readFloat (fuel + 1) limit (compact (object []) ++ rest) =
      within 1 limit (object [], rest) := by
  have htext : compact (object []) ++ rest = '\x7b' :: '\x7d' :: rest := rfl
  rw [htext, readValue_object]
  rcases Nat.eq_zero_or_pos limit with rfl | hpos
  · rfl
  · rw [if_neg (by omega), within_of_le hpos]
    rfl

theorem readValue_object_cons {field : String × Value} {fields others : List (String × Value)}
    {rest : List Char} {fuel limit levels : ℕ}
    (h : readMembers readFloat fuel (limit - 1) []
      (quoted field.1 ++ ':' :: (compact field.2 ++ (compactFields false fields ++ rest))) =
        within levels (limit - 1) (others, rest)) :
    readValue readFloat (fuel + 1) limit (compact (object (field :: fields)) ++ rest) =
      within (1 + levels) limit (object others, rest) := by
  rw [compact_object_cons, readValue_object]
  rcases Nat.eq_zero_or_pos limit with rfl | hpos
  · rw [if_pos rfl, within_of_lt (by omega)]
  · have hlimit : ¬ limit = 0 := by omega
    have hopen : (skipSpace (quoted field.1 ++ ':' :: (compact field.2 ++
        (compactFields false fields ++ rest)))).head? ≠ some '\x7d' := by
      rw [quoted_eq, List.cons_append, skipSpace_cons (by decide), List.head?_cons]
      decide
    rw [if_neg hlimit, if_neg hopen, h, map_within, within_succ hlimit]

variable (readFloat) in
/-- With this fuel every value is read whose steps it pays. -/
def Reads (fuel : ℕ) : Prop :=
  ∀ value : Value, value.isMachineIntegral → value.steps ≤ fuel →
    ∀ (limit : ℕ) (rest : List Char), Ends rest →
      readValue readFloat fuel limit (compact value ++ rest) =
        within value.depth limit (value.ordered, rest)

theorem readItems_compact (value : Value) (values : List Value)
    (hmachine : isMachineIntegral (array (value :: values))) {fuel : ℕ}
    (hreads : ∀ less < fuel, Reads readFloat less) (hfuel : stepsItems (value :: values) ≤ fuel)
    (limit : ℕ) (rest : List Char) :
    readItems readFloat fuel limit (compact value ++ (compactItems false values ++ rest)) =
      within (depthItems (value :: values)) limit (orderedItems (value :: values), rest) := by
  induction values generalizing value fuel with
  | nil =>
    rw [stepsItems] at hfuel
    obtain ⟨fuel, rfl⟩ : ∃ more, fuel = more + 1 := ⟨fuel - 1, by omega⟩
    have hfirst := hreads fuel (Nat.lt_succ_self fuel) value (isMachineIntegral_cons.mp hmachine).1
      (by omega) limit _ (ends_compactItems [] rest)
    rw [readItems_cons, hfirst, depthItems]
    exact within_bind (b := ([], rest)) (g := fun items => (value.ordered :: items.1, items.2)) rfl
  | cons next values ih =>
    rw [stepsItems] at hfuel
    obtain ⟨fuel, rfl⟩ : ∃ more, fuel = more + 1 := ⟨fuel - 1, by omega⟩
    obtain ⟨hvalue, hvalues⟩ := isMachineIntegral_cons.mp hmachine
    have hfirst := hreads fuel (Nat.lt_succ_self fuel) value hvalue (by omega) limit _
      (ends_compactItems (next :: values) rest)
    have hnext := ih next hvalues (fun less hless => hreads less (Nat.lt_succ_of_lt hless))
      (by omega)
    have hcomma : compactItems false (next :: values) ++ rest =
        ',' :: (compact next ++ (compactItems false values ++ rest)) := by
      rw [compactItems, List.append_assoc, List.append_assoc]
      rfl
    rw [readItems_cons, hfirst, depthItems]
    refine within_bind (b := (orderedItems (next :: values), rest))
      (g := fun items => (value.ordered :: items.1, items.2)) ?_
    rw [← hnext, hcomma]
    rfl

/-- Fields put one after the other into a map of fields. -/
def insertFields (fields acc : List (String × Value)) : List (String × Value) :=
  fields.foldl (fun acc field => insertField field.1 field.2 acc) acc

theorem readMembers_compact (acc : List (String × Value)) (field : String × Value)
    (fields : List (String × Value)) (hmachine : isMachineIntegral (object (field :: fields)))
    {fuel : ℕ} (hreads : ∀ less < fuel, Reads readFloat less)
    (hfuel : stepsFields (field :: fields) ≤ fuel) (limit : ℕ) (rest : List Char) :
    readMembers readFloat fuel limit acc
        (quoted field.1 ++ ':' :: (compact field.2 ++ (compactFields false fields ++ rest))) =
      within (depthFields (field :: fields)) limit
        (insertFields (orderedFields (field :: fields)) acc, rest) := by
  induction fields generalizing acc field fuel with
  | nil =>
    rw [stepsFields] at hfuel
    obtain ⟨fuel, rfl⟩ : ∃ more, fuel = more + 1 := ⟨fuel - 1, by omega⟩
    have hfirst := hreads fuel (Nat.lt_succ_self fuel) field.2
      (isMachineIntegralFields_cons.mp hmachine).1 (by omega) limit _ (ends_compactFields [] rest)
    rw [quoted_append, readMembers_cons (readString_escaped field.1 _), hfirst, depthFields]
    exact within_bind (b := (insertField field.1 field.2.ordered acc, rest)) (g := id) rfl
  | cons next fields ih =>
    rw [stepsFields] at hfuel
    obtain ⟨fuel, rfl⟩ : ∃ more, fuel = more + 1 := ⟨fuel - 1, by omega⟩
    obtain ⟨hvalue, hfields⟩ := isMachineIntegralFields_cons.mp hmachine
    have hfirst := hreads fuel (Nat.lt_succ_self fuel) field.2 hvalue (by omega) limit _
      (ends_compactFields (next :: fields) rest)
    have hnext := ih (insertField field.1 field.2.ordered acc) next hfields
      (fun less hless => hreads less (Nat.lt_succ_of_lt hless)) (by omega)
    have hcomma : compactFields false (next :: fields) ++ rest =
        ',' :: (quoted next.1 ++ ':' :: (compact next.2 ++
          (compactFields false fields ++ rest))) := by
      rw [compactFields, List.append_assoc, List.append_assoc, List.cons_append,
        List.append_assoc]
      rfl
    rw [quoted_append, readMembers_cons (readString_escaped field.1 _), hfirst, depthFields]
    refine within_bind (b := (insertFields (orderedFields (field :: next :: fields)) acc, rest))
      (g := id) ?_
    rw [hcomma, Option.map_id]
    exact hnext

/-- Compact text is read back unless it is opened too deep. -/
theorem readValue_compact (fuel : ℕ) : Reads readFloat fuel := by
  induction fuel using Nat.strong_induction_on with
  | _ fuel hreads =>
    intro value hmachine hfuel limit rest hrest
    have hpos := steps_pos value
    obtain ⟨fuel, rfl⟩ : ∃ more, fuel = more + 1 := ⟨fuel - 1, by omega⟩
    have hless : ∀ less < fuel, Reads readFloat less :=
      fun less hless => hreads less (Nat.lt_succ_of_lt hless)
    cases value with
    | null => exact (within_zero limit _).symm
    | bool value =>
      cases value with
      | false => exact (within_zero limit _).symm
      | true => exact (within_zero limit _).symm
    | int value =>
      exact (readValue_int hmachine hrest.stops fuel limit).trans (within_zero limit _).symm
    | float text => cases hmachine
    | string value =>
      exact (readValue_string value rest fuel limit).trans (within_zero limit _).symm
    | array values =>
      rw [steps] at hfuel
      cases values with
      | nil => exact readValue_array_nil rest fuel limit
      | cons value values =>
        exact readValue_array_cons (isMachineIntegral_cons.mp hmachine).1
          (readItems_compact value values hmachine hless (by omega) _ rest)
    | object fields =>
      rw [steps] at hfuel
      cases fields with
      | nil => exact readValue_object_nil rest fuel limit
      | cons field fields =>
        exact readValue_object_cons
          (readMembers_compact [] field fields hmachine hless (by omega) _ rest)

end Reader

/-! ## The whole text -/

theorem compact_pos {value : Value} (h : value.isMachineIntegral) :
    1 ≤ (compact value).length := by
  obtain ⟨c, cs, htext, -⟩ := compact_head h
  rw [htext, List.length_cons]
  omega

mutual

/-- A text is as long as the steps that read it. -/
theorem steps_le (value : Value) (h : value.isMachineIntegral) :
    value.steps ≤ (compact value).length := by
  cases value with
  | null => exact compact_pos h
  | bool value => exact compact_pos h
  | int value => exact compact_pos h
  | float text => cases h
  | string value => exact compact_pos h
  | array values =>
    have hitems := stepsItems_le true values h
    rw [steps, compact, List.length_cons]
    omega
  | object fields =>
    have hfields := stepsFields_le true fields h
    rw [steps, compact, List.length_cons]
    omega

theorem stepsItems_le (first : Bool) (values : List Value)
    (h : isMachineIntegral (array values)) :
    stepsItems values + (if first then 0 else 1) ≤ (compactItems first values).length := by
  cases values with
  | nil => cases first <;> decide
  | cons value values =>
    obtain ⟨hvalue, hvalues⟩ := isMachineIntegral_cons.mp h
    have hfirst := steps_le value hvalue
    have hrest : stepsItems values + 1 ≤ (compactItems false values).length :=
      stepsItems_le false values hvalues
    rw [stepsItems, compactItems, List.length_append, List.length_append]
    cases first with
    | true =>
      rw [if_pos rfl, if_pos rfl, List.length_nil]
      omega
    | false =>
      rw [if_neg Bool.false_ne_true, if_neg Bool.false_ne_true, List.length_singleton]
      omega

theorem stepsFields_le (first : Bool) (fields : List (String × Value))
    (h : isMachineIntegral (object fields)) :
    stepsFields fields + (if first then 0 else 1) ≤ (compactFields first fields).length := by
  cases fields with
  | nil => cases first <;> decide
  | cons field fields =>
    obtain ⟨key, value⟩ := field
    obtain ⟨hvalue, hfields⟩ := isMachineIntegralFields_cons.mp h
    have hfirst := steps_le value hvalue
    have hrest : stepsFields fields + 1 ≤ (compactFields false fields).length :=
      stepsFields_le false fields hfields
    rw [stepsFields, compactFields, List.length_append, List.length_append, List.length_cons,
      List.length_append]
    cases first with
    | true =>
      rw [if_pos rfl, if_pos rfl, List.length_nil]
      omega
    | false =>
      rw [if_neg Bool.false_ne_true, if_neg Bool.false_ne_true, List.length_singleton]
      omega

end

/-- A text that is read to its end. -/
theorem fromSlice_encode {cs : List Char} {value : Value} {levels limit : ℕ}
    (readFloat : List Char → Option String)
    (h : readValue readFloat (cs.length + 1) limit (cs ++ []) = within levels limit (value, [])) :
    fromSlice readFloat limit (encode cs) = within levels limit value := by
  have hvalid : Utf8.isValid (encode cs) := by
    rw [Utf8.isValid, encode, Utf8.decode_encode, List.all_map]
    exact List.all_eq_true.mpr fun _ _ => rfl
  have htext : Utf8.lossy (encode cs) = cs := Utf8.lossy_encode _
  rw [List.append_nil] at h
  rw [fromSlice, if_pos hvalid, htext]
  rcases le_or_gt levels limit with hle | hlt
  · rw [within_of_le hle] at h ⊢
    exact Option.bind_of_eq_some h rfl
  · rw [within_of_lt hlt] at h ⊢
    exact Option.bind_eq_none_iff.mpr fun row hrow => by rw [h] at hrow; cases hrow

/-- What the compact text of a value is read as: the value with its fields in order, unless it is
opened deeper than the reader goes. -/
theorem fromSlice_compact {value : Value} (readFloat : List Char → Option String)
    (hmachine : value.isMachineIntegral) (limit : ℕ) :
    fromSlice readFloat limit (encode (compact value)) =
      within value.depth limit value.ordered := by
  have hfuel := steps_le value hmachine
  have hends : Ends [] := by
    intro c hc
    cases hc
  exact fromSlice_encode readFloat
    (readValue_compact _ value hmachine (Nat.le_succ_of_le hfuel) limit [] hends)

end Oath.Contracts.Value
