import Oath.Contracts.Json
import Oath.Library.Replace

/-! The canonical text of a value as the contract libraries of the other languages write it.
They differ in how they quote a string, in the numbers they take and in how they compare keys. What
`encoding/json` escapes more than the others, Go's `writeString` takes back by replacing it in the encoded
text: a string that holds the text of such an escape after a backslash comes out shorter than it should. -/

namespace Oath.Contracts
open Registry Replace

/-- A library's ways of writing. -/
structure Writer where
  string : String → List UInt8
  int : ℤ → Except String (List UInt8)
  float : String → Except String (List UInt8)
  /-- Whether a key may stand before another. -/
  keyLe : String → String → Bool

namespace Writer
variable (w : Writer)

def brackets (items : List (List UInt8)) : List UInt8 :=
  asBytes "[" ++ (asBytes ",").intercalate items ++ asBytes "]"

def braces (members : List (List UInt8)) : List UInt8 :=
  asBytes "\x7b" ++ (asBytes ",").intercalate members ++ asBytes "\x7d"

mutual

/-- The members of an object are written in the order of their keys, which are distinct. -/
def write : Value → Except String (List UInt8)
  | .null => .ok (asBytes "null")
  | .bool value => .ok (asBytes (if value then "true" else "false"))
  | .int value => w.int value
  | .float text => w.float text
  | .string value => .ok (w.string value)
  | .array values => do
    let items ← writeItems values
    .ok (brackets items)
  | .object fields => do
    let sorted := (writeFields fields).mergeSort fun a b => w.keyLe a.1 b.1
    let members ← sorted.mapM fun member =>
      member.2.map fun text => w.string member.1 ++ asBytes ":" ++ text
    .ok (braces members)

def writeItems : List Value → Except String (List (List UInt8))
  | [] => .ok []
  | value :: rest => do
    let text ← write value
    let texts ← writeItems rest
    .ok (text :: texts)

def writeFields : List (String × Value) → List (String × Except String (List UInt8))
  | [] => []
  | (key, value) :: rest => (key, write value) :: writeFields rest

end

end Writer

/-- Strings of Go and buffers of JavaScript are compared byte by byte. -/
def bytesLe (a b : String) : Bool := !decide (asBytes b < asBytes a)

def integerText (value : ℤ) : List UInt8 := asBytes (toString value)

/-! ## Go -/

/-- `encoding/json` escapes what could end an HTML script as well. -/
def htmlEscape (c : Char) : List Char :=
  if c = '<' then "\\u003c".toList
  else if c = '>' then "\\u003e".toList
  else if c = '&' then "\\u0026".toList
  else if c.toNat = 0x2028 then "\\u2028".toList
  else if c.toNat = 0x2029 then "\\u2029".toList
  else Value.escape c

def goMarshal (s : String) : List UInt8 :=
  encode ('"' :: s.toList.flatMap htmlEscape ++ ['"'])

/-- What `writeString` replaces, one word after the other. -/
def htmlEscapes : List (String × Char) :=
  [("u003c", '<'), ("u003e", '>'), ("u0026", '&'), ("u2028", '\u2028'), ("u2029", '\u2029')]

def writeString (s : String) : List UInt8 :=
  htmlEscapes.foldl
    (fun encoded entry =>
      replaceAll (encode ('\\' :: entry.1.toList)) (encode [entry.2]) encoded)
    (goMarshal s)

/-- A number keeps its text, but it has to be an integer of 64 bits. -/
def go : Writer where
  string := writeString
  int value :=
    if -2 ^ 63 ≤ value ∧ value < 2 ^ 63 then .ok (integerText value)
    else .error "value out of range"
  float _ := .error "oath-json-v1 accepts only JSON integers"
  keyLe := bytesLe

/-! ## JavaScript -/

/-- The value of a number that is not written as an integer, where it is a safe integer. -/
abbrev SafeInteger := String → Option ℤ

def maxSafeInteger : ℤ := 2 ^ 53 - 1

def javascript (safeInteger : SafeInteger) : Writer where
  string s := asBytes (Value.quote s)
  int value :=
    if -maxSafeInteger ≤ value ∧ value ≤ maxSafeInteger then .ok (integerText value)
    else .error "oath-json-v1 accepts only safe JSON integers"
  float text :=
    match safeInteger text with
    | some value => .ok (integerText value)
    | none => .error "oath-json-v1 accepts only safe JSON integers"
  keyLe := bytesLe

/-! ## Python -/

/-- Strings are compared by code points. -/
def python : Writer where
  string s := asBytes (Value.quote s)
  int value := .ok (integerText value)
  float _ := .error "oath-json-v1 accepts only JSON integers"
  keyLe a b := decide (a ≤ b)

/-! ## Strings in Go -/

def table : Marked := htmlEscapes.map fun entry => (entry.1.toList, entry.2)

theorem separate_table : Separate '\\' table where
  word := by decide
  char := by decide
  apart := by decide

theorem writeString_eq (s : String) :
    writeString s =
      encode (unmark '\\' table 0 ('"' :: s.toList.flatMap htmlEscape ++ ['"'])) := by
  have hascii : (table.all fun entry => entry.1.all fun c => decide (c.toNat < 128)) = true := by
    decide
  have hword : ∀ entry ∈ table, ∀ c ∈ entry.1, c.toNat < 128 := by
    intro entry hentry c hc
    exact of_decide_eq_true (List.all_eq_true.mp (List.all_eq_true.mp hascii entry hentry) c hc)
  have hpasses := @foldl_replaceAll '\\' table [] separate_table (by decide) hword
    ('"' :: s.toList.flatMap htmlEscape ++ ['"'])
  rw [unmark_nil, List.nil_append] at hpasses
  rw [← hpasses]
  rfl

/-! ## The text inside the quotes -/

/-- What becomes of a string: an escape is taken back also where it is text of the string. -/
def unescaped : ℕ → List Char → List Char
  | _, [] => []
  | skip + 1, _ :: rest => unescaped skip rest
  | 0, c :: rest =>
    if c = '\\' then
      match table.find? fun entry => entry.1.isPrefixOf rest with
      | some entry => '\\' :: entry.2 :: unescaped entry.1.length rest
      | none => '\\' :: '\\' :: unescaped 0 rest
    else Value.escape c ++ unescaped 0 rest

theorem unescaped_skip (skip : ℕ) (text : List Char) :
    unescaped skip text = unescaped 0 (text.drop skip) := by
  induction text generalizing skip with
  | nil => simp [unescaped]
  | cons c rest ih =>
    cases skip with
    | zero => rfl
    | succ skip => rw [unescaped, ih, List.drop_succ_cons]

/-- A character that is written as it is and ends no string. -/
def Plain (c : Char) : Prop := htmlEscape c = [c] ∧ c ≠ '\\' ∧ c ≠ '"'

instance (c : Char) : Decidable (Plain c) := inferInstanceAs (Decidable (_ ∧ _))

theorem plain_words : ∀ entry ∈ table, ∀ c ∈ entry.1, Plain c := by
  have hplain : (table.all fun entry => entry.1.all fun c => decide (Plain c)) = true := by
    decide
  intro entry hentry c hc
  exact of_decide_eq_true (List.all_eq_true.mp (List.all_eq_true.mp hplain entry hentry) c hc)

/-- Every escape starts with a backslash. -/
theorem htmlEscape_cases (c : Char) :
    htmlEscape c = [c] ∨ ∃ more, htmlEscape c = '\\' :: more := by
  unfold htmlEscape
  split_ifs
  · exact Or.inr ⟨_, rfl⟩
  · exact Or.inr ⟨_, rfl⟩
  · exact Or.inr ⟨_, rfl⟩
  · exact Or.inr ⟨_, rfl⟩
  · exact Or.inr ⟨_, rfl⟩
  · unfold Value.escape
    split_ifs
    all_goals first
      | exact Or.inl rfl
      | exact Or.inr ⟨_, rfl⟩

/-- A plain word stands in a string exactly where it stands in its encoding. -/
theorem prefix_encoded {word : List Char} (hword : ∀ c ∈ word, Plain c) (text : List Char) :
    word <+: text.flatMap htmlEscape ++ ['"'] ↔ word <+: text := by
  induction word generalizing text with
  | nil => simp
  | cons a word ih =>
    obtain ⟨ha, hword⟩ := List.forall_mem_cons.mp hword
    cases text with
    | nil =>
      simp only [List.flatMap_nil, List.nil_append, List.cons_prefix_cons, List.prefix_nil,
        reduceCtorEq, iff_false, not_and]
      exact fun heq => absurd heq ha.2.2
    | cons d rest =>
      rw [List.flatMap_cons, List.append_assoc, List.cons_prefix_cons]
      rcases htmlEscape_cases d with hd | ⟨more, hd⟩
      · rw [hd, List.singleton_append, List.cons_prefix_cons, ih hword]
      · rw [hd, List.cons_append, List.cons_prefix_cons]
        constructor
        · rintro ⟨rfl, -⟩
          exact absurd rfl ha.2.1
        · rintro ⟨rfl, -⟩
          rw [ha.1] at hd
          exact absurd (List.cons.inj hd).1 ha.2.1

theorem find?_encoded (text : List Char) :
    (table.find? fun entry => entry.1.isPrefixOf (text.flatMap htmlEscape ++ ['"'])) =
      table.find? fun entry => entry.1.isPrefixOf text := by
  apply List.find?_congr
  intro entry hentry
  rw [Bool.eq_iff_iff, List.isPrefixOf_iff_prefix, List.isPrefixOf_iff_prefix]
  exact prefix_encoded (plain_words entry hentry) text

theorem flatMap_plain {word : List Char} (hword : ∀ c ∈ word, Plain c) :
    word.flatMap htmlEscape = word := by
  induction word with
  | nil => rfl
  | cons c word ih =>
    obtain ⟨hc, hword⟩ := List.forall_mem_cons.mp hword
    rw [List.flatMap_cons, hc.1, ih hword, List.singleton_append]

/-- A pass over an escape of one character that `encoding/json` shares with the others. -/
theorem unmark_escape {c : Char} (hc : c ≠ '\\') (text : List Char) :
    unmark '\\' table 0 (Value.escape c ++ text) = Value.escape c ++ unmark '\\' table 0 text := by
  have hmarked : ∀ (a : Char) (more : List Char), '\\' ∉ a :: more →
      (∀ tail, (table.find? fun entry => entry.1.isPrefixOf (a :: more ++ tail)) = none) →
      unmark '\\' table 0 ('\\' :: a :: more ++ text) =
        '\\' :: a :: more ++ unmark '\\' table 0 text := by
    intro a more hplain hnone
    rw [List.cons_append, unmark_none (hnone text), unmark_append hplain]
    rfl
  unfold Value.escape
  split_ifs
  · exact hmarked '"' [] (by decide) fun tail => rfl
  · exact hmarked 'b' [] (by decide) fun tail => rfl
  · exact hmarked 't' [] (by decide) fun tail => rfl
  · exact hmarked 'n' [] (by decide) fun tail => rfl
  · exact hmarked 'f' [] (by decide) fun tail => rfl
  · exact hmarked 'r' [] (by decide) fun tail => rfl
  · -- a control character: its code starts with 00 and a digit below 2
    have hhigh : c.toNat / 16 = 0 ∨ c.toNat / 16 = 1 := by omega
    have hlow : Nat.digitChar (c.toNat % 16) ≠ '\\' := by
      have hall : ∀ n < 16, Nat.digitChar n ≠ '\\' := by decide
      exact hall _ (Nat.mod_lt _ (by decide))
    apply hmarked 'u'
    · have hzero : Nat.digitChar 0 ≠ '\\' := by decide
      have hone : Nat.digitChar 1 ≠ '\\' := by decide
      rcases hhigh with h | h <;> rw [h] <;> simp [hlow.symm, hzero.symm, hone.symm]
    · intro tail
      rcases hhigh with h | h <;> rw [h] <;> rfl
  · rw [List.singleton_append, unmark_cons hc, List.singleton_append]

/-- The escapes that `writeString` takes back. -/
theorem unmark_special {c : Char} (h : htmlEscape c ≠ Value.escape c) (text : List Char) :
    unmark '\\' table 0 (htmlEscape c ++ text) = c :: unmark '\\' table 0 text ∧
      Value.escape c = [c] := by
  have hmarked : ∀ entry ∈ table, ∀ found : (table.find? fun other =>
      other.1.isPrefixOf (entry.1 ++ text)) = some entry,
      unmark '\\' table 0 ('\\' :: entry.1 ++ text) = entry.2 :: unmark '\\' table 0 text := by
    intro entry _ found
    rw [List.cons_append, unmark_some found, List.drop_left]
  unfold htmlEscape at h ⊢
  split_ifs at h ⊢ with h1 h2 h3 h4 h5
  · subst h1
    exact ⟨hmarked ("u003c".toList, '<') (by decide) rfl, rfl⟩
  · subst h2
    exact ⟨hmarked ("u003e".toList, '>') (by decide) rfl, rfl⟩
  · subst h3
    exact ⟨hmarked ("u0026".toList, '&') (by decide) rfl, rfl⟩
  · obtain rfl : c = '\u2028' := Char.toNat_inj.mp h4
    exact ⟨hmarked ("u2028".toList, '\u2028') (by decide) rfl, rfl⟩
  · obtain rfl : c = '\u2029' := Char.toNat_inj.mp h5
    exact ⟨hmarked ("u2029".toList, '\u2029') (by decide) rfl, rfl⟩
  · exact absurd rfl h

theorem unmark_encoded (text : List Char) :
    unmark '\\' table 0 (text.flatMap htmlEscape ++ ['"']) = unescaped 0 text ++ ['"'] := by
  induction hlen : text.length using Nat.strong_induction_on generalizing text with
  | _ n ih =>
    cases text with
    | nil => rfl
    | cons c rest =>
      have hrest : rest.length < n := by
        rw [← hlen, List.length_cons]
        exact Nat.lt_succ_self _
      rw [List.flatMap_cons, List.append_assoc]
      by_cases hc : c = '\\'
      · subst hc
        have hpair : htmlEscape '\\' = ['\\', '\\'] := by decide
        have hfirst : (table.find? fun entry =>
            entry.1.isPrefixOf ('\\' :: (rest.flatMap htmlEscape ++ ['"']))) = none := rfl
        rw [hpair, List.cons_append, List.singleton_append, unmark_none hfirst]
        have hsecond := find?_encoded rest
        rw [unescaped, if_pos rfl]
        cases hfind : table.find? fun entry => entry.1.isPrefixOf rest with
        | some entry =>
          rw [hfind] at hsecond
          have hmem := List.mem_of_find?_eq_some hfind
          have hprefix : entry.1 <+: rest := by
            have hfound := List.find?_some hfind
            exact List.isPrefixOf_iff_prefix.mp hfound
          rw [unmark_some hsecond]
          dsimp only
          obtain ⟨tail, rfl⟩ := hprefix
          have htail : tail.length < n := by
            rw [List.length_append] at hrest
            omega
          rw [List.flatMap_append, flatMap_plain (plain_words entry hmem), List.append_assoc,
            List.drop_left, ih tail.length htail tail rfl, unescaped_skip entry.1.length,
            List.drop_left]
          rfl
        | none =>
          rw [hfind] at hsecond
          rw [unmark_none hsecond, ih rest.length hrest rest rfl]
          rfl
      · rw [unescaped, if_neg hc, List.append_assoc, ← ih rest.length hrest rest rfl]
        by_cases hspecial : htmlEscape c = Value.escape c
        · rw [hspecial, unmark_escape hc]
        · obtain ⟨hunmark, hescape⟩ :=
            unmark_special hspecial (rest.flatMap htmlEscape ++ ['"'])
          rw [hunmark, hescape, List.singleton_append]

/-! ## Strings that come out right -/

/-- The string holds no text of an escape after a backslash. -/
def NoEscapeText (text : List Char) : Prop := ∀ entry ∈ table, ¬ '\\' :: entry.1 <:+: text

instance (text : List Char) : Decidable (NoEscapeText text) :=
  inferInstanceAs (Decidable (∀ _ ∈ _, _))

theorem find?_table_iff (rest : List Char) :
    (table.find? fun entry => entry.1.isPrefixOf rest) = none ↔
      ∀ entry ∈ table, ¬ '\\' :: entry.1 <+: '\\' :: rest := by
  rw [List.find?_eq_none]
  apply forall₂_congr
  intro entry _
  rw [List.isPrefixOf_iff_prefix, List.cons_prefix_cons]
  simp

theorem noEscapeText_cons (c : Char) (rest : List Char) :
    NoEscapeText (c :: rest) ↔
      (∀ entry ∈ table, ¬ '\\' :: entry.1 <+: c :: rest) ∧ NoEscapeText rest := by
  unfold NoEscapeText
  rw [← forall₂_and]
  apply forall₂_congr
  intro entry _
  rw [List.infix_cons_iff, not_or]

/-- A string comes out right or too short. -/
theorem unescaped_length (text : List Char) :
    (NoEscapeText text → unescaped 0 text = text.flatMap Value.escape) ∧
    (unescaped 0 text).length ≤ (text.flatMap Value.escape).length ∧
    (¬ NoEscapeText text → (unescaped 0 text).length < (text.flatMap Value.escape).length) := by
  induction hlen : text.length using Nat.strong_induction_on generalizing text with
  | _ n ih =>
    cases text with
    | nil =>
      refine ⟨fun _ => rfl, le_refl _, ?_⟩
      intro h
      exact absurd (show NoEscapeText [] by decide) h
    | cons c rest =>
      have hrest : rest.length < n := by
        rw [← hlen, List.length_cons]
        exact Nat.lt_succ_self _
      obtain ⟨heq, hle, hlt⟩ := ih rest.length hrest rest rfl
      rw [noEscapeText_cons, List.flatMap_cons]
      by_cases hc : c = '\\'
      · subst hc
        have hpair : Value.escape '\\' = ['\\', '\\'] := by decide
        rw [unescaped, if_pos rfl, hpair, ← find?_table_iff]
        cases hfind : table.find? fun entry => entry.1.isPrefixOf rest with
        | none =>
          dsimp only
          simp only [true_and, List.cons_append, List.nil_append, List.length_cons]
          refine ⟨fun hno => by rw [heq hno], by omega, fun hno => ?_⟩
          have := hlt hno
          omega
        | some entry =>
          have hmem := List.mem_of_find?_eq_some hfind
          have hprefix : entry.1 <+: rest := by
            have hfound := List.find?_some hfind
            exact List.isPrefixOf_iff_prefix.mp hfound
          obtain ⟨tail, rfl⟩ := hprefix
          have htail : tail.length < n := by
            rw [List.length_append] at hrest
            omega
          have htailLe := (ih tail.length htail tail rfl).2.1
          have hescape : entry.1.flatMap Value.escape = entry.1 := by
            have hall : ∀ entry ∈ table, entry.1.flatMap Value.escape = entry.1 := by
              decide
            exact hall entry hmem
          have hfive : 0 < entry.1.length := by
            have hall : ∀ entry ∈ table, 0 < entry.1.length := by decide
            exact hall entry hmem
          have hshort : ('\\' :: entry.2 :: unescaped entry.1.length (entry.1 ++ tail)).length <
              (['\\', '\\'] ++ (entry.1 ++ tail).flatMap Value.escape).length := by
            rw [unescaped_skip entry.1.length, List.drop_left, List.flatMap_append, hescape]
            simp only [List.length_append, List.length_cons, List.length_nil]
            omega
          refine ⟨?_, hshort.le, fun _ => hshort⟩
          rintro ⟨hfalse, -⟩
          cases hfalse
      · have hno : ∀ entry ∈ table, ¬ '\\' :: entry.1 <+: c :: rest := by
          intro entry _ hprefix
          rw [List.cons_prefix_cons] at hprefix
          exact hc hprefix.1.symm
        rw [unescaped, if_neg hc, List.length_append, List.length_append]
        refine ⟨fun h => by rw [heq h.2], by omega, ?_⟩
        intro h
        have := hlt fun hclean => h ⟨hno, hclean⟩
        omega

/-- The text of a string as Go writes it. -/
def goQuote (s : String) : List Char := '"' :: unescaped 0 s.toList ++ ['"']

theorem writeString_goQuote (s : String) : writeString s = encode (goQuote s) := by
  have hquote : ('"' : Char) ≠ '\\' := by decide
  rw [writeString_eq, List.cons_append, unmark_cons hquote, unmark_encoded]
  rfl

theorem goQuote_length (s : String) : (goQuote s).length ≤ (Value.quote s).toList.length := by
  have hle := (unescaped_length s.toList).2.1
  rw [Value.quote, String.toList_ofList]
  simp only [goQuote, List.length_cons, List.length_append]
  omega

theorem goQuote_length_eq (s : String) :
    (goQuote s).length = (Value.quote s).toList.length ↔ NoEscapeText s.toList := by
  rw [Value.quote, String.toList_ofList]
  simp only [goQuote, List.length_cons, List.length_append, List.length_nil]
  constructor
  · intro heq
    by_contra hno
    have hlt := (unescaped_length s.toList).2.2 hno
    omega
  · intro hno
    rw [(unescaped_length s.toList).1 hno]

theorem goQuote_eq {s : String} (h : NoEscapeText s.toList) : goQuote s = (Value.quote s).toList := by
  rw [Value.quote, String.toList_ofList, goQuote, (unescaped_length s.toList).1 h]

end Oath.Contracts
