import Mathlib.Data.String.Basic
import Oath.Contracts.CanonicalAgreement
import Std.Data.String.ToInt

/-! No two values have the same canonical text: with integers only and the keys of every object
in order, the text can be read in one way only. -/

namespace Oath.Contracts.Value
open Registry Replace

mutual

/-- The fields of every object are in the order of their keys. -/
def isOrdered : Value → Bool
  | array values => isOrderedItems values
  | object fields => (fields.map Prod.fst).Pairwise (· < ·) ∧ isOrderedFields fields
  | _ => true

def isOrderedItems : List Value → Bool
  | [] => true
  | value :: rest => isOrdered value && isOrderedItems rest

def isOrderedFields : List (String × Value) → Bool
  | [] => true
  | (_, value) :: rest => isOrdered value && isOrderedFields rest

end

mutual

/-- What holds of every integer and of the text of every other number. -/
def numbersAre (int : ℤ → Bool) (float : String → Bool) : Value → Bool
  | .int value => int value
  | .float text => float text
  | array values => numbersAreItems int float values
  | object fields => numbersAreFields int float fields
  | _ => true

def numbersAreItems (int : ℤ → Bool) (float : String → Bool) : List Value → Bool
  | [] => true
  | value :: rest => numbersAre int float value && numbersAreItems int float rest

def numbersAreFields (int : ℤ → Bool) (float : String → Bool) : List (String × Value) → Bool
  | [] => true
  | (_, value) :: rest => numbersAre int float value && numbersAreFields int float rest

end

/-- Every number is an integer. -/
def isIntegral : Value → Bool := numbersAre (fun _ => true) (fun _ => false)

/-! ## Strings -/

def hexValue (c : Char) : ℕ := if c.isDigit then c.toNat - 48 else c.toNat - 87

/-- What stands after a backslash. -/
def readMarked : List Char → Option (Char × List Char)
  | 'b' :: rest => some (Char.ofNat 8, rest)
  | 't' :: rest => some (Char.ofNat 9, rest)
  | 'n' :: rest => some (Char.ofNat 10, rest)
  | 'f' :: rest => some (Char.ofNat 12, rest)
  | 'r' :: rest => some (Char.ofNat 13, rest)
  | 'u' :: _ :: _ :: high :: low :: rest =>
    some (Char.ofNat (hexValue high * 16 + hexValue low), rest)
  | c :: rest => some (c, rest)
  | [] => none

/-- The first character of a string's text, and what follows. -/
def readEscape : List Char → Option (Char × List Char)
  | [] => none
  | c :: rest => if c = '\\' then readMarked rest else some (c, rest)

theorem readEscape_escape (c : Char) (rest : List Char) :
    readEscape (escape c ++ rest) = some (c, rest) := by
  have hchar : ∀ n, c.toNat = n → Char.ofNat n = c := fun n hn => hn ▸ Char.ofNat_toNat c
  unfold escape
  split_ifs with h1 h2 h3 h4 h5 h6 h7 h8
  · rw [h1]
    rfl
  · rw [h2]
    rfl
  · rw [← hchar 8 h3]
    rfl
  · rw [← hchar 9 h4]
    rfl
  · rw [← hchar 10 h5]
    rfl
  · rw [← hchar 12 h6]
    rfl
  · rw [← hchar 13 h7]
    rfl
  · have hdigits : ∀ n < 32, hexValue (Nat.digitChar (n / 16)) * 16 +
        hexValue (Nat.digitChar (n % 16)) = n := by decide +kernel
    show some (Char.ofNat (hexValue (Nat.digitChar (c.toNat / 16)) * 16 +
      hexValue (Nat.digitChar (c.toNat % 16))), rest) = _
    rw [hdigits c.toNat h8, hchar c.toNat rfl]
  · rw [List.singleton_append, readEscape, if_neg h2]

theorem escape_ne_quote (c : Char) (rest text : List Char) : escape c ++ rest ≠ '"' :: text := by
  intro h
  have hread := readEscape_escape c rest
  rw [h] at hread
  have hquote : ('"', text) = (c, rest) := Option.some.inj hread
  rw [← (Prod.mk.inj hquote).1] at h
  cases h

/-- The end of a string is where the first quote is. -/
theorem escaped_unique {s t rest rest' : List Char}
    (h : s.flatMap escape ++ '"' :: rest = t.flatMap escape ++ '"' :: rest') :
    s = t ∧ rest = rest' := by
  induction s generalizing t with
  | nil =>
    cases t with
    | nil => exact ⟨rfl, (List.cons.inj h).2⟩
    | cons d t =>
      rw [List.flatMap_cons, List.append_assoc] at h
      exact absurd h.symm (escape_ne_quote d _ _)
  | cons c s ih =>
    rw [List.flatMap_cons, List.append_assoc] at h
    cases t with
    | nil => exact absurd h (escape_ne_quote c _ _)
    | cons d t =>
      rw [List.flatMap_cons, List.append_assoc] at h
      have hread := readEscape_escape c (s.flatMap escape ++ '"' :: rest)
      rw [h, readEscape_escape] at hread
      obtain ⟨hchar, hmore⟩ := Prod.mk.inj (Option.some.inj hread)
      obtain ⟨hs, hrest⟩ := ih hmore.symm
      exact ⟨by rw [hchar, hs], hrest⟩

/-! ## The text of a value -/

def quoted (s : String) : List Char := (quote s).toList

def text (value : Value) : List Char := render quoted value

theorem quoted_eq (s : String) : quoted s = '"' :: (s.toList.flatMap escape ++ ['"']) := by
  rw [quoted, quote, String.toList_ofList]
  rfl

theorem quoted_unique {s t : String} {rest rest' : List Char}
    (h : quoted s ++ rest = quoted t ++ rest') : s = t ∧ rest = rest' := by
  rw [quoted_eq, quoted_eq] at h
  simp only [List.cons_append, List.append_assoc, List.cons.injEq, true_and] at h
  obtain ⟨hlist, hrest⟩ := escaped_unique h
  exact ⟨String.toList_injective hlist, hrest⟩

/-- What may follow a value. -/
def Ends (rest : List Char) : Prop := ∀ c, rest.head? = some c → c ∈ [',', ']', '\x7d']

def isNumeral (c : Char) : Bool := c.isDigit || c = '-'

theorem isNumeral_toString (n : ℤ) : ∀ c ∈ (toString n).toList, isNumeral c := by
  have hnat : ∀ m : ℕ, ∀ c ∈ m.repr.toList, isNumeral c := by
    intro m c hc
    rw [Nat.repr, String.toList_ofList] at hc
    rw [isNumeral, Nat.isDigit_of_mem_toDigits (by decide) (by decide) hc, Bool.true_or]
  rw [Int.toString_eq_repr, Int.repr_eq_if]
  split_ifs with hsign
  · exact hnat n.toNat
  · intro c hc
    rw [String.toList_append] at hc
    rcases List.mem_append.mp hc with hminus | hdigit
    · rw [List.mem_singleton.mp hminus]
      decide
    · exact hnat _ c hdigit

theorem toString_ne_nil (n : ℤ) : (toString n).toList ≠ [] := by
  intro h
  have hempty : n.repr = "" := String.toList_injective h
  rw [Int.repr_eq_if] at hempty
  split_ifs at hempty with hsign
  · exact Nat.repr_ne_empty hempty
  · have hminus := congrArg String.toList hempty
    rw [String.toList_append] at hminus
    cases hminus

theorem not_isNumeral_of_ends {rest : List Char} (h : Ends rest) :
    rest.takeWhile isNumeral = [] := by
  cases rest with
  | nil => rfl
  | cons c rest =>
    have hclosing : [',', ']', '\x7d'].all (fun c => !isNumeral c) = true := by decide
    have hother := List.all_eq_true.mp hclosing c (h c rfl)
    exact List.takeWhile_cons_of_neg (by simpa using hother)

theorem numeral_unique {m n : ℤ} {rest rest' : List Char} (hrest : Ends rest)
    (hrest' : Ends rest') (h : (toString m).toList ++ rest = (toString n).toList ++ rest') :
    m = n ∧ rest = rest' := by
  have htake : ∀ (n : ℤ) {rest : List Char}, Ends rest →
      ((toString n).toList ++ rest).takeWhile isNumeral = (toString n).toList := by
    intro n rest hends
    rw [List.takeWhile_append_of_pos (isNumeral_toString n), not_isNumeral_of_ends hends,
      List.append_nil]
  have htexts : (toString m).toList = (toString n).toList := by
    rw [← htake m hrest, h, htake n hrest']
  have hsame : m = n := Int.repr_injective (String.toList_injective htexts)
  rw [htexts] at h
  exact ⟨hsame, List.append_cancel_left h⟩

/-! ## What follows in an array or an object -/

def itemsAfter : List Value → List Char → List Char
  | [], rest => ']' :: rest
  | value :: values, rest => ',' :: (text value ++ itemsAfter values rest)

def fieldsAfter : List (String × Value) → List Char → List Char
  | [], rest => '\x7d' :: rest
  | (key, value) :: fields, rest =>
    ',' :: (quoted key ++ ':' :: (text value ++ fieldsAfter fields rest))

theorem ends_itemsAfter (values : List Value) (rest : List Char) :
    Ends (itemsAfter values rest) := by
  intro c hc
  cases values with
  | nil =>
    obtain rfl := Option.some.inj hc
    decide
  | cons value values =>
    obtain rfl := Option.some.inj hc
    decide

theorem ends_fieldsAfter (fields : List (String × Value)) (rest : List Char) :
    Ends (fieldsAfter fields rest) := by
  intro c hc
  cases fields with
  | nil =>
    obtain rfl := Option.some.inj hc
    decide
  | cons field fields =>
    obtain rfl := Option.some.inj hc
    decide

theorem intercalate_items (value : Value) (values : List Value) (rest : List Char) :
    [','].intercalate (renderItems quoted (value :: values)) ++ ']' :: rest =
      text value ++ itemsAfter values rest := by
  induction values generalizing value with
  | nil =>
    rw [renderItems, renderItems, List.intercalate_singleton]
    rfl
  | cons next values ih =>
    rw [renderItems, renderItems, List.intercalate_cons_cons, List.append_assoc, List.append_assoc]
    rw [← renderItems, ih]
    rfl

def member (entry : String × List Char) : List Char := quoted entry.1 ++ ':' :: entry.2

theorem intercalate_fields (field : String × Value) (fields : List (String × Value))
    (rest : List Char) :
    [','].intercalate ((renderFields quoted (field :: fields)).map member) ++ '\x7d' :: rest =
      quoted field.1 ++ ':' :: (text field.2 ++ fieldsAfter fields rest) := by
  induction fields generalizing field with
  | nil =>
    simp [renderFields, List.intercalate_singleton, member, fieldsAfter, text]
  | cons next fields ih =>
    obtain ⟨key, value⟩ := field
    have hnext := ih next
    rw [renderFields, List.map_cons]
    rw [show (renderFields quoted (next :: fields)).map member =
      member (next.1, text next.2) :: (renderFields quoted fields).map member from rfl] at hnext ⊢
    rw [List.intercalate_cons_cons, List.append_assoc, List.append_assoc, hnext]
    simp [member, fieldsAfter, text]

theorem text_array_cons (value : Value) (values : List Value) (rest : List Char) :
    text (array (value :: values)) ++ rest = '[' :: (text value ++ itemsAfter values rest) := by
  rw [← intercalate_items, text, render]
  simp

theorem keys_of_renderFields (q : String → List Char) (fields : List (String × Value)) :
    (renderFields q fields).map Prod.fst = fields.map Prod.fst := by
  induction fields with
  | nil => rfl
  | cons field rest ih => rw [renderFields, List.map_cons, List.map_cons, ih]

theorem isOrdered_object {fields : List (String × Value)} :
    isOrdered (object fields) ↔
      (fields.map Prod.fst).Pairwise (· < ·) ∧ isOrderedFields fields := by
  rw [isOrdered, decide_eq_true_eq]

/-- The fields of an object that is in order are written as they stand. -/
theorem sorted_renderFields {fields : List (String × Value)} (h : isOrdered (object fields))
    (q : String → List Char) :
    ((renderFields q fields).mergeSort fun a b => a.1 ≤ b.1) = renderFields q fields := by
  have hkeys := (isOrdered_object.mp h).1
  rw [← keys_of_renderFields q, List.pairwise_map] at hkeys
  apply List.mergeSort_of_pairwise
  refine hkeys.imp ?_
  intro a b hlt
  exact decide_eq_true (String.lt_asymm hlt)

theorem text_object_nil (rest : List Char) :
    text (object []) ++ rest = '\x7b' :: '\x7d' :: rest := by
  rw [text, render, renderFields, List.mergeSort_nil]
  rfl

theorem text_object_cons {field : String × Value} {fields : List (String × Value)}
    (h : isOrdered (object (field :: fields))) (rest : List Char) :
    text (object (field :: fields)) ++ rest =
      '\x7b' :: (quoted field.1 ++ ':' :: (text field.2 ++ fieldsAfter fields rest)) := by
  rw [← intercalate_fields, text, render, sorted_renderFields h]
  simp only [List.cons_append, List.append_assoc, List.nil_append]
  rfl

theorem isOrderedFields_cons {key : String} {value : Value} {fields : List (String × Value)} :
    isOrdered (object ((key, value) :: fields)) → isOrdered value ∧ isOrdered (object fields) := by
  intro h
  obtain ⟨hkeys, hfields⟩ := isOrdered_object.mp h
  rw [isOrderedFields, Bool.and_eq_true] at hfields
  rw [List.map_cons, List.pairwise_cons] at hkeys
  exact ⟨hfields.1, isOrdered_object.mpr ⟨hkeys.2, hfields.2⟩⟩

/-! ## Reading the text -/

/-- The kind of a value, as the first character of its text shows it. -/
def kind : Value → ℕ
  | null => 0
  | bool _ => 1
  | int _ => 2
  | float _ => 3
  | string _ => 4
  | array _ => 5
  | object _ => 6

def kindOf (c : Char) : ℕ :=
  if c = 'n' then 0
  else if c = 't' ∨ c = 'f' then 1
  else if c = '"' then 4
  else if c = '[' then 5
  else if c = '\x7b' then 6
  else if c = ']' then 7
  else 2

theorem text_kind {value : Value} (h : value.isIntegral) :
    ∃ c more, text value = c :: more ∧ kindOf c = value.kind := by
  cases value with
  | null => exact ⟨'n', _, rfl, by decide⟩
  | bool value =>
    cases value with
    | false => exact ⟨'f', _, rfl, by decide⟩
    | true => exact ⟨'t', _, rfl, by decide⟩
  | int value =>
    obtain ⟨c, more, hcons⟩ := List.exists_cons_of_ne_nil (toString_ne_nil value)
    have hnumeral := isNumeral_toString value c (by rw [hcons]; exact List.mem_cons_self)
    refine ⟨c, more, hcons, ?_⟩
    have hother : ∀ other ∈ ['n', 't', 'f', '"', '[', '\x7b', ']'], c ≠ other := by
      intro other hother heq
      have hstarts : ['n', 't', 'f', '"', '[', '\x7b', ']'].all (fun c => !isNumeral c) = true := by
        decide
      have hnot := List.all_eq_true.mp hstarts other hother
      rw [← heq, hnumeral] at hnot
      cases hnot
    simp only [List.forall_mem_cons] at hother
    obtain ⟨h1, h2, h3, h4, h5, h6, h7, -⟩ := hother
    simp [kindOf, kind, h1, h2, h3, h4, h5, h6, h7]
  | float text => cases h
  | string value => exact ⟨'"', _, quoted_eq value, rfl⟩
  | array values => exact ⟨'[', _, rfl, rfl⟩
  | object fields => exact ⟨'\x7b', _, rfl, rfl⟩

theorem kind_eq {a b : Value} (ha : a.isIntegral) (hb : b.isIntegral) {rest rest' : List Char}
    (h : text a ++ rest = text b ++ rest') : a.kind = b.kind := by
  obtain ⟨c, more, hc, hkind⟩ := text_kind ha
  obtain ⟨c', more', hc', hkind'⟩ := text_kind hb
  rw [hc, hc'] at h
  rw [← hkind, ← hkind', (List.cons.inj h).1]

/-- An array that is not empty does not end at once. -/
theorem text_ne_closing {value : Value} (h : value.isIntegral) (more rest : List Char) :
    text value ++ more ≠ ']' :: rest := by
  obtain ⟨c, tail, hc, hkind⟩ := text_kind h
  intro heq
  rw [hc] at heq
  rw [(List.cons.inj heq).1] at hkind
  cases value <;> cases hkind

theorem isIntegral_cons {value : Value} {values : List Value} :
    isIntegral (array (value :: values)) ↔ isIntegral value ∧ isIntegral (array values) := by
  simp only [isIntegral, numbersAre, numbersAreItems, Bool.and_eq_true]

theorem isIntegralFields_cons {key : String} {value : Value} {fields : List (String × Value)} :
    isIntegral (object ((key, value) :: fields)) ↔
      isIntegral value ∧ isIntegral (object fields) := by
  simp only [isIntegral, numbersAre, numbersAreFields, Bool.and_eq_true]

theorem isOrdered_cons {value : Value} {values : List Value} :
    isOrdered (array (value :: values)) ↔ isOrdered value ∧ isOrdered (array values) := by
  simp only [isOrdered, isOrderedItems, Bool.and_eq_true]

/-- The values whose text is read in one way. -/
def IsCanonical (value : Value) : Prop := value.isIntegral ∧ value.isOrdered

theorem isCanonical_items {value : Value} {values : List Value}
    (h : IsCanonical (array (value :: values))) : IsCanonical value ∧ IsCanonical (array values) :=
  ⟨⟨(isIntegral_cons.mp h.1).1, (isOrdered_cons.mp h.2).1⟩,
    ⟨(isIntegral_cons.mp h.1).2, (isOrdered_cons.mp h.2).2⟩⟩

theorem isCanonical_fields {key : String} {value : Value} {fields : List (String × Value)}
    (h : IsCanonical (object ((key, value) :: fields))) :
    IsCanonical value ∧ IsCanonical (object fields) :=
  ⟨⟨(isIntegralFields_cons.mp h.1).1, (isOrderedFields_cons h.2).1⟩,
    ⟨(isIntegralFields_cons.mp h.1).2, (isOrderedFields_cons h.2).2⟩⟩

mutual

/-- A text is read in one way: the value and what follows are known from it. -/
theorem text_unique (a b : Value) (ha : a.IsCanonical) (hb : b.IsCanonical)
    {rest rest' : List Char} (hrest : Ends rest) (hrest' : Ends rest')
    (h : text a ++ rest = text b ++ rest') : a = b ∧ rest = rest' := by
  have hkind := kind_eq ha.1 hb.1 h
  cases a with
  | null =>
    cases b with
    | null => exact ⟨rfl, List.append_cancel_left h⟩
    | _ => cases hkind
  | bool value =>
    cases b with
    | bool value' =>
      cases value with
      | false =>
        cases value' with
        | false => exact ⟨rfl, List.append_cancel_left h⟩
        | true => exact absurd (List.cons.inj h).1 (by decide)
      | true =>
        cases value' with
        | false => exact absurd (List.cons.inj h).1 (by decide)
        | true => exact ⟨rfl, List.append_cancel_left h⟩
    | _ => cases hkind
  | int value =>
    cases b with
    | int value' =>
      obtain ⟨hvalue, hmore⟩ := numeral_unique hrest hrest' h
      exact ⟨by rw [hvalue], hmore⟩
    | _ => cases hkind
  | float text => cases ha.1
  | string value =>
    cases b with
    | string value' =>
      obtain ⟨hvalue, hmore⟩ := quoted_unique h
      exact ⟨by rw [hvalue], hmore⟩
    | _ => cases hkind
  | array values =>
    cases b with
    | array values' =>
      cases values with
      | nil =>
        cases values' with
        | nil => exact ⟨rfl, List.append_cancel_left h⟩
        | cons value' values' =>
          rw [text_array_cons] at h
          exact absurd (List.cons.inj h).2.symm
            (text_ne_closing (isCanonical_items hb).1.1 _ _)
      | cons value values =>
        obtain ⟨hfirst, hmore⟩ := isCanonical_items ha
        cases values' with
        | nil =>
          rw [text_array_cons] at h
          exact absurd (List.cons.inj h).2 (text_ne_closing hfirst.1 _ _)
        | cons value' values' =>
          obtain ⟨hfirst', hmore'⟩ := isCanonical_items hb
          rw [text_array_cons, text_array_cons] at h
          obtain ⟨hvalue, htail⟩ := text_unique value value' hfirst hfirst' (ends_itemsAfter _ _)
            (ends_itemsAfter _ _) (List.cons.inj h).2
          obtain ⟨hvalues, hend⟩ := items_unique values values' hmore hmore' htail
          exact ⟨by rw [hvalue, hvalues], hend⟩
    | _ => cases hkind
  | object fields =>
    cases b with
    | object fields' =>
      cases fields with
      | nil =>
        cases fields' with
        | nil => exact ⟨rfl, List.append_cancel_left h⟩
        | cons field' fields' =>
          rw [text_object_nil, text_object_cons hb.2, quoted_eq] at h
          exact absurd (List.cons.inj (List.cons.inj h).2).1 (by decide)
      | cons field fields =>
        rw [text_object_cons ha.2] at h
        obtain ⟨key, value⟩ := field
        obtain ⟨hfirst, hmore⟩ := isCanonical_fields ha
        cases fields' with
        | nil =>
          rw [text_object_nil, quoted_eq] at h
          exact absurd (List.cons.inj (List.cons.inj h).2).1 (by decide)
        | cons field' fields' =>
          obtain ⟨key', value'⟩ := field'
          obtain ⟨hfirst', hmore'⟩ := isCanonical_fields hb
          rw [text_object_cons hb.2] at h
          obtain ⟨hkey, hcolon⟩ := quoted_unique (List.cons.inj h).2
          obtain ⟨hvalue, htail⟩ := text_unique value value' hfirst hfirst' (ends_fieldsAfter _ _)
            (ends_fieldsAfter _ _) (List.cons.inj hcolon).2
          obtain ⟨hfields, hend⟩ := fields_unique fields fields' hmore hmore' htail
          exact ⟨by rw [show key = key' from hkey, show value = value' from hvalue, hfields], hend⟩
    | _ => cases hkind

theorem items_unique (values values' : List Value) (ha : IsCanonical (array values))
    (hb : IsCanonical (array values')) {rest rest' : List Char}
    (h : itemsAfter values rest = itemsAfter values' rest') : values = values' ∧ rest = rest' := by
  cases values with
  | nil =>
    cases values' with
    | nil => exact ⟨rfl, (List.cons.inj h).2⟩
    | cons value' values' => exact absurd (List.cons.inj h).1 (by decide)
  | cons value values =>
    cases values' with
    | nil => exact absurd (List.cons.inj h).1 (by decide)
    | cons value' values' =>
      obtain ⟨hfirst, hmore⟩ := isCanonical_items ha
      obtain ⟨hfirst', hmore'⟩ := isCanonical_items hb
      obtain ⟨hvalue, htail⟩ := text_unique value value' hfirst hfirst' (ends_itemsAfter _ _)
        (ends_itemsAfter _ _) (List.cons.inj h).2
      obtain ⟨hvalues, hend⟩ := items_unique values values' hmore hmore' htail
      exact ⟨by rw [hvalue, hvalues], hend⟩

theorem fields_unique (fields fields' : List (String × Value)) (ha : IsCanonical (object fields))
    (hb : IsCanonical (object fields')) {rest rest' : List Char}
    (h : fieldsAfter fields rest = fieldsAfter fields' rest') :
    fields = fields' ∧ rest = rest' := by
  cases fields with
  | nil =>
    cases fields' with
    | nil => exact ⟨rfl, (List.cons.inj h).2⟩
    | cons field' fields' => exact absurd (List.cons.inj h).1 (by decide)
  | cons field fields =>
    obtain ⟨key, value⟩ := field
    cases fields' with
    | nil => exact absurd (List.cons.inj h).1 (by decide)
    | cons field' fields' =>
      obtain ⟨key', value'⟩ := field'
      obtain ⟨hfirst, hmore⟩ := isCanonical_fields ha
      obtain ⟨hfirst', hmore'⟩ := isCanonical_fields hb
      obtain ⟨hkey, hcolon⟩ := quoted_unique (List.cons.inj h).2
      obtain ⟨hvalue, htail⟩ := text_unique value value' hfirst hfirst' (ends_fieldsAfter _ _)
        (ends_fieldsAfter _ _) (List.cons.inj hcolon).2
      obtain ⟨hfields, hend⟩ := fields_unique fields fields' hmore hmore' htail
      exact ⟨by rw [hkey, hvalue, hfields], hend⟩

end

/-- Canonical values with the same bytes are the same. -/
theorem canonicalJsonBytes_injective {a b : Value} (ha : a.IsCanonical) (hb : b.IsCanonical)
    (h : canonicalJsonBytes a = canonicalJsonBytes b) : a = b := by
  rw [canonicalJsonBytes_eq, canonicalJsonBytes_eq] at h
  have htext : text a ++ [] = text b ++ [] := congrArg (· ++ []) (encode_injective h)
  have hend : Ends [] := by
    intro c hc
    cases hc
  exact (text_unique a b ha hb hend hend htext).1

/-! ## Canonical values -/

@[simp] theorem isCanonical_null : IsCanonical null := ⟨rfl, rfl⟩
@[simp] theorem isCanonical_bool (value : Bool) : IsCanonical (bool value) := ⟨rfl, rfl⟩
@[simp] theorem isCanonical_int (value : ℤ) : IsCanonical (int value) := ⟨rfl, rfl⟩
@[simp] theorem isCanonical_string (value : String) : IsCanonical (string value) := ⟨rfl, rfl⟩

theorem isCanonical_array {values : List Value} (h : ∀ value ∈ values, IsCanonical value) :
    IsCanonical (array values) := by
  induction values with
  | nil => exact ⟨rfl, rfl⟩
  | cons value values ih =>
    obtain ⟨hfirst, hmore⟩ := List.forall_mem_cons.mp h
    have hrest := ih hmore
    exact ⟨isIntegral_cons.mpr ⟨hfirst.1, hrest.1⟩, isOrdered_cons.mpr ⟨hfirst.2, hrest.2⟩⟩

@[simp] theorem isCanonical_strings (values : List String) : IsCanonical (strings values) := by
  apply isCanonical_array
  intro value hvalue
  obtain ⟨text, -, htext⟩ := List.mem_map.mp hvalue
  rw [← htext]
  exact isCanonical_string text

@[simp] theorem isCanonical_optString (text : Option String) : IsCanonical (optString text) := by
  cases text with
  | none => exact isCanonical_null
  | some text => exact isCanonical_string text

theorem keys_insertField (key : String) (value : Value) (fields : List (String × Value)) :
    ∀ k ∈ (insertField key value fields).map Prod.fst, k = key ∨ k ∈ fields.map Prod.fst := by
  induction fields with
  | nil => exact fun k hk => Or.inl (List.mem_singleton.mp hk)
  | cons field rest ih =>
    obtain ⟨first, other⟩ := field
    intro k hk
    rw [insertField] at hk
    split_ifs at hk with hsame hless
    · rcases List.mem_cons.mp hk with rfl | hrest
      · exact Or.inl rfl
      · exact Or.inr (List.mem_cons_of_mem _ hrest)
    · rcases List.mem_cons.mp hk with rfl | hrest
      · exact Or.inl rfl
      · exact Or.inr hrest
    · rcases List.mem_cons.mp hk with rfl | hrest
      · exact Or.inr List.mem_cons_self
      · rcases ih k hrest with rfl | hold
        · exact Or.inl rfl
        · exact Or.inr (List.mem_cons_of_mem _ hold)

theorem isCanonical_object_cons {key : String} {value : Value} {fields : List (String × Value)} :
    IsCanonical (object ((key, value) :: fields)) ↔
      IsCanonical value ∧ IsCanonical (object fields) ∧ ∀ k ∈ fields.map Prod.fst, key < k := by
  constructor
  · intro h
    obtain ⟨hvalue, hfields⟩ := isCanonical_fields h
    have hkeys := (isOrdered_object.mp h.2).1
    rw [List.map_cons, List.pairwise_cons] at hkeys
    exact ⟨hvalue, hfields, hkeys.1⟩
  · rintro ⟨hvalue, hfields, hkeys⟩
    obtain ⟨hpairs, hordered⟩ := isOrdered_object.mp hfields.2
    refine ⟨isIntegralFields_cons.mpr ⟨hvalue.1, hfields.1⟩, isOrdered_object.mpr ⟨?_, ?_⟩⟩
    · rw [List.map_cons, List.pairwise_cons]
      exact ⟨hkeys, hpairs⟩
    · rw [isOrderedFields, Bool.and_eq_true]
      exact ⟨hvalue.2, hordered⟩

theorem isCanonical_insertField {key : String} {value : Value} {fields : List (String × Value)}
    (hvalue : IsCanonical value) (hfields : IsCanonical (object fields)) :
    IsCanonical (object (insertField key value fields)) := by
  induction fields with
  | nil =>
    rw [insertField]
    exact isCanonical_object_cons.mpr ⟨hvalue, hfields, by simp⟩
  | cons field rest ih =>
    obtain ⟨first, other⟩ := field
    obtain ⟨hother, hrest, hkeys⟩ := isCanonical_object_cons.mp hfields
    rw [insertField]
    split_ifs with hsame hless
    · rw [hsame]
      exact isCanonical_object_cons.mpr ⟨hvalue, hrest, hkeys⟩
    · refine isCanonical_object_cons.mpr ⟨hvalue, hfields, ?_⟩
      intro k hk
      rcases List.mem_cons.mp hk with rfl | hk
      · exact hless
      · exact String.lt_trans hless (hkeys k hk)
    · refine isCanonical_object_cons.mpr ⟨hother, ih hrest, ?_⟩
      intro k hk
      rcases keys_insertField key value rest k hk with rfl | hk
      · exact lt_of_le_of_ne (not_lt.mp hless) (Ne.symm hsame)
      · exact hkeys k hk

/-- A record is written with its fields in order. -/
theorem isCanonical_json {fields : List (String × Value)}
    (h : ∀ field ∈ fields, IsCanonical field.2) : IsCanonical (json fields) := by
  have hfold : ∀ acc, IsCanonical (object acc) → IsCanonical
      (object (fields.foldl (fun acc field => insertField field.1 field.2 acc) acc)) := by
    induction fields with
    | nil => exact fun acc hacc => hacc
    | cons field rest ih =>
      obtain ⟨hfield, hrest⟩ := List.forall_mem_cons.mp h
      intro acc hacc
      exact ih hrest _ (isCanonical_insertField hfield hacc)
  exact hfold [] ⟨rfl, rfl⟩

end Oath.Contracts.Value
