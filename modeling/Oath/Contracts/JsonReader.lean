import Oath.Contracts.CanonicalOrder
import Oath.Contracts.CanonicalUnique
import Oath.Library.Utf8

/-! Reading a JSON text the way serde_json does: which texts it takes, what it makes of numbers
and of keys that come twice, and how deep it goes. Canonical text is read back. A writer refuses a value
for its numbers only. -/

namespace Oath.Contracts

theorem isOk_iff {ε α : Type} {x : Except ε α} : x.isOk ↔ ∃ a, x = .ok a := by
  cases x <;> simp [Except.isOk, Except.toBool]

theorem isOk_bind {ε α β : Type} {x : Except ε α} {f : α → β} :
    (x >>= fun a => .ok (f a)).isOk = x.isOk := by
  cases x <;> rfl

theorem isOk_map {ε α β : Type} {x : Except ε α} {f : α → β} : (x.map f).isOk = x.isOk := by
  cases x <;> rfl

theorem isOk_mapM {ε α β : Type} (f : α → Except ε β) (items : List α) :
    (items.mapM f).isOk ↔ ∀ item ∈ items, (f item).isOk := by
  induction items with
  | nil => simp [Except.isOk, Except.toBool, pure, Except.pure]
  | cons item rest ih =>
    rw [List.forall_mem_cons, ← ih, List.mapM_cons]
    cases f item with
    | error e => simp [Except.isOk, Except.toBool, bind, Except.bind]
    | ok b => cases rest.mapM f <;> simp [Except.isOk, Except.toBool, bind, Except.bind, pure, Except.pure]

namespace Value

mutual

theorem numbersAre_imp {p p' r : ℤ → Bool} {q q' s : String → Bool}
    (hint : ∀ n, p n → p' n → r n) (hfloat : ∀ t, q t → q' t → s t) (value : Value)
    (h : value.numbersAre p q) (h' : value.numbersAre p' q') : value.numbersAre r s := by
  cases value with
  | null => rfl
  | bool value => rfl
  | int value => exact hint value h h'
  | float text => exact hfloat text h h'
  | string value => rfl
  | array values => exact numbersAreItems_imp hint hfloat values h h'
  | object fields => exact numbersAreFields_imp hint hfloat fields h h'

theorem numbersAreItems_imp {p p' r : ℤ → Bool} {q q' s : String → Bool}
    (hint : ∀ n, p n → p' n → r n) (hfloat : ∀ t, q t → q' t → s t) (values : List Value)
    (h : numbersAreItems p q values) (h' : numbersAreItems p' q' values) :
    numbersAreItems r s values := by
  cases values with
  | nil => rfl
  | cons value rest =>
    rw [numbersAreItems, Bool.and_eq_true] at h h' ⊢
    exact ⟨numbersAre_imp hint hfloat value h.1 h'.1,
      numbersAreItems_imp hint hfloat rest h.2 h'.2⟩

theorem numbersAreFields_imp {p p' r : ℤ → Bool} {q q' s : String → Bool}
    (hint : ∀ n, p n → p' n → r n) (hfloat : ∀ t, q t → q' t → s t)
    (fields : List (String × Value)) (h : numbersAreFields p q fields)
    (h' : numbersAreFields p' q' fields) : numbersAreFields r s fields := by
  cases fields with
  | nil => rfl
  | cons field rest =>
    rw [numbersAreFields, Bool.and_eq_true] at h h' ⊢
    exact ⟨numbersAre_imp hint hfloat field.2 h.1 h'.1,
      numbersAreFields_imp hint hfloat rest h.2 h'.2⟩

end

def isSafeInteger (n : ℤ) : Bool := -maxSafeInteger ≤ n ∧ n ≤ maxSafeInteger

mutual

/-- In a value in order the keys are distinct. -/
theorem isSafe_of_ordered (value : Value) (hordered : value.isOrdered)
    (h : value.numbersAre isSafeInteger fun _ => false) : value.isSafe := by
  cases value with
  | null => rfl
  | bool value => rfl
  | int value => exact h
  | float text => cases h
  | string value => rfl
  | array values => exact isSafeItems_of_ordered values hordered h
  | object fields =>
    obtain ⟨hkeys, hfields⟩ := isOrdered_object.mp hordered
    have hdistinct : (fields.map Prod.fst).Nodup := hkeys.imp fun hlt => ne_of_lt hlt
    rw [isSafe, decide_eq_true_eq]
    exact ⟨hdistinct, isSafeFields_of_ordered fields hfields h⟩

theorem isSafeItems_of_ordered (values : List Value) (hordered : isOrderedItems values)
    (h : numbersAreItems isSafeInteger (fun _ => false) values) : isSafeItems values := by
  cases values with
  | nil => rfl
  | cons value rest =>
    rw [isOrderedItems, Bool.and_eq_true] at hordered
    rw [numbersAreItems, Bool.and_eq_true] at h
    rw [isSafeItems, Bool.and_eq_true]
    exact ⟨isSafe_of_ordered value hordered.1 h.1, isSafeItems_of_ordered rest hordered.2 h.2⟩

theorem isSafeFields_of_ordered (fields : List (String × Value))
    (hordered : isOrderedFields fields)
    (h : numbersAreFields isSafeInteger (fun _ => false) fields) : isSafeFields fields := by
  cases fields with
  | nil => rfl
  | cons field rest =>
    rw [isOrderedFields, Bool.and_eq_true] at hordered
    rw [numbersAreFields, Bool.and_eq_true] at h
    rw [isSafeFields, Bool.and_eq_true]
    exact ⟨isSafe_of_ordered field.2 hordered.1 h.1,
      isSafeFields_of_ordered rest hordered.2 h.2⟩

end

end Value

namespace Writer
variable (w : Writer)

mutual

/-- A value is written where the writer takes every number of it. -/
theorem isOk_write (value : Value) :
    (w.write value).isOk ↔ value.numbersAre (fun n => (w.int n).isOk) fun t => (w.float t).isOk := by
  cases value with
  | null => exact Iff.rfl
  | bool value => exact Iff.rfl
  | int value => exact Iff.rfl
  | float text => exact Iff.rfl
  | string value => exact Iff.rfl
  | array values =>
    rw [write, isOk_bind]
    exact isOk_writeItems values
  | object fields =>
    rw [write, isOk_bind, isOk_mapM]
    simp only [List.mem_mergeSort, isOk_map]
    exact isOk_writeFields fields

theorem isOk_writeItems (values : List Value) :
    (w.writeItems values).isOk ↔
      Value.numbersAreItems (fun n => (w.int n).isOk) (fun t => (w.float t).isOk) values := by
  cases values with
  | nil => exact Iff.rfl
  | cons value rest =>
    rw [Value.numbersAreItems, Bool.and_eq_true, ← isOk_write value, ← isOk_writeItems rest,
      writeItems]
    cases w.write value with
    | error e => simp [Except.isOk, Except.toBool, bind, Except.bind]
    | ok text => cases w.writeItems rest <;> simp [Except.isOk, Except.toBool, bind, Except.bind]

theorem isOk_writeFields (fields : List (String × Value)) :
    (∀ member ∈ w.writeFields fields, member.2.isOk) ↔
      Value.numbersAreFields (fun n => (w.int n).isOk) (fun t => (w.float t).isOk) fields := by
  cases fields with
  | nil => simp [writeFields, Value.numbersAreFields]
  | cons field rest =>
    rw [Value.numbersAreFields, Bool.and_eq_true, ← isOk_write field.2, ← isOk_writeFields rest,
      writeFields, List.forall_mem_cons]

end

end Writer

end Oath.Contracts

/-! ## The reader -/

namespace Oath.Contracts.Value
open Registry Replace

/-! ## Characters of a string -/

def hexDigit? (c : Char) : Option ℕ :=
  if '0' ≤ c ∧ c ≤ '9' then some (c.toNat - 48)
  else if 'a' ≤ c ∧ c ≤ 'f' then some (c.toNat - 87)
  else if 'A' ≤ c ∧ c ≤ 'F' then some (c.toNat - 55)
  else none

def readHex : List Char → Option (ℕ × List Char)
  | a :: b :: c :: d :: rest => do
    let a ← hexDigit? a
    let b ← hexDigit? b
    let c ← hexDigit? c
    let d ← hexDigit? d
    some (((a * 16 + b) * 16 + c) * 16 + d, rest)
  | _ => none

/-- The second half of a pair of surrogates. -/
def readLow (high : ℕ) : List Char → Option (Char × List Char)
  | '\\' :: 'u' :: rest => do
    let (low, rest) ← readHex rest
    if 0xdc00 ≤ low ∧ low ≤ 0xdfff then
      some (Char.ofNat (0x10000 + (high - 0xd800) * 0x400 + (low - 0xdc00)), rest)
    else none
  | _ => none

def readUnicode (cs : List Char) : Option (Char × List Char) := do
  let (code, rest) ← readHex cs
  if 0xd800 ≤ code ∧ code ≤ 0xdbff then readLow code rest
  else if 0xdc00 ≤ code ∧ code ≤ 0xdfff then none
  else some (Char.ofNat code, rest)

/-- What stands after a backslash. -/
def readEscaped : List Char → Option (Char × List Char)
  | '"' :: rest => some ('"', rest)
  | '\\' :: rest => some ('\\', rest)
  | '/' :: rest => some ('/', rest)
  | 'b' :: rest => some (Char.ofNat 8, rest)
  | 'f' :: rest => some (Char.ofNat 12, rest)
  | 'n' :: rest => some (Char.ofNat 10, rest)
  | 'r' :: rest => some (Char.ofNat 13, rest)
  | 't' :: rest => some (Char.ofNat 9, rest)
  | 'u' :: rest => readUnicode rest
  | _ => none

/-- Control characters have to be escaped. -/
def readChar : List Char → Option (Char × List Char)
  | [] => none
  | c :: rest =>
    if c = '\\' then readEscaped rest else if c.toNat < 32 then none else some (c, rest)

/-- What is left of a string up to its closing quote. -/
def readText : ℕ → List Char → Option (List Char × List Char)
  | 0, _ => none
  | fuel + 1, cs =>
    if cs.head? = some '"' then some ([], cs.tail)
    else do
      let (c, rest) ← readChar cs
      let (text, rest) ← readText fuel rest
      some (c :: text, rest)

def readString (cs : List Char) : Option (String × List Char) :=
  (readText (cs.length + 1) cs).map fun (text, rest) => (String.ofList text, rest)

/-! ## Numbers -/

def isSpace (c : Char) : Bool := c = ' ' || c = '\n' || c = '\t' || c = '\r'

def skipSpace (cs : List Char) : List Char := cs.dropWhile isSpace

/-- The part behind a point, with the point. -/
def readFraction : List Char → Option (List Char × List Char)
  | '.' :: rest =>
    let digits := rest.takeWhile Char.isDigit
    if digits = [] then none else some ('.' :: digits, rest.dropWhile Char.isDigit)
  | cs => some ([], cs)

def readSign : List Char → List Char × List Char
  | '+' :: rest => (['+'], rest)
  | '-' :: rest => (['-'], rest)
  | cs => ([], cs)

def readExponent : List Char → Option (List Char × List Char)
  | c :: rest =>
    if c = 'e' ∨ c = 'E' then
      let (sign, rest) := readSign rest
      let digits := rest.takeWhile Char.isDigit
      if digits = [] then none
      else some (c :: sign ++ digits, rest.dropWhile Char.isDigit)
    else some ([], c :: rest)
  | [] => some ([], [])

/-- The integers of serde_json: from -2⁶³ to below 2⁶⁴. -/
def isMachine (n : ℤ) : Bool := -(2 ^ 63) ≤ n && n < 2 ^ 64

section Reader

-- How a number that is no integer of the machine is read as a binary64 and written again,
-- unless it is out of range.
variable (readFloat : List Char → Option String)

def numberOf (minus : Bool) (digits : List Char) : Option ℤ :=
  let n : ℤ := Nat.ofDigitChars 10 digits 0
  let value := if minus then -n else n
  -- a zero with a minus sign is not an integer
  if minus ∧ n = 0 then none else if isMachine value then some value else none

def readUnsigned (minus : Bool) (cs : List Char) : Option (Value × List Char) :=
  let digits := cs.takeWhile Char.isDigit
  if digits = [] ∨ digits.head? = some '0' ∧ digits.length ≠ 1 then none
  else do
    let (fraction, rest) ← readFraction (cs.dropWhile Char.isDigit)
    let (exponent, rest) ← readExponent rest
    let sign := if minus then ['-'] else []
    let float := (readFloat (sign ++ digits ++ fraction ++ exponent)).map fun text =>
      (Value.float text, rest)
    if fraction = [] ∧ exponent = [] then
      match numberOf minus digits with
      | some n => some (int n, rest)
      | none => float
    else float

def readNumber (cs : List Char) : Option (Value × List Char) :=
  if cs.head? = some '-' then readUnsigned readFloat true cs.tail
  else readUnsigned readFloat false cs

/-! ## Values -/

mutual

/-- A value and what follows it; `depth` more arrays and objects may be opened. -/
def readValue : ℕ → ℕ → List Char → Option (Value × List Char)
  | 0, _, _ => none
  | fuel + 1, depth, cs =>
    match skipSpace cs with
    | 'n' :: 'u' :: 'l' :: 'l' :: rest => some (null, rest)
    | 't' :: 'r' :: 'u' :: 'e' :: rest => some (bool true, rest)
    | 'f' :: 'a' :: 'l' :: 's' :: 'e' :: rest => some (bool false, rest)
    | '"' :: rest => (readString rest).map fun (text, rest) => (string text, rest)
    | '[' :: rest =>
      if depth = 0 then none
      else if (skipSpace rest).head? = some ']' then some (array [], (skipSpace rest).tail)
      else (readItems fuel (depth - 1) rest).map fun (values, rest) => (array values, rest)
    | '\x7b' :: rest =>
      if depth = 0 then none
      else if (skipSpace rest).head? = some '\x7d' then some (object [], (skipSpace rest).tail)
      else (readMembers fuel (depth - 1) [] rest).map fun (fields, rest) => (object fields, rest)
    | rest => readNumber readFloat rest

def readItems : ℕ → ℕ → List Char → Option (List Value × List Char)
  | 0, _, _ => none
  | fuel + 1, depth, cs => do
    let (value, rest) ← readValue fuel depth cs
    match skipSpace rest with
    | ']' :: rest => some ([value], rest)
    | ',' :: rest => (readItems fuel depth rest).map fun (values, rest) => (value :: values, rest)
    | _ => none

/-- The last value of a key counts. -/
def readMembers : ℕ → ℕ → List (String × Value) → List Char →
    Option (List (String × Value) × List Char)
  | 0, _, _, _ => none
  | fuel + 1, depth, acc, cs =>
    match skipSpace cs with
    | '"' :: rest => do
      let (key, rest) ← readString rest
      match skipSpace rest with
      | ':' :: rest => do
        let (value, rest) ← readValue fuel depth rest
        let fields := insertField key value acc
        match skipSpace rest with
        | '\x7d' :: rest => some (fields, rest)
        | ',' :: rest => readMembers fuel depth fields rest
        | _ => none
      | _ => none
    | _ => none

end

/-- The default of serde_json. -/
def recursionLimit : ℕ := 127

/-- `from_slice`: the bytes are one value, with white space around it. -/
def fromSlice (depth : ℕ) (bytes : List UInt8) : Option Value :=
  if Utf8.isValid bytes then do
    let cs := Utf8.lossy bytes
    let (value, rest) ← readValue readFloat (cs.length + 1) depth cs
    if skipSpace rest = [] then some value else none
  else none

end Reader

/-! ## Steps of the reader -/

section Steps
variable {readFloat : List Char → Option String}

theorem readValue_quote (fuel limit : ℕ) (cs : List Char) :
    readValue readFloat (fuel + 1) limit ('"' :: cs) =
      (readString cs).map fun (text, rest) => (string text, rest) := rfl

theorem readItems_cons {fuel limit : ℕ} {cs : List Char} :
    readItems readFloat (fuel + 1) limit cs =
      (readValue readFloat fuel limit cs).bind fun (value, rest) =>
        match skipSpace rest with
        | ']' :: rest => some ([value], rest)
        | ',' :: rest => (readItems readFloat fuel limit rest).map fun (values, rest) =>
          (value :: values, rest)
        | _ => none := rfl

theorem readMembers_cons {fuel limit : ℕ} {acc : List (String × Value)} {cs : List Char}
    {key : String} {rest : List Char} (h : readString cs = some (key, ':' :: rest)) :
    readMembers readFloat (fuel + 1) limit acc ('"' :: cs) =
      (readValue readFloat fuel limit rest).bind fun (value, rest) =>
        match skipSpace rest with
        | '\x7d' :: rest => some (insertField key value acc, rest)
        | ',' :: rest => readMembers readFloat fuel limit (insertField key value acc) rest
        | _ => none := by
  have hread : readMembers readFloat (fuel + 1) limit acc ('"' :: cs) =
      (readString cs).bind fun (key, rest) =>
        match skipSpace rest with
        | ':' :: rest => (readValue readFloat fuel limit rest).bind fun (value, rest) =>
          match skipSpace rest with
          | '\x7d' :: rest => some (insertField key value acc, rest)
          | ',' :: rest => readMembers readFloat fuel limit (insertField key value acc) rest
          | _ => none
        | _ => none := rfl
  rw [hread, h]
  rfl

end Steps

end Oath.Contracts.Value
