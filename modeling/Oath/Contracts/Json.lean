import Oath.Registry.Digest

/-! JSON values as the services exchange them, their canonical text and its digest. -/

namespace Oath.Contracts

/-- A JSON value. The fields of an object are kept in the order of their keys; a number
that is not an integer is known by its text. -/
inductive Value
  | null
  | bool (value : Bool)
  | int (value : ℤ)
  | float (text : String)
  | string (value : String)
  | array (values : List Value)
  | object (fields : List (String × Value))

namespace Value

def asStr? : Value → Option String
  | string value => some value
  | _ => none

def asObject? : Value → Option (List (String × Value))
  | object fields => some fields
  | _ => none

def get? (key : String) : Value → Option Value
  | object fields => fields.lookup key
  | _ => none

/-- Indexing reads `null` where there is no such field. -/
def index (value : Value) (key : String) : Value := (value.get? key).getD null

def isString (value : Value) : Bool := value.asStr?.isSome

def insertField (key : String) (value : Value) : List (String × Value) → List (String × Value)
  | [] => [(key, value)]
  | (k, v) :: rest =>
    if key = k then (key, value) :: rest
    else if key < k then (key, value) :: (k, v) :: rest
    else (k, v) :: insertField key value rest

theorem lookup_cons (k k' : String) (v : Value) (rest : List (String × Value)) :
    ((k', v) :: rest).lookup k = if k = k' then some v else rest.lookup k := by
  rw [List.lookup_cons]
  by_cases hk : k = k'
  · simp [hk]
  · rw [if_neg hk, beq_false_of_ne hk]

theorem lookup_insertField (key k : String) (value : Value) (fields : List (String × Value)) :
    (insertField key value fields).lookup k = if k = key then some value else fields.lookup k := by
  induction fields with
  | nil => rw [insertField, lookup_cons]
  | cons field rest ih =>
    obtain ⟨k', v⟩ := field
    rw [insertField]
    split
    · next heq =>
      subst heq
      rw [lookup_cons, lookup_cons]
      by_cases hk : k = key <;> simp [hk]
    · next hne =>
      split
      · rw [lookup_cons]
      · rw [lookup_cons, lookup_cons, ih]
        by_cases hk : k = k'
        · subst hk
          simp [Ne.symm hne]
        · simp [hk]

/-- `json!` with an object: later fields replace earlier ones of the same key. -/
def json (fields : List (String × Value)) : Value :=
  object (fields.foldl (fun acc field => insertField field.1 field.2 acc) [])

def strings (values : List String) : Value := array (values.map string)

def optString : Option String → Value
  | some value => string value
  | none => null

/-! ## Canonical text -/

def escape (c : Char) : List Char :=
  if c = '"' then ['\\', '"']
  else if c = '\\' then ['\\', '\\']
  else if c.toNat = 8 then ['\\', 'b']
  else if c.toNat = 9 then ['\\', 't']
  else if c.toNat = 10 then ['\\', 'n']
  else if c.toNat = 12 then ['\\', 'f']
  else if c.toNat = 13 then ['\\', 'r']
  else if c.toNat < 32 then
    ['\\', 'u', '0', '0', Nat.digitChar (c.toNat / 16), Nat.digitChar (c.toNat % 16)]
  else [c]

def quote (s : String) : String := String.ofList ('"' :: s.toList.flatMap escape ++ ['"'])

mutual

/-- Compact text with the keys of every object in order. -/
def canonical : Value → String
  | null => "null"
  | bool value => if value then "true" else "false"
  | int value => toString value
  | float text => text
  | string value => quote value
  | array values => "[" ++ ",".intercalate (canonicalItems values) ++ "]"
  | object fields =>
    let entries := (canonicalFields fields).mergeSort fun a b => a.1 ≤ b.1
    "\x7b" ++ ",".intercalate (entries.map fun (key, text) => quote key ++ ":" ++ text) ++ "\x7d"

def canonicalItems : List Value → List String
  | [] => []
  | value :: rest => canonical value :: canonicalItems rest

def canonicalFields : List (String × Value) → List (String × String)
  | [] => []
  | (key, value) :: rest => (key, canonical value) :: canonicalFields rest

end

end Value

open Registry in
def canonicalJsonBytes (value : Value) : List UInt8 := asBytes value.canonical

open Registry in
def digestJson (sha : Sha256) (value : Value) : String :=
  "sha256:" ++ hexSha256 sha (canonicalJsonBytes value)

end Oath.Contracts
