import Oath.Contracts.Json
import Oath.Library.OrderedMap
import Oath.Library.Outcome

/-! How records are read from JSON values and written to them, field by field. -/

namespace Oath.Contracts.Value

def asBool? : Value → Option Bool
  | bool value => some value
  | _ => none

def asArray? : Value → Option (List Value)
  | array values => some values
  | _ => none

def asU32? : Value → Option UInt32
  | int (.ofNat value) => if value < 2 ^ 32 then some (.ofNat value) else none
  | _ => none

def listOf? {α : Type} (read : Value → Option α) (value : Value) : Option (List α) :=
  value.asArray?.bind (·.mapM read)

def strings? : Value → Option (List String) := listOf? asStr?

/-- The values of an object by their keys. -/
def mapOf? {α : Type} (read : Value → Option α) (value : Value) : Option (OrderedMap String α) :=
  value.asObject?.bind fun fields =>
    (fields.mapM fun field : String × Value => (read field.2).map (field.1, ·)).map .ofList

def stringMap? : Value → Option (OrderedMap String String) := mapOf? asStr?

/-- `null` stands for nothing. -/
def option? {α : Type} (read : Value → Option α) : Value → Option (Option α)
  | null => some none
  | value => (read value).map some

/-- A field that may be missing. -/
def fieldOr {α : Type} (value : Value) (key : String) (read : Value → Option α) (default : α) :
    Option α := ((value.get? key).map read).getD (some default)

def field? {α : Type} (value : Value) (key : String) (read : Value → Option α) : Option α :=
  (value.get? key).bind read

/-- A record is read from an object, or from an array with its fields in order. -/
def record? (names : List String) (required : ℕ) : Value → Option Value
  | object fields => some (object fields)
  | array values =>
    if required ≤ values.length ∧ values.length ≤ names.length then
      some (object (names.zip values))
    else none
  | _ => none

/-! ## Writing -/

def ofMap {α : Type} (write : α → Value) (m : OrderedMap String α) : Value :=
  object (m.rows.map fun row => (row.1, write row.2))

def stringMap : OrderedMap String String → Value := ofMap string

/-- A field that is left out when there is nothing in it. -/
def fieldUnless (empty : Bool) (key : String) (value : Value) : List (String × Value) :=
  if empty then [] else [(key, value)]

/-! ## What was written is read back -/

@[simp] theorem asStr?_string (s : String) : (string s).asStr? = some s := rfl

@[simp] theorem asBool?_bool (b : Bool) : (bool b).asBool? = some b := rfl

theorem option?_optString (text : Option String) : option? asStr? (optString text) = some text := by
  cases text <;> rfl

theorem listOf?_map {α : Type} {read : Value → Option α} {write : α → Value}
    (h : ∀ a, read (write a) = some a) (items : List α) :
    listOf? read (array (items.map write)) = some items := by
  simp only [listOf?, asArray?, Option.bind_some]
  induction items with
  | nil => rfl
  | cons item rest ih =>
    rw [List.map_cons, List.mapM_cons, ih, h]
    rfl

theorem strings?_strings (values : List String) : (strings values).strings? = some values :=
  listOf?_map asStr?_string values

theorem mapOf?_ofMap {α : Type} {read : Value → Option α} {write : α → Value}
    (h : ∀ a, read (write a) = some a) (m : OrderedMap String α) :
    mapOf? read (ofMap write m) = some m := by
  have hread : ∀ rows : List (String × α),
      (rows.map fun row => (row.1, write row.2)).mapM
        (fun field : String × Value => (read field.2).map (field.1, ·)) = some rows := by
    intro rows
    induction rows with
    | nil => rfl
    | cons row rest ih =>
      rw [List.map_cons, List.mapM_cons, ih]
      simp [h]
  simp only [mapOf?, ofMap, asObject?, Option.bind_some, hread, Option.map_some,
    OrderedMap.ofList_rows]

theorem stringMap?_stringMap (m : OrderedMap String String) :
    (stringMap m).stringMap? = some m := mapOf?_ofMap asStr?_string m

theorem get?_json (fields : List (String × Value)) (key : String) :
    (json fields).get? key = (fields.reverse.find? fun field => field.1 = key).map Prod.snd := by
  have hfold : ∀ acc : List (String × Value),
      (fields.foldl (fun acc field => insertField field.1 field.2 acc) acc).lookup key =
        ((fields.reverse.find? fun field => field.1 = key).map Prod.snd).or (acc.lookup key) := by
    induction fields with
    | nil => exact fun acc => rfl
    | cons field rest ih =>
      intro acc
      rw [List.foldl_cons, ih, List.reverse_cons, List.find?_append, lookup_insertField]
      cases rest.reverse.find? fun later => later.1 = key with
      | some later => rfl
      | none =>
        by_cases hk : field.1 = key
        · simp [hk]
        · simp [hk, Ne.symm hk]
  show (fields.foldl _ []).lookup key = _
  rw [hfold, List.lookup_nil, Option.or_none]

theorem get?_json_of_nodup {fields : List (String × Value)} (h : (fields.map Prod.fst).Nodup) :
    ∀ field ∈ fields, (json fields).get? field.1 = some field.2 := by
  intro field hmem
  have hsome : (fields.reverse.find? fun other => other.1 = field.1).isSome :=
    List.find?_isSome.mpr ⟨field, List.mem_reverse.mpr hmem, by simp⟩
  obtain ⟨other, hfind⟩ := Option.isSome_iff_exists.mp hsome
  have hkey : other.1 = field.1 := by simpa using List.find?_some hfind
  have hother := List.mem_reverse.mp (List.mem_of_find?_eq_some hfind)
  rw [get?_json, hfind, List.inj_on_of_nodup_map h hother hmem hkey]
  rfl

theorem field?_of_get? {α : Type} {value v : Value} {key : String} (read : Value → Option α)
    (h : value.get? key = some v) : value.field? key read = read v := by
  rw [field?, h, Option.bind_some]

theorem fieldOr_of_get? {α : Type} {value v : Value} {key : String} (read : Value → Option α)
    (default : α) (h : value.get? key = some v) : value.fieldOr key read default = read v := by
  rw [fieldOr, h]
  rfl

/-- The field of a key among fields that each may have been left out. -/
theorem find?_fieldUnless (empty : Bool) (key k : String) (value : Value) :
    (fieldUnless empty key value).reverse.find? (fun field => field.1 = k) =
      if key = k ∧ empty = false then some (key, value) else none := by
  unfold fieldUnless
  by_cases hk : key = k <;> cases empty <;> simp [hk]

/-! A field that is left out when it has its default is read back. -/

theorem read_optString (text : Option String) :
    (if text.isSome = true then some (option? asStr? (optString text)) else none).getD (some none) =
      some text := by
  cases text <;> rfl

theorem read_bool (b : Bool) :
    (if b = true then some (some b) else none).getD (some false) = some b := by
  cases b <;> rfl

theorem read_strings (key : String) (texts : List String) :
    (Option.map (strings? ∘ Prod.snd)
      (if texts = [] then none else some (key, strings texts))).getD (some []) = some texts := by
  split_ifs with h
  · rw [h]
    rfl
  · exact strings?_strings texts

theorem read_stringMap (key : String) (m : OrderedMap String String) :
    (Option.map (stringMap? ∘ Prod.snd)
      (if m.rows = [] then none else some (key, stringMap m))).getD (some .empty) = some m := by
  split_ifs with h
  · obtain ⟨rows, sorted⟩ := m
    subst h
    rfl
  · exact stringMap?_stringMap m

theorem asU32?_int (n : UInt32) : asU32? (int n.toNat) = some n := by
  have hread : asU32? (int n.toNat) = some (.ofNat n.toNat) := if_pos n.toNat_lt
  rw [hread, UInt32.ofNat_toNat]

end Oath.Contracts.Value
