import Oath.Contracts.Assessments
import Oath.Contracts.CanonicalRead
import Oath.Transparency.Log

/-! The lines of the log are read back as the entries they were written for, so what is hashed for
an entry determines what the entry says. -/

namespace Oath.Transparency
open Contracts Contracts.Value Registry Replace

/-! ## A reader of entries -/

def PackageEntry.ofValue? (value : Value) : Option PackageEntry := do
  let value ← value.record? ["name", "version", "integrity"] 3
  let name ← value.field? "name" asStr?
  let version ← value.field? "version" asStr?
  let integrity ← value.fieldOr "integrity" (option? asStr?) none
  some ⟨name, version, integrity⟩

def TransparencyEntry.ofValue? (value : Value) : Option TransparencyEntry := do
  let value ← value.record? ["ts", "project", "pkg_count", "packages", "duration_ms",
    "previous_hash", "entry_hash"] 5
  let ts ← value.field? "ts" asU64?
  let project ← value.field? "project" asStr?
  let pkgCount ← value.field? "pkg_count" asU64?
  let packages ← value.field? "packages" (listOf? PackageEntry.ofValue?)
  let durationMs ← value.field? "duration_ms" asU64?
  let previousHash ← value.fieldOr "previous_hash" (option? asStr?) none
  let entryHash ← value.fieldOr "entry_hash" (option? asStr?) none
  some ⟨ts, project, pkgCount, packages, durationMs, previousHash, entryHash⟩

/-- Reads the lines of the log; of a field that comes twice the last one counts. -/
def entryOfStr (line : String) : Option TransparencyEntry :=
  (fromSlice (fun _ => none) recursionLimit (asBytes line)).bind TransparencyEntry.ofValue?

/-! ## Reading back -/

theorem get?_ordered (fields : List (String × Value)) (key : String) :
    (ordered (object fields)).get? key =
      (fields.reverse.find? fun field => field.1 = key).map fun field => field.2.ordered := by
  have hordered : ordered (object fields) =
      json (fields.map fun field => (field.1, field.2.ordered)) := by
    rw [ordered, orderedFields_eq]
  rw [hordered, Value.get?_json, ← List.map_reverse, List.find?_map, Option.map_map]
  rfl

theorem fieldOr_optString {value : Value} {key : String} {text : Option String}
    (h : value.get? key = if text.isSome then some (optString text) else none) :
    value.fieldOr key (option? asStr?) none = some text := by
  rw [fieldOr, h]
  cases text with
  | none => rfl
  | some text => rfl

theorem find?_someField (key k : String) (text : Option String) :
    (someField key text).reverse.find? (fun field => field.1 = k) =
      if key = k ∧ text.isNone = false then some (key, optString text) else none :=
  find?_fieldUnless text.isNone key k (optString text)

theorem PackageEntry.ofValue?_ordered (e : PackageEntry) :
    PackageEntry.ofValue? e.toValue.ordered = some e := by
  have hget (key : String) := get?_ordered ([("name", string e.name), ("version", string e.version)]
    ++ someField "integrity" e.integrity) key
  have hname : e.toValue.ordered.get? "name" = some (string e.name) := by
    rw [toValue, hget]
    simp [find?_someField, ordered]
  have hversion : e.toValue.ordered.get? "version" = some (string e.version) := by
    rw [toValue, hget]
    simp [find?_someField, ordered]
  have hintegrity : e.toValue.ordered.get? "integrity" =
      if e.integrity.isSome then some (optString e.integrity) else none := by
    rw [toValue, hget]
    cases h : e.integrity <;> simp [find?_someField, ordered, optString]
  have hrecord : record? ["name", "version", "integrity"] 3 e.toValue.ordered =
      some e.toValue.ordered := rfl
  simp only [PackageEntry.ofValue?, hrecord, field?_of_get? _ hname, field?_of_get? _ hversion,
    fieldOr_optString hintegrity, asStr?_string, Option.bind_eq_bind, Option.bind_some]

theorem orderedItems_map {α : Type} (items : List α) (write : α → Value) :
    ordered (array (items.map write)) = array (items.map fun item => (write item).ordered) := by
  rw [ordered, orderedItems_eq, List.map_map]
  rfl

/-- An entry is read from its value whatever the order of the fields. -/
theorem TransparencyEntry.ofValue?_ordered (e : TransparencyEntry) :
    TransparencyEntry.ofValue? e.toValue.ordered = some e := by
  have hget (key : String) := get?_ordered (e.payload.fields ++
    someField "previous_hash" e.previousHash ++ someField "entry_hash" e.entryHash) key
  have hbody : ∀ field ∈ e.payload.fields, e.toValue.ordered.get? field.1 =
      some field.2.ordered := by
    intro field hfield
    rw [toValue, hget]
    simp only [HashPayload.fields, List.mem_cons, List.not_mem_nil, or_false] at hfield
    rcases hfield with rfl | rfl | rfl | rfl | rfl <;>
      simp [find?_someField, HashPayload.fields]
  have hprevious : e.toValue.ordered.get? "previous_hash" =
      if e.previousHash.isSome then some (optString e.previousHash) else none := by
    rw [toValue, hget]
    cases h : e.previousHash <;>
      simp [find?_someField, ordered, optString, HashPayload.fields]
  have hentry : e.toValue.ordered.get? "entry_hash" =
      if e.entryHash.isSome then some (optString e.entryHash) else none := by
    rw [toValue, hget]
    cases h : e.entryHash <;>
      simp [find?_someField, ordered, optString, HashPayload.fields]
  have hfield (key : String) (value : Value) (h : (key, value) ∈ e.payload.fields) {α : Type}
      (read : Value → Option α) : e.toValue.ordered.field? key read = read value.ordered :=
    field?_of_get? read (hbody (key, value) h)
  have hpackages : listOf? PackageEntry.ofValue?
      (ordered (array (e.packages.map PackageEntry.toValue))) = some e.packages := by
    rw [orderedItems_map]
    exact listOf?_map PackageEntry.ofValue?_ordered e.packages
  have hrecord : record? ["ts", "project", "pkg_count", "packages", "duration_ms",
      "previous_hash", "entry_hash"] 5 e.toValue.ordered = some e.toValue.ordered := rfl
  unfold TransparencyEntry.ofValue?
  rw [hrecord, Option.bind_eq_bind, Option.bind_some]
  rw [hfield "ts" (int e.ts.toNat) (by simp [HashPayload.fields, payload])]
  rw [hfield "project" (string e.project) (by simp [HashPayload.fields, payload])]
  rw [hfield "pkg_count" (int e.pkgCount.toNat) (by simp [HashPayload.fields, payload])]
  rw [hfield "packages" (array (e.packages.map PackageEntry.toValue))
    (by simp [HashPayload.fields, payload])]
  rw [hfield "duration_ms" (int e.durationMs.toNat) (by simp [HashPayload.fields, payload])]
  rw [hpackages, fieldOr_optString hprevious, fieldOr_optString hentry]
  simp only [ordered, asU64?_int, asStr?_string, Option.bind_eq_bind, Option.bind_some]

/-! ## The text of an entry -/

theorem isMachineIntegralFields_append {fields others : List (String × Value)} :
    isMachineIntegral (object (fields ++ others)) ↔
      isMachineIntegral (object fields) ∧ isMachineIntegral (object others) := by
  induction fields with
  | nil => simp [isMachineIntegral, numbersAre, numbersAreFields]
  | cons field rest ih =>
    rw [List.cons_append, isMachineIntegralFields_cons, isMachineIntegralFields_cons, ih, and_assoc]

theorem isMachineIntegral_someField (key : String) (text : Option String) :
    isMachineIntegral (object (someField key text)) := by
  cases text with
  | none => rfl
  | some text => rfl

theorem isMachine_uint64 (n : UInt64) : isMachine n.toNat := by
  have hlt := n.toNat_lt
  simp only [isMachine, Bool.and_eq_true, decide_eq_true_eq]
  omega

theorem isMachineIntegral_packages (packages : List PackageEntry) :
    isMachineIntegral (array (packages.map PackageEntry.toValue)) := by
  induction packages with
  | nil => rfl
  | cons package rest ih =>
    rw [List.map_cons]
    refine isMachineIntegral_cons.mpr ⟨?_, ih⟩
    exact isMachineIntegralFields_append.mpr ⟨rfl, isMachineIntegral_someField _ _⟩

theorem HashPayload.isMachineIntegral_toValue (p : HashPayload) :
    p.toValue.isMachineIntegral := by
  refine isMachineIntegralFields_cons.mpr ⟨isMachine_uint64 p.ts, ?_⟩
  refine isMachineIntegralFields_cons.mpr ⟨rfl, ?_⟩
  refine isMachineIntegralFields_cons.mpr ⟨isMachine_uint64 p.pkgCount, ?_⟩
  refine isMachineIntegralFields_cons.mpr ⟨isMachineIntegral_packages p.packages, ?_⟩
  exact isMachineIntegralFields_cons.mpr ⟨isMachine_uint64 p.durationMs, rfl⟩

theorem TransparencyEntry.isMachineIntegral_toValue (e : TransparencyEntry) :
    e.toValue.isMachineIntegral := by
  refine isMachineIntegralFields_append.mpr ⟨?_, isMachineIntegral_someField _ _⟩
  exact isMachineIntegralFields_append.mpr
    ⟨e.payload.isMachineIntegral_toValue, isMachineIntegral_someField _ _⟩

theorem depthItems_le {values : List Value} {n : ℕ} :
    depthItems values ≤ n ↔ ∀ value ∈ values, depth value ≤ n := by
  induction values with
  | nil => simp [depthItems]
  | cons value rest ih => rw [depthItems, max_le_iff, ih, List.forall_mem_cons]

theorem depth_someField (key : String) (text : Option String) :
    ∀ field ∈ someField key text, depth field.2 ≤ 0 := by
  cases text with
  | none => exact fun field hfield => absurd hfield List.not_mem_nil
  | some text =>
    intro field hfield
    rw [List.mem_singleton.mp hfield]
    exact le_rfl

theorem PackageEntry.depth_le (e : PackageEntry) : e.toValue.depth ≤ 1 := by
  have hfields : depthFields ([("name", string e.name), ("version", string e.version)] ++
      someField "integrity" e.integrity) ≤ 0 := by
    refine depthFields_le.mpr fun field hfield => ?_
    rcases List.mem_append.mp hfield with hbody | hoptional
    · simp only [List.mem_cons, List.not_mem_nil, or_false] at hbody
      rcases hbody with rfl | rfl
      · exact le_rfl
      · exact le_rfl
    · exact depth_someField _ _ field hoptional
  rw [toValue, depth]
  omega

theorem TransparencyEntry.depth_le (e : TransparencyEntry) : e.toValue.depth ≤ 3 := by
  have hpackages : depth (array (e.packages.map PackageEntry.toValue)) ≤ 2 := by
    have hitems : depthItems (e.packages.map PackageEntry.toValue) ≤ 1 := by
      refine depthItems_le.mpr fun value hvalue => ?_
      obtain ⟨package, -, rfl⟩ := List.mem_map.mp hvalue
      exact package.depth_le
    rw [depth]
    omega
  have hfields : depthFields (e.payload.fields ++ someField "previous_hash" e.previousHash ++
      someField "entry_hash" e.entryHash) ≤ 2 := by
    refine depthFields_le.mpr fun field hfield => ?_
    rcases List.mem_append.mp hfield with hfront | hentry
    · rcases List.mem_append.mp hfront with hbody | hprevious
      · simp only [HashPayload.fields, List.mem_cons, List.not_mem_nil, or_false] at hbody
        rcases hbody with rfl | rfl | rfl | rfl | rfl
        · exact Nat.zero_le 2
        · exact Nat.zero_le 2
        · exact Nat.zero_le 2
        · exact hpackages
        · exact Nat.zero_le 2
      · exact le_trans (depth_someField _ _ field hprevious) (Nat.zero_le 2)
    · exact le_trans (depth_someField _ _ field hentry) (Nat.zero_le 2)
  rw [toValue, depth]
  omega

/-- A line is read back as its entry. -/
theorem entryOfStr_line (e : TransparencyEntry) : entryOfStr e.line = some e := by
  have hbytes : asBytes e.line = encode (compact e.toValue) := asBytes_ofList _
  have hdepth : e.toValue.depth ≤ recursionLimit := le_trans e.depth_le (by decide)
  rw [entryOfStr, hbytes, fromSlice_compact _ e.isMachineIntegral_toValue, within_of_le hdepth]
  exact e.ofValue?_ordered

/-! ## What is hashed for an entry -/

/-- An entry before it has hashes. -/
def HashPayload.entry (p : HashPayload) : TransparencyEntry :=
  ⟨p.ts, p.project, p.pkgCount, p.packages, p.durationMs, none, none⟩

theorem HashPayload.compact_injective {p q : HashPayload}
    (h : compact p.toValue = compact q.toValue) : p = q := by
  have hlines : p.entry.line = q.entry.line := congrArg String.ofList h
  have hentries : some p.entry = some q.entry := by
    rw [← entryOfStr_line, hlines, entryOfStr_line]
  exact congrArg TransparencyEntry.payload (Option.some.inj hentries)

/-- A hash, or the word before all of them, has no brace in it. -/
def IsHash (text : String) : Prop := '\x7b' ∉ text.toList

theorem isHash_genesisHash : IsHash genesisHash := by
  unfold IsHash
  decide

theorem isHash_hexSha256 (sha : Sha256) (bytes : List UInt8) : IsHash (hexSha256 sha bytes) := by
  intro hmem
  rw [hexSha256, hexEncode, String.toList_ofList] at hmem
  obtain ⟨byte, -, hdigit⟩ := List.mem_flatMap.mp hmem
  have hdigits : ∀ n < 16, '\x7b' ≠ Nat.digitChar n := by decide
  have hlt := byte.toNat_lt
  simp only [hexDigits, List.mem_cons, List.not_mem_nil, or_false] at hdigit
  rcases hdigit with hhigh | hlow
  · exact hdigits _ (by omega) hhigh
  · exact hdigits _ (by omega) hlow

/-- The hash in front and the payload are known from what is hashed. -/
theorem entryInput_injective {previous previous' : String} {p p' : HashPayload}
    (hprevious : IsHash previous) (hprevious' : IsHash previous')
    (h : entryInput previous p = entryInput previous' p') : previous = previous' ∧ p = p' := by
  have htext : previous.toList ++ compact p.toValue = previous'.toList ++ compact p'.toValue := by
    apply encode_injective
    rw [entryInput, entryInput, asBytes_eq, asBytes_eq] at h
    rw [encode, encode, List.flatMap_append, List.flatMap_append]
    exact h
  have hopen : ∀ p : HashPayload, ∃ cs, compact p.toValue = '\x7b' :: cs := fun p => ⟨_, rfl⟩
  have htake : ∀ (text : String) (p : HashPayload), IsHash text →
      (text.toList ++ compact p.toValue).takeWhile (· ≠ '\x7b') = text.toList := by
    intro text p htext
    obtain ⟨cs, hcs⟩ := hopen p
    rw [List.takeWhile_append_of_pos, hcs, List.takeWhile_cons_of_neg, List.append_nil]
    · simp
    · intro c hc
      have hne : c ≠ '\x7b' := fun heq => htext (heq ▸ hc)
      simpa using hne
  have hlists : previous.toList = previous'.toList := by
    rw [← htake previous p hprevious, htext, htake previous' p' hprevious']
  rw [hlists] at htext
  exact ⟨String.toList_injective hlists,
    HashPayload.compact_injective (List.append_cancel_left htext)⟩

end Oath.Transparency
