import Mathlib.Algebra.BigOperators.Group.List.Basic
import Mathlib.Algebra.Ring.Nat
import Oath.Contracts.Canonicalizers
import Oath.Library.Utf8Order

/-! The canonical bytes of a value in four languages. Every library writes the same text but
for the way it quotes strings, so they agree exactly where Go quotes every string as the
others do. -/

namespace Oath.Contracts
open Registry Replace

namespace Value

/-! ## The text of a value -/

mutual

/-- Canonical text with the strings quoted in a given way. -/
def render (q : String → List Char) : Value → List Char
  | null => "null".toList
  | bool value => (if value then "true" else "false").toList
  | int value => (toString value).toList
  | float text => text.toList
  | string value => q value
  | array values => '[' :: ([','].intercalate (renderItems q values) ++ [']'])
  | object fields =>
    let entries := (renderFields q fields).mergeSort fun a b => a.1 ≤ b.1
    '\x7b' :: ([','].intercalate (entries.map fun entry => q entry.1 ++ ':' :: entry.2) ++ ['\x7d'])

def renderItems (q : String → List Char) : List Value → List (List Char)
  | [] => []
  | value :: rest => render q value :: renderItems q rest

def renderFields (q : String → List Char) : List (String × Value) → List (String × List Char)
  | [] => []
  | (key, value) :: rest => (key, render q value) :: renderFields q rest

end

mutual

/-- The strings of a value: texts and keys. -/
def texts : Value → List String
  | string value => [value]
  | array values => textsItems values
  | object fields => textsFields fields
  | _ => []

def textsItems : List Value → List String
  | [] => []
  | value :: rest => texts value ++ textsItems rest

def textsFields : List (String × Value) → List String
  | [] => []
  | (key, value) :: rest => key :: texts value ++ textsFields rest

end

mutual

/-- Every number is a safe integer, and the keys of every object are distinct. -/
def isSafe : Value → Bool
  | int value => -maxSafeInteger ≤ value ∧ value ≤ maxSafeInteger
  | float _ => false
  | array values => isSafeItems values
  | object fields => (fields.map Prod.fst).Nodup ∧ isSafeFields fields
  | _ => true

def isSafeItems : List Value → Bool
  | [] => true
  | value :: rest => isSafe value && isSafeItems rest

def isSafeFields : List (String × Value) → Bool
  | [] => true
  | (_, value) :: rest => isSafe value && isSafeFields rest

end

/-! ## The text of the Rust library -/

mutual

theorem canonical_toList (value : Value) :
    value.canonical.toList = render (fun s => (quote s).toList) value := by
  cases value with
  | null => rfl
  | bool value => rfl
  | int value => rfl
  | float text => rfl
  | string value => rfl
  | array values =>
    rw [canonical, render, ← canonicalItems_toList values, String.toList_append,
      String.toList_append, String.toList_intercalate]
    rfl
  | object fields =>
    have hsort : ((canonicalFields fields).mergeSort fun a b => a.1 ≤ b.1).map
          (fun entry => (entry.1, entry.2.toList)) =
        (renderFields (fun s => (quote s).toList) fields).mergeSort fun a b => a.1 ≤ b.1 := by
      rw [← canonicalFields_toList fields]
      exact List.map_mergeSort fun _ _ _ _ => rfl
    rw [canonical, render, ← hsort, String.toList_append, String.toList_append,
      String.toList_intercalate, List.map_map, List.map_map]
    have hentry : ∀ entry : String × String, (quote entry.1 ++ ":" ++ entry.2).toList =
        (quote entry.1).toList ++ ':' :: entry.2.toList := by
      intro entry
      rw [String.toList_append, String.toList_append, List.append_assoc]
      rfl
    have hmembers : String.toList ∘ (fun entry : String × String =>
          quote entry.1 ++ ":" ++ entry.2) =
        (fun entry : String × List Char => (quote entry.1).toList ++ ':' :: entry.2) ∘
          fun entry : String × String => (entry.1, entry.2.toList) := by
      funext entry
      exact hentry entry
    dsimp only
    rw [← hmembers]
    rfl

theorem canonicalItems_toList (values : List Value) :
    (canonicalItems values).map String.toList =
      renderItems (fun s => (quote s).toList) values := by
  cases values with
  | nil => rfl
  | cons value rest =>
    rw [canonicalItems, renderItems, List.map_cons, canonical_toList value,
      canonicalItems_toList rest]

theorem canonicalFields_toList (fields : List (String × Value)) :
    (canonicalFields fields).map (fun entry => (entry.1, entry.2.toList)) =
      renderFields (fun s => (quote s).toList) fields := by
  cases fields with
  | nil => rfl
  | cons field rest =>
    obtain ⟨key, value⟩ := field
    rw [canonicalFields, renderFields, List.map_cons, canonical_toList value,
      canonicalFields_toList rest]

end

/-! ## Lengths -/

theorem length_intercalate (items : List (List Char)) :
    ([','].intercalate items).length = (items.map List.length).sum + (items.length - 1) := by
  induction items with
  | nil => rfl
  | cons item rest ih =>
    cases rest with
    | nil => simp [List.intercalate_singleton]
    | cons next more =>
      rw [List.intercalate_cons_cons, List.length_append, List.length_append, ih]
      simp only [List.map_cons, List.sum_cons, List.length_cons, List.length_nil]
      omega

def lengths (q : String → List Char) (strings : List String) : ℕ :=
  (strings.map fun s => (q s).length).sum

theorem lengths_append (q : String → List Char) (a b : List String) :
    lengths q (a ++ b) = lengths q a + lengths q b := by
  simp [lengths]

/-- The members of an object take as much room in any order. -/
theorem length_members (q : String → List Char) (entries : List (String × List Char)) :
    (('\x7b' : Char) :: ([','].intercalate ((entries.mergeSort fun a b => a.1 ≤ b.1).map
        fun entry => q entry.1 ++ ':' :: entry.2) ++ ['\x7d'])).length =
      2 + (entries.map fun entry => (q entry.1).length + (entry.2.length + 1)).sum +
        (entries.length - 1) := by
  have hperm := List.mergeSort_perm entries fun a b => decide (a.1 ≤ b.1)
  have hsum := (hperm.map fun entry => (q entry.1).length + (entry.2.length + 1)).sum_eq
  simp only [List.length_cons, List.length_append, List.length_nil, length_intercalate,
    List.map_map, Function.comp_def, List.length_map, List.length_mergeSort]
  rw [← hsum]
  omega

mutual

/-- Only the strings of a value take another length when they are quoted in another way. -/
theorem length_render (q : String → List Char) (value : Value) :
    (render q value).length = (render (fun _ => []) value).length + lengths q (texts value) := by
  cases value with
  | null => rfl
  | bool value => rfl
  | int value => rfl
  | float text => rfl
  | string value => simp [render, texts, lengths]
  | array values =>
    have hitems := length_renderItems q values
    simp only [render, texts, List.length_cons, List.length_append, length_intercalate]
    rw [hitems.1, hitems.2]
    omega
  | object fields =>
    have hfields := length_renderFields q fields
    have hwritten := length_members q (renderFields q fields)
    have hbare := length_members (fun _ => []) (renderFields (fun _ => []) fields)
    rw [hfields.1, hfields.2] at hwritten
    rw [render, render, texts]
    exact hwritten.trans (by rw [hbare]; omega)

theorem length_renderItems (q : String → List Char) (values : List Value) :
    ((renderItems q values).map List.length).sum =
        ((renderItems (fun _ => []) values).map List.length).sum + lengths q (textsItems values) ∧
      (renderItems q values).length = (renderItems (fun _ => []) values).length := by
  cases values with
  | nil => exact ⟨rfl, rfl⟩
  | cons value rest =>
    obtain ⟨hsum, hlen⟩ := length_renderItems q rest
    simp only [renderItems, textsItems, List.map_cons, List.sum_cons, List.length_cons,
      lengths_append, length_render q value, hsum, hlen, and_true]
    omega

theorem length_renderFields (q : String → List Char) (fields : List (String × Value)) :
    ((renderFields q fields).map fun entry => (q entry.1).length + (entry.2.length + 1)).sum =
        ((renderFields (fun _ => []) fields).map fun entry =>
          ([] : List Char).length + (entry.2.length + 1)).sum + lengths q (textsFields fields) ∧
      (renderFields q fields).length = (renderFields (fun _ => []) fields).length := by
  cases fields with
  | nil => exact ⟨rfl, rfl⟩
  | cons field rest =>
    obtain ⟨key, value⟩ := field
    obtain ⟨hsum, hlen⟩ := length_renderFields q rest
    have hkey : lengths q (key :: texts value ++ textsFields rest) =
        (q key).length + lengths q (texts value) + lengths q (textsFields rest) := by
      rw [lengths_append]
      simp [lengths]
    simp only [renderFields, textsFields, List.map_cons, List.sum_cons, List.length_cons,
      length_render q value, hsum, hlen, hkey]
    refine ⟨?_, trivial⟩
    simp only [List.length_nil]
    omega

end

/-! ## The same strings, the same text -/

section Congruence
variable {q q' : String → List Char}

theorem keys_renderFields (q : String → List Char) (fields : List (String × Value)) :
    ∀ entry ∈ renderFields q fields, entry.1 ∈ textsFields fields := by
  induction fields with
  | nil => simp [renderFields]
  | cons field rest ih =>
    obtain ⟨key, value⟩ := field
    intro entry hentry
    rcases List.mem_cons.mp hentry with rfl | hentry
    · exact List.mem_append_left _ List.mem_cons_self
    · exact List.mem_append_right _ (ih entry hentry)

mutual

theorem render_congr (value : Value) (h : ∀ s ∈ texts value, q s = q' s) :
    render q value = render q' value := by
  cases value with
  | null => rfl
  | bool value => rfl
  | int value => rfl
  | float text => rfl
  | string value => exact h value List.mem_cons_self
  | array values => rw [render, render, renderItems_congr values h]
  | object fields =>
    rw [render, render, renderFields_congr fields h]
    have hmembers : ∀ entry ∈ (renderFields q' fields).mergeSort fun a b => a.1 ≤ b.1,
        q entry.1 ++ ':' :: entry.2 = q' entry.1 ++ ':' :: entry.2 := by
      intro entry hentry
      have hkey := keys_renderFields q' fields entry (List.mem_mergeSort.mp hentry)
      rw [h entry.1 hkey]
    rw [List.map_congr_left hmembers]

theorem renderItems_congr (values : List Value) (h : ∀ s ∈ textsItems values, q s = q' s) :
    renderItems q values = renderItems q' values := by
  cases values with
  | nil => rfl
  | cons value rest =>
    rw [renderItems, renderItems,
      render_congr value fun s hs => h s (List.mem_append_left _ hs),
      renderItems_congr rest fun s hs => h s (List.mem_append_right _ hs)]

theorem renderFields_congr (fields : List (String × Value))
    (h : ∀ s ∈ textsFields fields, q s = q' s) :
    renderFields q fields = renderFields q' fields := by
  cases fields with
  | nil => rfl
  | cons field rest =>
    obtain ⟨key, value⟩ := field
    rw [renderFields, renderFields,
      render_congr value fun s hs =>
        h s (List.mem_append_left _ (List.mem_cons_of_mem _ hs)),
      renderFields_congr rest fun s hs => h s (List.mem_append_right _ hs)]

end

end Congruence

end Value

/-! ## The bytes of every library -/

theorem asBytes_eq (s : String) : asBytes s = encode s.toList := by
  have hlist := asBytes_ofList s.toList
  rwa [String.ofList_toList] at hlist

theorem encode_injective : Function.Injective encode := by
  intro a b h
  have hbytes : asBytes (String.ofList a) = asBytes (String.ofList b) := by
    rw [asBytes_ofList, asBytes_ofList]
    exact h
  exact String.ofList_injective (asBytes_injective hbytes)

theorem encode_intercalate (items : List (List Char)) :
    encode ([','].intercalate items) = (asBytes ",").intercalate (items.map encode) := by
  induction items with
  | nil => rfl
  | cons item rest ih =>
    cases rest with
    | nil => simp [List.intercalate_singleton]
    | cons next more =>
      rw [List.intercalate_cons_cons, encode_append, encode_append, ih]
      simp only [List.map_cons]
      rw [List.intercalate_cons_cons]
      rfl

namespace Writer
variable {w : Writer} {q : String → List Char}

/-- What a writer shares with the others on safe values: safe integers by their digits, keys
in the order of their characters. Its strings are quoted in some way. -/
structure Writes (w : Writer) (q : String → List Char) : Prop where
  string : ∀ s, w.string s = encode (q s)
  int : ∀ value, -maxSafeInteger ≤ value → value ≤ maxSafeInteger →
    w.int value = .ok (integerText value)
  keyLe : ∀ a b, w.keyLe a b = decide (a ≤ b)

theorem brackets_encode (items : List (List Char)) :
    brackets (items.map encode) = encode ('[' :: ([','].intercalate items ++ [']'])) := by
  rw [brackets, ← encode_intercalate, encode_cons, encode_append, List.append_assoc]
  rfl

theorem braces_encode (members : List (List Char)) :
    braces (members.map encode) =
      encode ('\x7b' :: ([','].intercalate members ++ ['\x7d'])) := by
  rw [braces, ← encode_intercalate, encode_cons, encode_append, List.append_assoc]
  rfl

theorem member_encode (hw : w.Writes q) (key : String) (text : List Char) :
    w.string key ++ asBytes ":" ++ encode text = encode (q key ++ ':' :: text) := by
  rw [hw.string, encode_append, encode_cons, List.append_assoc]
  rfl

theorem mapM_members (hw : w.Writes q) (entries : List (String × List Char)) :
    ((entries.map fun entry => (entry.1, (Except.ok (encode entry.2) : Except String _))).mapM
      fun member => member.2.map fun text => w.string member.1 ++ asBytes ":" ++ text) =
      .ok ((entries.map fun entry => q entry.1 ++ ':' :: entry.2).map encode) := by
  induction entries with
  | nil => rfl
  | cons entry rest ih =>
    rw [List.map_cons, List.mapM_cons, ih, List.map_cons, List.map_cons,
      ← member_encode hw entry.1 entry.2]
    rfl

mutual

theorem write_eq (hw : w.Writes q) (value : Value) (h : value.isSafe) :
    w.write value = .ok (encode (value.render q)) := by
  cases value with
  | null => rfl
  | bool value => cases value <;> rfl
  | int value =>
    have hsafe : -maxSafeInteger ≤ value ∧ value ≤ maxSafeInteger := by
      simpa [Value.isSafe] using h
    rw [write, hw.int value hsafe.1 hsafe.2, integerText, asBytes_eq]
    rfl
  | float text => cases h
  | string value => rw [write, hw.string, Value.render]
  | array values =>
    have hitems := writeItems_eq hw values h
    rw [write, hitems, Value.render, ← brackets_encode]
    rfl
  | object fields =>
    have hsafe : Value.isSafeFields fields := by
      rw [Value.isSafe, decide_eq_true_eq] at h
      exact h.2
    have hfields := writeFields_eq hw fields hsafe
    have hsort : ((Value.renderFields q fields).map fun entry =>
          (entry.1, (Except.ok (encode entry.2) : Except String _))).mergeSort
            (fun a b => w.keyLe a.1 b.1) =
        ((Value.renderFields q fields).mergeSort fun a b => a.1 ≤ b.1).map fun entry =>
          (entry.1, Except.ok (encode entry.2)) := by
      symm
      apply List.map_mergeSort
      intro a _ b _
      exact (hw.keyLe a.1 b.1).symm
    rw [write, hfields, hsort, mapM_members hw, Value.render, ← braces_encode]
    rfl

theorem writeItems_eq (hw : w.Writes q) (values : List Value) (h : Value.isSafeItems values) :
    w.writeItems values = .ok ((Value.renderItems q values).map encode) := by
  cases values with
  | nil => rfl
  | cons value rest =>
    rw [Value.isSafeItems, Bool.and_eq_true] at h
    rw [writeItems, write_eq hw value h.1, writeItems_eq hw rest h.2]
    rfl

theorem writeFields_eq (hw : w.Writes q) (fields : List (String × Value))
    (h : Value.isSafeFields fields) :
    w.writeFields fields = (Value.renderFields q fields).map fun entry =>
      (entry.1, Except.ok (encode entry.2)) := by
  cases fields with
  | nil => rfl
  | cons field rest =>
    obtain ⟨key, value⟩ := field
    rw [Value.isSafeFields, Bool.and_eq_true] at h
    rw [writeFields, write_eq hw value h.1, writeFields_eq hw rest h.2]
    rfl

end

end Writer

theorem canonicalJsonBytes_eq (value : Value) :
    canonicalJsonBytes value = encode (value.render fun s => (Value.quote s).toList) := by
  rw [canonicalJsonBytes, asBytes_eq, Value.canonical_toList]

/-- Bytes are compared as the characters they encode. -/
theorem bytesLe_eq (a b : String) : bytesLe a b = decide (a ≤ b) := by
  have hlt : asBytes b < asBytes a ↔ b < a := by
    rw [asBytes_eq, asBytes_eq]
    exact Utf8.encode_lt_iff _ _
  rw [bytesLe, ← decide_not, decide_eq_decide, hlt]
  exact Iff.rfl

theorem go_writes : go.Writes goQuote where
  string := writeString_goQuote
  int value hlow hhigh := by
    have hrange : -2 ^ 63 ≤ value ∧ value < 2 ^ 63 := by
      unfold maxSafeInteger at hlow hhigh
      omega
    exact if_pos hrange
  keyLe := bytesLe_eq

theorem javascript_writes (safeInteger : SafeInteger) :
    (javascript safeInteger).Writes fun s => (Value.quote s).toList where
  string s := asBytes_eq (Value.quote s)
  int _ hlow hhigh := if_pos ⟨hlow, hhigh⟩
  keyLe := bytesLe_eq

theorem python_writes : python.Writes fun s => (Value.quote s).toList where
  string s := asBytes_eq (Value.quote s)
  int _ _ _ := rfl
  keyLe _ _ := rfl

/-- JavaScript and Python write what Rust writes. -/
theorem write_quote {w : Writer} (hw : w.Writes fun s => (Value.quote s).toList) {value : Value}
    (h : value.isSafe) : w.write value = .ok (canonicalJsonBytes value) := by
  rw [Writer.write_eq hw value h, canonicalJsonBytes_eq]

theorem lengths_cons (q : String → List Char) (s : String) (rest : List String) :
    Value.lengths q (s :: rest) = (q s).length + Value.lengths q rest := by
  simp [Value.lengths]

theorem lengths_le {p q : String → List Char} (hle : ∀ s, (p s).length ≤ (q s).length)
    (strings : List String) : Value.lengths p strings ≤ Value.lengths q strings := by
  induction strings with
  | nil => exact le_refl _
  | cons s rest ih =>
    rw [lengths_cons, lengths_cons]
    exact Nat.add_le_add (hle s) ih

/-- A sum of lengths reaches its bound only where every length does. -/
theorem lengths_eq {p q : String → List Char} {strings : List String}
    (hle : ∀ s, (p s).length ≤ (q s).length)
    (heq : Value.lengths p strings = Value.lengths q strings) :
    ∀ s ∈ strings, (p s).length = (q s).length := by
  induction strings with
  | nil => simp
  | cons s rest ih =>
    have hrest := lengths_le hle rest
    have hfirst := hle s
    rw [lengths_cons, lengths_cons] at heq
    intro t ht
    rcases List.mem_cons.mp ht with rfl | ht
    · omega
    · exact ih (by omega) t ht

/-- Go writes what Rust writes where no string holds the text of an escape. -/
theorem write_go_iff {value : Value} (h : value.isSafe) :
    go.write value = .ok (canonicalJsonBytes value) ↔
      ∀ s ∈ value.texts, NoEscapeText s.toList := by
  rw [Writer.write_eq go_writes value h, canonicalJsonBytes_eq]
  constructor
  · intro heq
    have hrender := encode_injective (Except.ok.inj heq)
    have hlength := congrArg List.length hrender
    rw [Value.length_render goQuote, Value.length_render fun s => (Value.quote s).toList]
      at hlength
    have hstrings := lengths_eq goQuote_length (Nat.add_left_cancel hlength)
    exact fun s hs => (goQuote_length_eq s).mp (hstrings s hs)
  · intro hclean
    rw [Value.render_congr value fun s hs => goQuote_eq (hclean s hs)]

/-- The four libraries write the same bytes for a safe value exactly where none of its strings
holds the text of an escape that Go takes back. -/
theorem canonicalizers_agree_iff (safeInteger : SafeInteger) (value : Value)
    (h : value.isSafe) :
    (go.write value = .ok (canonicalJsonBytes value) ∧
      (javascript safeInteger).write value = .ok (canonicalJsonBytes value) ∧
      python.write value = .ok (canonicalJsonBytes value)) ↔
    ∀ s ∈ value.texts, NoEscapeText s.toList := by
  rw [← write_go_iff h]
  constructor
  · exact fun hagree => hagree.1
  · intro hgo
    have hjavascript := write_quote (javascript_writes safeInteger) h
    have hpython := write_quote python_writes h
    exact ⟨hgo, hjavascript, hpython⟩

/-- A lockfile entry with keys out of order. -/
def plainValue : Value :=
  .object [("version", .string "<1.0 & \u2028"), ("major", .int (-1)), ("dev", .bool true)]

theorem canonicalizers_agree_plain :
    plainValue.isSafe ∧ go.write plainValue = .ok (canonicalJsonBytes plainValue) := by
  have hsafe : plainValue.isSafe := by decide
  have hclean : ∀ s ∈ plainValue.texts, NoEscapeText s.toList := by decide
  exact ⟨hsafe, ((canonicalizers_agree_iff (fun _ => none) plainValue hsafe).mpr hclean).1⟩

/-- The text of an escape in a string: Go takes half of it for an escape of its own. -/
theorem canonicalizers_differ :
    (Value.string "\\u003c").isSafe ∧
    go.write (.string "\\u003c") = .ok (asBytes "\"\\<\"") ∧
    canonicalJsonBytes (.string "\\u003c") = asBytes "\"\\\\u003c\"" ∧
    asBytes "\"\\<\"" ≠ asBytes "\"\\\\u003c\"" := by
  decide

end Oath.Contracts
