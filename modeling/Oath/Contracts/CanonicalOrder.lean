import Mathlib.Data.List.Nodup
import Oath.Contracts.CanonicalUnique

/-! The order of the fields of an object does not show in the canonical text: values have the
same text exactly when they are equal up to that order. -/

namespace Oath.Contracts.Value
open Registry Replace

mutual

/-- No object has two fields of one key. -/
def distinctKeys : Value → Bool
  | array values => distinctKeysItems values
  | object fields => (fields.map Prod.fst).Nodup ∧ distinctKeysFields fields
  | _ => true

def distinctKeysItems : List Value → Bool
  | [] => true
  | value :: rest => distinctKeys value && distinctKeysItems rest

def distinctKeysFields : List (String × Value) → Bool
  | [] => true
  | (_, value) :: rest => distinctKeys value && distinctKeysFields rest

end

mutual

/-- The value as a map of fields holds it: the fields of every object in the order of their
keys. -/
def ordered : Value → Value
  | array values => array (orderedItems values)
  | object fields => json (orderedFields fields)
  | null => null
  | bool value => bool value
  | int value => int value
  | float text => float text
  | string value => string value

def orderedItems : List Value → List Value
  | [] => []
  | value :: rest => ordered value :: orderedItems rest

def orderedFields : List (String × Value) → List (String × Value)
  | [] => []
  | (key, value) :: rest => (key, ordered value) :: orderedFields rest

end

mutual

/-- Equality of JSON values: of arrays item by item, of objects field by field in any order. -/
def Same : Value → Value → Prop
  | array values, other => ∃ values', other = array values' ∧ SameItems values values'
  | object fields, other => ∃ fields', other = object fields' ∧
      fields.length = fields'.length ∧ SameFields fields fields'
  | null, other => other = null
  | bool value, other => other = bool value
  | int value, other => other = int value
  | float text, other => other = float text
  | string value, other => other = string value

def SameItems : List Value → List Value → Prop
  | [], others => others = []
  | value :: rest, others => ∃ other more, others = other :: more ∧ Same value other ∧
      SameItems rest more

/-- Every field has one of its key with the same value. -/
def SameFields : List (String × Value) → List (String × Value) → Prop
  | [], _ => True
  | (key, value) :: rest, others => (∃ other, (key, other) ∈ others ∧ Same value other) ∧
      SameFields rest others

end

/-! ## Objects -/

theorem orderedItems_eq (values : List Value) : orderedItems values = values.map ordered := by
  induction values with
  | nil => rfl
  | cons value rest ih => rw [orderedItems, ih, List.map_cons]

theorem orderedFields_eq (fields : List (String × Value)) :
    orderedFields fields = fields.map fun field => (field.1, ordered field.2) := by
  induction fields with
  | nil => rfl
  | cons field rest ih => rw [orderedFields, ih, List.map_cons]

theorem keys_orderedFields (fields : List (String × Value)) :
    (orderedFields fields).map Prod.fst = fields.map Prod.fst := by
  rw [orderedFields_eq, List.map_map]
  rfl

theorem insertField_perm {key : String} {value : Value} {fields : List (String × Value)}
    (h : key ∉ fields.map Prod.fst) : (insertField key value fields).Perm ((key, value) :: fields) := by
  induction fields with
  | nil => exact List.Perm.refl _
  | cons field rest ih =>
    obtain ⟨first, other⟩ := field
    rw [List.map_cons, List.mem_cons, not_or] at h
    rw [insertField, if_neg h.1]
    split_ifs
    · exact List.Perm.refl _
    · exact ((ih h.2).cons (first, other)).trans (List.Perm.swap _ _ _)

theorem pairwise_insertField {key : String} {value : Value} {fields : List (String × Value)}
    (h : fields.Pairwise fun a b => a.1 < b.1) :
    (insertField key value fields).Pairwise fun a b => a.1 < b.1 := by
  induction fields with
  | nil => exact List.pairwise_singleton _ _
  | cons field rest ih =>
    obtain ⟨first, other⟩ := field
    obtain ⟨hfirst, hrest⟩ := List.pairwise_cons.mp h
    rw [insertField]
    split_ifs with hsame hless
    · rw [hsame]
      exact List.pairwise_cons.mpr ⟨hfirst, hrest⟩
    · refine List.pairwise_cons.mpr ⟨List.forall_mem_cons.mpr ⟨hless, ?_⟩, h⟩
      exact fun later hlater => String.lt_trans hless (hfirst later hlater)
    · refine List.pairwise_cons.mpr ⟨fun later hlater => ?_, ih hrest⟩
      rcases keys_insertField key value rest later.1 (List.mem_map_of_mem hlater) with hkey | hold
      · rw [hkey]
        exact lt_of_le_of_ne (not_lt.mp hless) (Ne.symm hsame)
      · obtain ⟨row, hrow, hkey⟩ := List.mem_map.mp hold
        rw [← hkey]
        exact hfirst row hrow

/-- `json` puts fields of distinct keys in order. -/
theorem json_perm {fields : List (String × Value)} (h : (fields.map Prod.fst).Nodup) :
    ∃ sorted, json fields = object sorted ∧ sorted.Perm fields ∧
      sorted.Pairwise fun a b => a.1 < b.1 := by
  have hfold : ∀ acc : List (String × Value), ((acc ++ fields).map Prod.fst).Nodup →
      (acc.Pairwise fun a b => a.1 < b.1) →
      (fields.foldl (fun acc field => insertField field.1 field.2 acc) acc).Perm
        (acc ++ fields) ∧
      (fields.foldl (fun acc field => insertField field.1 field.2 acc) acc).Pairwise
        fun a b => a.1 < b.1 := by
    clear h
    induction fields with
    | nil =>
      intro acc _ hsorted
      rw [List.append_nil]
      exact ⟨List.Perm.refl acc, hsorted⟩
    | cons field rest ih =>
      intro acc hacc hsorted
      obtain ⟨key, value⟩ := field
      have hkey : key ∉ acc.map Prod.fst := by
        rw [List.map_append, List.nodup_append] at hacc
        exact fun hmem => hacc.2.2 key hmem key List.mem_cons_self rfl
      have hperm : (insertField key value acc ++ rest).Perm (acc ++ (key, value) :: rest) :=
        ((insertField_perm hkey).append_right rest).trans List.perm_middle.symm
      obtain ⟨hall, hpairs⟩ := ih _ ((hperm.map Prod.fst).nodup_iff.mpr hacc)
        (pairwise_insertField hsorted)
      exact ⟨hall.trans hperm, hpairs⟩
  exact ⟨_, rfl, hfold [] h List.Pairwise.nil⟩

/-- Fields in order are known from the fields there are. -/
theorem eq_of_perm_of_pairwise {α : Type} {fields fields' : List (String × α)}
    (hperm : fields.Perm fields') (h : fields.Pairwise fun a b => a.1 < b.1)
    (h' : fields'.Pairwise fun a b => a.1 < b.1) : fields = fields' := by
  refine hperm.eq_of_pairwise (fun a b _ _ hab hba => ?_) h h'
  exact absurd hba (String.lt_asymm hab)

theorem pairwise_mergeSort {α : Type} {entries : List (String × α)}
    (h : (entries.map Prod.fst).Nodup) :
    (entries.mergeSort fun a b => a.1 ≤ b.1).Pairwise fun a b => a.1 < b.1 := by
  have hsorted : (entries.mergeSort fun a b => a.1 ≤ b.1).Pairwise
      fun a b => decide (a.1 ≤ b.1) = true := by
    refine List.pairwise_mergeSort ?_ ?_ entries
    · intro a b c hab hbc
      rw [decide_eq_true_eq] at hab hbc ⊢
      exact le_trans hab hbc
    · intro a b
      rw [Bool.or_eq_true, decide_eq_true_eq, decide_eq_true_eq]
      exact le_total a.1 b.1
  have hnodup : ((entries.mergeSort fun a b => a.1 ≤ b.1).map Prod.fst).Nodup :=
    ((List.mergeSort_perm entries _).map Prod.fst).nodup_iff.mpr h
  refine (hsorted.and (List.pairwise_map.mp hnodup)).imp ?_
  rintro a b ⟨hle, hne⟩
  exact lt_of_le_of_ne (of_decide_eq_true hle) hne

/-- Fields of distinct keys are sorted in one way. -/
theorem mergeSort_eq_of_perm {α : Type} {entries entries' : List (String × α)}
    (hperm : entries.Perm entries') (h : (entries.map Prod.fst).Nodup) :
    (entries.mergeSort fun a b => a.1 ≤ b.1) = entries'.mergeSort fun a b => a.1 ≤ b.1 := by
  have h' : (entries'.map Prod.fst).Nodup := (hperm.map Prod.fst).nodup_iff.mp h
  refine eq_of_perm_of_pairwise ?_ (pairwise_mergeSort h) (pairwise_mergeSort h')
  exact (List.mergeSort_perm entries _).trans (hperm.trans (List.mergeSort_perm entries' _).symm)

theorem ordered_object {fields : List (String × Value)} (h : (fields.map Prod.fst).Nodup) :
    ∃ sorted, ordered (object fields) = object sorted ∧ sorted.Perm (orderedFields fields) := by
  rw [← keys_orderedFields] at h
  obtain ⟨sorted, hsorted, hperm, -⟩ := json_perm h
  exact ⟨sorted, hsorted, hperm⟩

/-! ## The text of a value in order -/

theorem distinctKeys_object {fields : List (String × Value)} :
    distinctKeys (object fields) ↔ (fields.map Prod.fst).Nodup ∧ distinctKeysFields fields := by
  rw [distinctKeys, decide_eq_true_eq]

theorem renderFields_eq (q : String → List Char) (fields : List (String × Value)) :
    renderFields q fields = fields.map fun field => (field.1, render q field.2) := by
  induction fields with
  | nil => rfl
  | cons field rest ih => rw [renderFields, ih, List.map_cons]

mutual

theorem render_ordered (q : String → List Char) (value : Value) (h : value.distinctKeys) :
    render q (ordered value) = render q value := by
  cases value with
  | null => rfl
  | bool value => rfl
  | int value => rfl
  | float text => rfl
  | string value => rfl
  | array values =>
    rw [ordered, render, render, renderItems_ordered q values h]
  | object fields =>
    obtain ⟨hkeys, hfields⟩ := distinctKeys_object.mp h
    obtain ⟨sorted, hsorted, hperm⟩ := ordered_object hkeys
    have hentries : (renderFields q sorted).Perm (renderFields q fields) := by
      rw [← renderFields_ordered q fields hfields, renderFields_eq, renderFields_eq q (orderedFields _)]
      exact hperm.map _
    have hnodup : ((renderFields q sorted).map Prod.fst).Nodup := by
      rw [(hentries.map Prod.fst).nodup_iff, keys_of_renderFields]
      exact hkeys
    rw [hsorted, render, render, mergeSort_eq_of_perm hentries hnodup]

theorem renderItems_ordered (q : String → List Char) (values : List Value)
    (h : distinctKeysItems values) : renderItems q (orderedItems values) = renderItems q values := by
  cases values with
  | nil => rfl
  | cons value rest =>
    rw [distinctKeysItems, Bool.and_eq_true] at h
    rw [orderedItems, renderItems, renderItems, render_ordered q value h.1,
      renderItems_ordered q rest h.2]

theorem renderFields_ordered (q : String → List Char) (fields : List (String × Value))
    (h : distinctKeysFields fields) :
    renderFields q (orderedFields fields) = renderFields q fields := by
  cases fields with
  | nil => rfl
  | cons field rest =>
    obtain ⟨key, value⟩ := field
    rw [distinctKeysFields, Bool.and_eq_true] at h
    rw [orderedFields, renderFields, renderFields, render_ordered q value h.1,
      renderFields_ordered q rest h.2]

end

/-- The order of the fields does not show in the bytes. -/
theorem canonicalJsonBytes_ordered {value : Value} (h : value.distinctKeys) :
    canonicalJsonBytes value.ordered = canonicalJsonBytes value := by
  rw [canonicalJsonBytes_eq, canonicalJsonBytes_eq, render_ordered _ value h]

mutual

theorem isCanonical_ordered (value : Value) (h : value.isIntegral) : IsCanonical value.ordered := by
  cases value with
  | null => exact isCanonical_null
  | bool value => exact isCanonical_bool value
  | int value => exact isCanonical_int value
  | float text => cases h
  | string value => exact isCanonical_string value
  | array values => exact isCanonical_array (isCanonical_orderedItems values h)
  | object fields => exact isCanonical_json (isCanonical_orderedFields fields h)

theorem isCanonical_orderedItems (values : List Value) (h : isIntegral (array values)) :
    ∀ value ∈ orderedItems values, IsCanonical value := by
  cases values with
  | nil => exact fun value hvalue => absurd hvalue List.not_mem_nil
  | cons value rest =>
    obtain ⟨hvalue, hrest⟩ := isIntegral_cons.mp h
    exact List.forall_mem_cons.mpr ⟨isCanonical_ordered value hvalue,
      isCanonical_orderedItems rest hrest⟩

theorem isCanonical_orderedFields (fields : List (String × Value))
    (h : isIntegral (object fields)) : ∀ field ∈ orderedFields fields, IsCanonical field.2 := by
  cases fields with
  | nil => exact fun field hfield => absurd hfield List.not_mem_nil
  | cons field rest =>
    obtain ⟨key, value⟩ := field
    obtain ⟨hvalue, hrest⟩ := isIntegralFields_cons.mp h
    exact List.forall_mem_cons.mpr ⟨isCanonical_ordered value hvalue,
      isCanonical_orderedFields rest hrest⟩

end

/-! ## Equal up to the order of fields -/

theorem distinctKeys_of_mem {key : String} {value : Value} {fields : List (String × Value)}
    (h : distinctKeysFields fields) (hmem : (key, value) ∈ fields) : value.distinctKeys := by
  induction fields with
  | nil => exact absurd hmem List.not_mem_nil
  | cons field rest ih =>
    rw [distinctKeysFields, Bool.and_eq_true] at h
    rcases List.mem_cons.mp hmem with rfl | hrest
    · exact h.1
    · exact ih h.2 hrest

/-- Objects of distinct keys are in order the same when one has the fields of the other. -/
theorem json_eq_iff {fields fields' : List (String × Value)} (h : (fields.map Prod.fst).Nodup)
    (h' : (fields'.map Prod.fst).Nodup) : json fields = json fields' ↔ fields.Perm fields' := by
  obtain ⟨sorted, hsorted, hperm, hpairs⟩ := json_perm h
  obtain ⟨sorted', hsorted', hperm', hpairs'⟩ := json_perm h'
  constructor
  · intro heq
    rw [hsorted, hsorted', object.injEq] at heq
    rw [heq] at hperm
    exact hperm.symm.trans hperm'
  · intro hsame
    rw [hsorted, hsorted', object.injEq]
    exact eq_of_perm_of_pairwise (hperm.trans (hsame.trans hperm'.symm)) hpairs hpairs'

theorem keys_nodup_orderedFields {fields : List (String × Value)}
    (h : (fields.map Prod.fst).Nodup) : ((orderedFields fields).map Prod.fst).Nodup := by
  rwa [keys_orderedFields]

/-- A list without repetitions in one that is not longer has all of it. -/
theorem perm_of_subset {α : Type} {items others : List α} (h : items.Nodup)
    (hsub : items ⊆ others) (hlength : others.length ≤ items.length) : items.Perm others :=
  (List.subperm_of_subset h hsub).perm_of_length_le hlength

mutual

theorem same_iff (a b : Value) (ha : a.distinctKeys) (hb : b.distinctKeys) :
    Same a b ↔ ordered a = ordered b := by
  cases a with
  | null => cases b <;> simp [Same, ordered, json]
  | bool value => cases b <;> simp [Same, ordered, json, eq_comm]
  | int value => cases b <;> simp [Same, ordered, json, eq_comm]
  | float text => cases b <;> simp [Same, ordered, json, eq_comm]
  | string value => cases b <;> simp [Same, ordered, json, eq_comm]
  | array values =>
    cases b with
    | array others =>
      rw [Same, ordered, ordered, array.injEq, ← sameItems_iff values others ha hb]
      simp
    | _ => simp [Same, ordered, json]
  | object fields =>
    cases b with
    | object others =>
      obtain ⟨hkeys, hfields⟩ := distinctKeys_object.mp ha
      obtain ⟨hkeys', hfields'⟩ := distinctKeys_object.mp hb
      have hordered := keys_nodup_orderedFields hkeys
      have hordered' := keys_nodup_orderedFields hkeys'
      have hlengths : ∀ fields, (orderedFields fields).length = fields.length := by
        intro fields
        rw [orderedFields_eq, List.length_map]
      have hsame := sameFields_iff fields others hfields hfields'
      rw [ordered, ordered, json_eq_iff hordered hordered', Same]
      constructor
      · rintro ⟨_, heq, hlength, hall⟩
        obtain rfl := object.inj heq
        refine perm_of_subset (List.Nodup.of_map _ hordered) (hsame.mp hall) ?_
        rw [hlengths, hlengths, hlength]
      · intro hperm
        have hlength := hperm.length_eq
        rw [hlengths, hlengths] at hlength
        exact ⟨others, rfl, hlength, hsame.mpr hperm.subset⟩
    | _ => simp [Same, ordered, json]

theorem sameItems_iff (values others : List Value) (ha : distinctKeysItems values)
    (hb : distinctKeysItems others) :
    SameItems values others ↔ orderedItems values = orderedItems others := by
  cases values with
  | nil => cases others <;> simp [SameItems, orderedItems]
  | cons value rest =>
    cases others with
    | nil => simp [SameItems, orderedItems]
    | cons other more =>
      rw [distinctKeysItems, Bool.and_eq_true] at ha hb
      rw [SameItems, orderedItems, orderedItems, List.cons.injEq,
        ← same_iff value other ha.1 hb.1, ← sameItems_iff rest more ha.2 hb.2]
      simp

theorem sameFields_iff (fields others : List (String × Value)) (ha : distinctKeysFields fields)
    (hb : distinctKeysFields others) :
    SameFields fields others ↔ orderedFields fields ⊆ orderedFields others := by
  cases fields with
  | nil => simp [SameFields, orderedFields]
  | cons field rest =>
    obtain ⟨key, value⟩ := field
    rw [distinctKeysFields, Bool.and_eq_true] at ha
    rw [SameFields, orderedFields, List.cons_subset, ← sameFields_iff rest others ha.2 hb]
    apply and_congr_left
    intro _
    rw [orderedFields_eq, List.mem_map]
    constructor
    · rintro ⟨other, hmem, hsame⟩
      refine ⟨(key, other), hmem, ?_⟩
      rw [(same_iff value other ha.1 (distinctKeys_of_mem hb hmem)).mp hsame]
    · rintro ⟨⟨key', other⟩, hmem, heq⟩
      obtain ⟨rfl, hvalue⟩ := Prod.mk.inj heq
      refine ⟨other, hmem, ?_⟩
      exact (same_iff value other ha.1 (distinctKeys_of_mem hb hmem)).mpr hvalue.symm

end

mutual

theorem distinctKeys_of_isOrdered (value : Value) (h : value.isOrdered) : value.distinctKeys := by
  cases value with
  | array values => exact distinctKeysItems_of_isOrdered values h
  | object fields =>
    obtain ⟨hkeys, hfields⟩ := isOrdered_object.mp h
    exact distinctKeys_object.mpr
      ⟨hkeys.imp fun hlt => ne_of_lt hlt, distinctKeysFields_of_isOrdered fields hfields⟩
  | _ => rfl

theorem distinctKeysItems_of_isOrdered (values : List Value) (h : isOrderedItems values) :
    distinctKeysItems values := by
  cases values with
  | nil => rfl
  | cons value rest =>
    rw [isOrderedItems, Bool.and_eq_true] at h
    rw [distinctKeysItems, Bool.and_eq_true]
    exact ⟨distinctKeys_of_isOrdered value h.1, distinctKeysItems_of_isOrdered rest h.2⟩

theorem distinctKeysFields_of_isOrdered (fields : List (String × Value))
    (h : isOrderedFields fields) : distinctKeysFields fields := by
  cases fields with
  | nil => rfl
  | cons field rest =>
    obtain ⟨key, value⟩ := field
    rw [isOrderedFields, Bool.and_eq_true] at h
    rw [distinctKeysFields, Bool.and_eq_true]
    exact ⟨distinctKeys_of_isOrdered value h.1, distinctKeysFields_of_isOrdered rest h.2⟩

end

/-- Values have the same canonical text exactly when they are equal up to the order of the
fields of their objects. -/
theorem canonicalJsonBytes_eq_iff {a b : Value} (ha : a.distinctKeys) (hb : b.distinctKeys)
    (hai : a.isIntegral) (hbi : b.isIntegral) :
    canonicalJsonBytes a = canonicalJsonBytes b ↔ Same a b := by
  rw [same_iff a b ha hb]
  constructor
  · intro h
    rw [← canonicalJsonBytes_ordered ha, ← canonicalJsonBytes_ordered hb] at h
    exact canonicalJsonBytes_injective (isCanonical_ordered a hai) (isCanonical_ordered b hbi) h
  · intro h
    rw [← canonicalJsonBytes_ordered ha, h, canonicalJsonBytes_ordered hb]

end Oath.Contracts.Value
