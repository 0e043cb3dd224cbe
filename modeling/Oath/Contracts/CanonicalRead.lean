import Oath.Contracts.CompactRead

/-! Canonical text is the compact text of the value with its fields in order, and is read back as
that value. -/

namespace Oath.Contracts.Value
open Registry Replace

/-! ## Values in order -/

theorem numbersAreFields_iff {onInt : ℤ → Bool} {onFloat : String → Bool}
    {fields : List (String × Value)} : numbersAreFields onInt onFloat fields ↔
      ∀ field ∈ fields, numbersAre onInt onFloat field.2 := by
  induction fields with
  | nil => simp [numbersAreFields]
  | cons field rest ih =>
    rw [numbersAreFields, Bool.and_eq_true, ih, List.forall_mem_cons]

theorem depthFields_le {fields : List (String × Value)} {n : ℕ} :
    depthFields fields ≤ n ↔ ∀ field ∈ fields, depth field.2 ≤ n := by
  induction fields with
  | nil => simp [depthFields]
  | cons field rest ih =>
    rw [depthFields, max_le_iff, ih, List.forall_mem_cons]

mutual

theorem isMachineIntegral_ordered (value : Value) (hkeys : value.distinctKeys)
    (h : value.isMachineIntegral) : value.ordered.isMachineIntegral := by
  cases value with
  | null => rfl
  | bool value => rfl
  | int value => exact h
  | float text => exact h
  | string value => rfl
  | array values => exact isMachineIntegral_orderedItems values hkeys h
  | object fields =>
    obtain ⟨hnodup, hfields⟩ := distinctKeys_object.mp hkeys
    obtain ⟨sorted, hsorted, hperm⟩ := ordered_object hnodup
    have hall := numbersAreFields_iff.mp (isMachineIntegral_orderedFields fields hfields h)
    rw [hsorted]
    exact numbersAreFields_iff.mpr fun field hfield => hall field (hperm.subset hfield)

theorem isMachineIntegral_orderedItems (values : List Value) (hkeys : distinctKeysItems values)
    (h : isMachineIntegral (array values)) : isMachineIntegral (array (orderedItems values)) := by
  cases values with
  | nil => rfl
  | cons value values =>
    rw [distinctKeysItems, Bool.and_eq_true] at hkeys
    obtain ⟨hvalue, hvalues⟩ := isMachineIntegral_cons.mp h
    exact isMachineIntegral_cons.mpr ⟨isMachineIntegral_ordered value hkeys.1 hvalue,
      isMachineIntegral_orderedItems values hkeys.2 hvalues⟩

theorem isMachineIntegral_orderedFields (fields : List (String × Value))
    (hkeys : distinctKeysFields fields) (h : isMachineIntegral (object fields)) :
    isMachineIntegral (object (orderedFields fields)) := by
  cases fields with
  | nil => rfl
  | cons field fields =>
    obtain ⟨key, value⟩ := field
    rw [distinctKeysFields, Bool.and_eq_true] at hkeys
    obtain ⟨hvalue, hfields⟩ := isMachineIntegralFields_cons.mp h
    exact isMachineIntegralFields_cons.mpr ⟨isMachineIntegral_ordered value hkeys.1 hvalue,
      isMachineIntegral_orderedFields fields hkeys.2 hfields⟩

end

mutual

/-- Putting fields in order opens nothing deeper. -/
theorem depth_ordered (value : Value) (hkeys : value.distinctKeys) :
    value.ordered.depth = value.depth := by
  cases value with
  | null => rfl
  | bool value => rfl
  | int value => rfl
  | float text => rfl
  | string value => rfl
  | array values => rw [ordered, depth, depth, depthItems_ordered values hkeys]
  | object fields =>
    obtain ⟨hnodup, hfields⟩ := distinctKeys_object.mp hkeys
    obtain ⟨sorted, hsorted, hperm⟩ := ordered_object hnodup
    have hsame : depthFields sorted = depthFields (orderedFields fields) := by
      refine eq_of_forall_ge_iff fun n => ?_
      rw [depthFields_le, depthFields_le]
      exact ⟨fun hall field hfield => hall field (hperm.symm.subset hfield),
        fun hall field hfield => hall field (hperm.subset hfield)⟩
    rw [hsorted, depth, depth, hsame, depthFields_ordered fields hfields]

theorem depthItems_ordered (values : List Value) (hkeys : distinctKeysItems values) :
    depthItems (orderedItems values) = depthItems values := by
  cases values with
  | nil => rfl
  | cons value values =>
    rw [distinctKeysItems, Bool.and_eq_true] at hkeys
    rw [orderedItems, depthItems, depthItems, depth_ordered value hkeys.1,
      depthItems_ordered values hkeys.2]

theorem depthFields_ordered (fields : List (String × Value)) (hkeys : distinctKeysFields fields) :
    depthFields (orderedFields fields) = depthFields fields := by
  cases fields with
  | nil => rfl
  | cons field fields =>
    obtain ⟨key, value⟩ := field
    rw [distinctKeysFields, Bool.and_eq_true] at hkeys
    rw [orderedFields, depthFields, depthFields, depth_ordered value hkeys.1,
      depthFields_ordered fields hkeys.2]

end

theorem isIntegral_of_isMachineIntegral {value : Value} (h : value.isMachineIntegral) :
    value.isIntegral :=
  numbersAre_imp (fun _ _ _ => rfl) (fun _ hfloat _ => hfloat) value h h

mutual

/-- What is in order stays as it is. -/
theorem ordered_of_isOrdered (value : Value) (h : value.isOrdered) : value.ordered = value := by
  cases value with
  | array values => rw [ordered, orderedItems_of_isOrdered values h]
  | object fields =>
    obtain ⟨hkeys, hfields⟩ := isOrdered_object.mp h
    rw [ordered, orderedFields_of_isOrdered fields hfields]
    obtain ⟨sorted, hsorted, hperm, hpairs⟩ := json_perm (hkeys.imp fun hlt => ne_of_lt hlt)
    rw [hsorted, eq_of_perm_of_pairwise hperm hpairs (List.pairwise_map.mp hkeys)]
  | _ => rfl

theorem orderedItems_of_isOrdered (values : List Value) (h : isOrderedItems values) :
    orderedItems values = values := by
  cases values with
  | nil => rfl
  | cons value rest =>
    rw [isOrderedItems, Bool.and_eq_true] at h
    rw [orderedItems, ordered_of_isOrdered value h.1, orderedItems_of_isOrdered rest h.2]

theorem orderedFields_of_isOrdered (fields : List (String × Value)) (h : isOrderedFields fields) :
    orderedFields fields = fields := by
  cases fields with
  | nil => rfl
  | cons field rest =>
    obtain ⟨key, value⟩ := field
    rw [isOrderedFields, Bool.and_eq_true] at h
    rw [orderedFields, ordered_of_isOrdered value h.1, orderedFields_of_isOrdered rest h.2]

end

/-! ## Their text -/

mutual

theorem text_eq_compact (value : Value) (h : value.isOrdered) : text value = compact value := by
  cases value with
  | null => rfl
  | bool value => rfl
  | int value => rfl
  | float text => rfl
  | string value => rfl
  | array values =>
    cases values with
    | nil => rfl
    | cons value values =>
      obtain ⟨hvalue, hvalues⟩ := isOrdered_cons.mp h
      have htext := text_array_cons value values []
      have hcompact := compact_array_cons value values []
      rw [List.append_nil] at htext hcompact
      rw [htext, hcompact, text_eq_compact value hvalue, itemsAfter_eq_compact values hvalues,
        List.append_nil]
  | object fields =>
    cases fields with
    | nil =>
      have htext := text_object_nil []
      rw [List.append_nil] at htext
      exact htext
    | cons field fields =>
      obtain ⟨key, value⟩ := field
      obtain ⟨hvalue, hfields⟩ := isOrderedFields_cons h
      have htext := text_object_cons h []
      have hcompact := compact_object_cons (key, value) fields []
      rw [List.append_nil] at htext hcompact
      rw [htext, hcompact, text_eq_compact value hvalue, fieldsAfter_eq_compact fields hfields,
        List.append_nil]

theorem itemsAfter_eq_compact (values : List Value) (h : isOrdered (array values)) :
    itemsAfter values [] = compactItems false values := by
  cases values with
  | nil => rfl
  | cons value values =>
    obtain ⟨hvalue, hvalues⟩ := isOrdered_cons.mp h
    rw [itemsAfter, compactItems, text_eq_compact value hvalue,
      itemsAfter_eq_compact values hvalues]
    rfl

theorem fieldsAfter_eq_compact (fields : List (String × Value)) (h : isOrdered (object fields)) :
    fieldsAfter fields [] = compactFields false fields := by
  cases fields with
  | nil => rfl
  | cons field fields =>
    obtain ⟨key, value⟩ := field
    obtain ⟨hvalue, hfields⟩ := isOrderedFields_cons h
    rw [fieldsAfter, compactFields, text_eq_compact value hvalue,
      fieldsAfter_eq_compact fields hfields]
    rfl

end

/-- What the canonical bytes of a value are read as: the value with its fields in order, unless
it is opened deeper than the reader goes. -/
theorem fromSlice_canonicalJsonBytes {value : Value} (readFloat : List Char → Option String)
    (hkeys : value.distinctKeys) (hmachine : value.isMachineIntegral) (limit : ℕ) :
    fromSlice readFloat limit (canonicalJsonBytes value) =
      within value.depth limit value.ordered := by
  have hordered : value.ordered.isOrdered :=
    (isCanonical_ordered value (isIntegral_of_isMachineIntegral hmachine)).2
  have hbytes : canonicalJsonBytes value = encode (compact value.ordered) := by
    rw [← canonicalJsonBytes_ordered hkeys, canonicalJsonBytes_eq,
      ← text_eq_compact value.ordered hordered]
    rfl
  rw [hbytes, fromSlice_compact readFloat (isMachineIntegral_ordered value hkeys hmachine),
    depth_ordered value hkeys, ordered_of_isOrdered value.ordered hordered]

end Oath.Contracts.Value
