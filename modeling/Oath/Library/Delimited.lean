import Mathlib.Data.List.Infix

/-! Fields and records in one text: a mark stands between the fields, another one behind each
record. What holds neither mark is read back. -/

namespace Delimited

variable {α : Type*} {sep eol : α}

/-- What stands before a mark ends at the first one. -/
theorem append_cons_inj {a b x y : List α} (ha : sep ∉ a) (hb : sep ∉ b)
    (h : a ++ sep :: x = b ++ sep :: y) : a = b ∧ x = y := by
  induction a generalizing b with
  | nil =>
    cases b with
    | nil => exact ⟨rfl, List.tail_eq_of_cons_eq h⟩
    | cons c b => exact absurd (List.head_eq_of_cons_eq h ▸ List.mem_cons_self) hb
  | cons c a ih =>
    rw [List.mem_cons, not_or] at ha
    cases b with
    | nil => exact absurd (List.head_eq_of_cons_eq h).symm ha.1
    | cons d b =>
      rw [List.mem_cons, not_or] at hb
      obtain ⟨hrest, htail⟩ := ih ha.2 hb.2 (List.tail_eq_of_cons_eq h)
      rw [List.head_eq_of_cons_eq h, hrest]
      exact ⟨rfl, htail⟩

/-- Lines are read back. -/
theorem lines_inj {lines lines' : List (List α)} (hlines : ∀ line ∈ lines, eol ∉ line)
    (hlines' : ∀ line ∈ lines', eol ∉ line)
    (h : lines.flatMap (· ++ [eol]) = lines'.flatMap (· ++ [eol])) : lines = lines' := by
  induction lines generalizing lines' with
  | nil =>
    cases lines' with
    | nil => rfl
    | cons line rest => simp at h
  | cons line rest ih =>
    cases lines' with
    | nil => simp at h
    | cons line' rest' =>
      rw [List.forall_mem_cons] at hlines hlines'
      have hsplit : line ++ eol :: rest.flatMap (· ++ [eol]) =
          line' ++ eol :: rest'.flatMap (· ++ [eol]) := by
        simpa only [List.flatMap_cons, List.append_assoc, List.singleton_append] using h
      obtain ⟨rfl, hrest⟩ := append_cons_inj hlines.1 hlines'.1 hsplit
      rw [ih hlines.2 hlines'.2 hrest]

/-- Fields with a mark between each two of them, and the mark of the end. -/
def record (sep eol : α) (fields : List (List α)) : List α := [sep].intercalate fields ++ [eol]

/-- A record that has a field, without a mark in any. -/
structure PlainRecord (sep eol : α) (fields : List (List α)) : Prop where
  ne_nil : fields ≠ []
  sep_notMem (field : List α) : field ∈ fields → sep ∉ field
  eol_notMem (field : List α) : field ∈ fields → eol ∉ field

theorem mem_intercalate {fields : List (List α)} {a : α} (h : a ∈ [sep].intercalate fields) :
    a = sep ∨ ∃ field ∈ fields, a ∈ field := by
  induction fields with
  | nil => simp at h
  | cons field rest ih =>
    cases rest with
    | nil =>
      rw [List.intercalate_singleton] at h
      exact Or.inr ⟨field, List.mem_cons_self, h⟩
    | cons next rest =>
      rw [List.intercalate_cons_cons, List.mem_append, List.mem_append] at h
      rcases h with (hfield | hsep) | hrest
      · exact Or.inr ⟨field, List.mem_cons_self, hfield⟩
      · exact Or.inl (List.mem_singleton.mp hsep)
      · rcases ih hrest with hsep | ⟨other, hother, hmem⟩
        · exact Or.inl hsep
        · exact Or.inr ⟨other, List.mem_cons_of_mem _ hother, hmem⟩

theorem eol_notMem_lines {records : List (List (List α))} (hmarks : eol ≠ sep)
    (hplain : ∀ fields ∈ records, PlainRecord sep eol fields) :
    ∀ line ∈ records.map [sep].intercalate, eol ∉ line := by
  intro line hline hmem
  obtain ⟨fields, hfields, rfl⟩ := List.mem_map.mp hline
  rcases mem_intercalate hmem with heq | ⟨field, hfield, hin⟩
  · exact hmarks heq
  · exact (hplain fields hfields).eol_notMem field hfield hin

variable [DecidableEq α]

/-- The fields of a record, read back. -/
theorem fields_of_lines {records : List (List (List α))}
    (hplain : ∀ fields ∈ records, PlainRecord sep eol fields) :
    (records.map [sep].intercalate).map (List.splitOn sep) = records := by
  rw [List.map_map]
  refine (List.map_congr_left fun fields hfields => ?_).trans (List.map_id _)
  have hfield := hplain fields hfields
  exact List.splitOn_intercalate sep hfield.sep_notMem hfield.ne_nil

/-- Records are read back. -/
theorem records_inj {records records' : List (List (List α))} (hmarks : eol ≠ sep)
    (hplain : ∀ fields ∈ records, PlainRecord sep eol fields)
    (hplain' : ∀ fields ∈ records', PlainRecord sep eol fields)
    (h : records.flatMap (record sep eol) = records'.flatMap (record sep eol)) :
    records = records' := by
  have htext (records : List (List (List α))) : records.flatMap (record sep eol) =
      (records.map [sep].intercalate).flatMap (· ++ [eol]) := by
    rw [List.flatMap_map]
    rfl
  rw [htext, htext] at h
  have hlines : records.map [sep].intercalate = records'.map [sep].intercalate :=
    lines_inj (eol_notMem_lines hmarks hplain) (eol_notMem_lines hmarks hplain') h
  rw [← fields_of_lines hplain, hlines, fields_of_lines hplain']

end Delimited
