import Mathlib.Data.List.Sort
import Mathlib.Data.String.Basic
import Oath.Library.Table

/-! Finite maps with their rows in the order of the keys, so that maps with the same
lookups are equal. -/

structure OrderedMap (Key Value : Type*) [LinearOrder Key] where
  rows : List (Key × Value)
  sorted : (rows.map Prod.fst).Pairwise (· < ·)

namespace OrderedMap
variable {Key Value : Type*} [LinearOrder Key]

instance [DecidableEq Value] : DecidableEq (OrderedMap Key Value) := fun a b =>
  decidable_of_iff (a.rows = b.rows) (by
    cases a
    cases b
    simp)

def empty : OrderedMap Key Value := ⟨[], List.Pairwise.nil⟩

def toTable (m : OrderedMap Key Value) : Table (Prod.fst : Key × Value → Key) where
  rows := m.rows
  nodup := m.sorted.imp fun h => ne_of_lt h

def find? (m : OrderedMap Key Value) (k : Key) : Option Value := (m.toTable.find? k).map Prod.snd

theorem find?_eq_some {m : OrderedMap Key Value} {k : Key} {v : Value} :
    m.find? k = some v ↔ (k, v) ∈ m.rows := by
  unfold find?
  rw [Option.map_eq_some_iff]
  constructor
  · rintro ⟨⟨k', v'⟩, hfind, rfl⟩
    obtain ⟨hmem, rfl⟩ := m.toTable.find?_eq_some.mp hfind
    exact hmem
  · intro hmem
    exact ⟨(k, v), m.toTable.find?_eq_some.mpr ⟨hmem, rfl⟩, rfl⟩

theorem find?_eq_none {m : OrderedMap Key Value} {k : Key} :
    m.find? k = none ↔ k ∉ m.rows.map Prod.fst := by
  unfold find?
  rw [Option.map_eq_none_iff, m.toTable.find?_eq_none]
  simp only [List.mem_map, not_exists, not_and]
  rfl

theorem ext {a b : OrderedMap Key Value} (h : ∀ k, a.find? k = b.find? k) : a = b := by
  have hmem : ∀ row, row ∈ a.rows ↔ row ∈ b.rows := by
    rintro ⟨k, v⟩
    rw [← find?_eq_some, ← find?_eq_some, h]
  have hnodup : ∀ m : OrderedMap Key Value, m.rows.Nodup := fun m => m.toTable.nodup.of_map
  have hperm : a.rows.Perm b.rows :=
    (List.perm_ext_iff_of_nodup (hnodup a) (hnodup b)).mpr hmem
  have hsorted : ∀ m : OrderedMap Key Value, m.rows.Pairwise fun r s => r.1 < s.1 :=
    fun m => List.pairwise_map.mp m.sorted
  obtain ⟨rows, sa⟩ := a
  obtain ⟨rows', sb⟩ := b
  have hrows : rows = rows' := by
    refine hperm.eq_of_pairwise (fun r s _ _ hrs hsr => ?_) (hsorted ⟨rows, sa⟩)
      (hsorted ⟨rows', sb⟩)
    exact absurd hrs (lt_asymm hsr)
  subst hrows
  rfl

/-! ## Insertion -/

def insertRow (k : Key) (v : Value) : List (Key × Value) → List (Key × Value)
  | [] => [(k, v)]
  | (k', v') :: rest =>
    if k = k' then (k, v) :: rest
    else if k < k' then (k, v) :: (k', v') :: rest
    else (k', v') :: insertRow k v rest

theorem mem_keys_insertRow (k : Key) (v : Value) (rows : List (Key × Value)) (x : Key) :
    x ∈ (insertRow k v rows).map Prod.fst ↔ x = k ∨ x ∈ rows.map Prod.fst := by
  induction rows with
  | nil => simp [insertRow]
  | cons row rest ih =>
    obtain ⟨k', v'⟩ := row
    rw [insertRow]
    split_ifs with heq hlt
    · subst heq
      simp
    · simp
    · rw [List.map_cons, List.mem_cons, ih, List.map_cons, List.mem_cons]
      tauto

theorem sorted_insertRow (k : Key) (v : Value) {rows : List (Key × Value)}
    (h : (rows.map Prod.fst).Pairwise (· < ·)) :
    ((insertRow k v rows).map Prod.fst).Pairwise (· < ·) := by
  induction rows with
  | nil => simp [insertRow]
  | cons row rest ih =>
    obtain ⟨k', v'⟩ := row
    obtain ⟨hfirst, hrest⟩ := List.pairwise_cons.mp h
    rw [insertRow]
    split_ifs with heq hlt
    · subst heq
      exact h
    · refine List.pairwise_cons.mpr ⟨fun x hx => ?_, h⟩
      rcases List.mem_cons.mp hx with rfl | hx
      · exact hlt
      · exact hlt.trans (hfirst x hx)
    · refine List.pairwise_cons.mpr ⟨fun x hx => ?_, ih hrest⟩
      rcases (mem_keys_insertRow k v rest x).mp hx with rfl | hx
      · exact lt_of_le_of_ne (not_lt.mp hlt) (Ne.symm heq)
      · exact hfirst x hx

def insert (m : OrderedMap Key Value) (k : Key) (v : Value) : OrderedMap Key Value where
  rows := insertRow k v m.rows
  sorted := sorted_insertRow k v m.sorted

theorem mem_insertRow {k : Key} {v : Value} {rows : List (Key × Value)}
    (h : (rows.map Prod.fst).Pairwise (· < ·)) (row : Key × Value) :
    row ∈ insertRow k v rows ↔ row = (k, v) ∨ row.1 ≠ k ∧ row ∈ rows := by
  induction rows with
  | nil => simp [insertRow]
  | cons first rest ih =>
    obtain ⟨k', v'⟩ := first
    obtain ⟨hfirst, hrest⟩ := List.pairwise_cons.mp h
    have hlater : ∀ row ∈ rest, k' < row.1 := fun row hrow =>
      hfirst row.1 (List.mem_map_of_mem hrow)
    rw [insertRow]
    split_ifs with heq hlt
    · subst heq
      rw [List.mem_cons, List.mem_cons]
      constructor
      · rintro (rfl | hrow)
        · exact Or.inl rfl
        · exact Or.inr ⟨(hlater row hrow).ne', Or.inr hrow⟩
      · rintro (rfl | ⟨hne, rfl | hrow⟩)
        · exact Or.inl rfl
        · exact absurd rfl hne
        · exact Or.inr hrow
    · rw [List.mem_cons, List.mem_cons]
      constructor
      · rintro (rfl | rfl | hrow)
        · exact Or.inl rfl
        · exact Or.inr ⟨hlt.ne', Or.inl rfl⟩
        · exact Or.inr ⟨(hlt.trans (hlater row hrow)).ne', Or.inr hrow⟩
      · rintro (rfl | ⟨-, hrow⟩)
        · exact Or.inl rfl
        · exact Or.inr hrow
    · rw [List.mem_cons, ih hrest, List.mem_cons]
      constructor
      · rintro (rfl | rfl | ⟨hne, hrow⟩)
        · exact Or.inr ⟨Ne.symm heq, Or.inl rfl⟩
        · exact Or.inl rfl
        · exact Or.inr ⟨hne, Or.inr hrow⟩
      · rintro (rfl | ⟨hne, rfl | hrow⟩)
        · exact Or.inr (Or.inl rfl)
        · exact Or.inl rfl
        · exact Or.inr (Or.inr ⟨hne, hrow⟩)

theorem find?_insert (m : OrderedMap Key Value) (k : Key) (v : Value) (x : Key) :
    (m.insert k v).find? x = if x = k then some v else m.find? x := by
  have hmem := mem_insertRow (k := k) (v := v) m.sorted
  split_ifs with hx
  · subst hx
    exact find?_eq_some.mpr ((hmem _).mpr (Or.inl rfl))
  · apply Option.ext
    intro u
    rw [find?_eq_some, find?_eq_some]
    change (x, u) ∈ insertRow k v m.rows ↔ _
    rw [hmem]
    constructor
    · rintro (heq | ⟨-, hrow⟩)
      · exact absurd (Prod.mk.inj heq).1 hx
      · exact hrow
    · exact fun hrow => Or.inr ⟨hx, hrow⟩

@[simp] theorem find?_empty (k : Key) : (empty : OrderedMap Key Value).find? k = none := rfl

/-- Later rows of a key replace earlier ones. -/
def ofList (rows : List (Key × Value)) : OrderedMap Key Value :=
  rows.foldl (fun m row => m.insert row.1 row.2) empty

/-- The last of the new rows of a key counts. -/
theorem find?_foldl_insert (rows : List (Key × Value)) (m : OrderedMap Key Value) (k : Key) :
    (rows.foldl (fun m row => m.insert row.1 row.2) m).find? k =
      ((rows.reverse.find? fun row => row.1 = k).map Prod.snd).or (m.find? k) := by
  induction rows generalizing m with
  | nil => rfl
  | cons row rest ih =>
    rw [List.foldl_cons, ih, List.reverse_cons, List.find?_append, find?_insert]
    cases rest.reverse.find? fun row => row.1 = k with
    | some later => rfl
    | none =>
      by_cases hk : row.1 = k
      · simp [hk]
      · simp [hk, Ne.symm hk]

theorem find?_ofList (rows : List (Key × Value)) (k : Key) :
    (ofList rows).find? k = (rows.reverse.find? fun row => row.1 = k).map Prod.snd := by
  rw [ofList, find?_foldl_insert, find?_empty, Option.or_none]

theorem find?_ofList_append (rows more : List (Key × Value)) (k : Key) :
    (ofList (rows ++ more)).find? k = ((ofList more).find? k).or ((ofList rows).find? k) := by
  rw [find?_ofList, find?_ofList, find?_ofList, List.reverse_append, List.find?_append,
    Option.map_or]

theorem find?_ofList_eq_none {rows : List (Key × Value)} {k : Key}
    (h : ∀ row ∈ rows, row.1 ≠ k) : (ofList rows).find? k = none := by
  have hnone : (rows.reverse.find? fun row => row.1 = k) = none :=
    List.find?_eq_none.mpr fun row hrow => by simpa using h row (List.mem_reverse.mp hrow)
  rw [find?_ofList, hnone, Option.map_none]

theorem mem_of_find?_ofList {rows : List (Key × Value)} {k : Key} {v : Value}
    (h : (ofList rows).find? k = some v) : (k, v) ∈ rows := by
  rw [find?_ofList] at h
  obtain ⟨row, hrow, rfl⟩ := Option.map_eq_some_iff.mp h
  have hkey : row.1 = k := by simpa using List.find?_some hrow
  have hmem := List.mem_reverse.mp (List.mem_of_find?_eq_some hrow)
  rwa [← hkey]

/-- Of rows with one key the last is kept. -/
theorem find?_ofList_last {front back : List (Key × Value)} {k : Key} {v : Value}
    (h : ∀ row ∈ back, row.1 ≠ k) : (ofList (front ++ (k, v) :: back)).find? k = some v := by
  have hone : (ofList [(k, v)]).find? k = some v := by
    rw [find?_ofList]
    simp
  rw [find?_ofList_append, ← List.singleton_append, find?_ofList_append, find?_ofList_eq_none h,
    Option.none_or, hone, Option.some_or]

theorem ofList_rows (m : OrderedMap Key Value) : ofList m.rows = m := by
  apply ext
  intro k
  rw [find?_ofList]
  apply Option.ext
  intro v
  rw [Option.map_eq_some_iff, find?_eq_some]
  constructor
  · rintro ⟨row, hfind, rfl⟩
    have hk : row.1 = k := by simpa using List.find?_some hfind
    have hmem := List.mem_reverse.mp (List.mem_of_find?_eq_some hfind)
    exact hk ▸ hmem
  · intro hmem
    have hsome : (m.rows.reverse.find? fun row => row.1 = k).isSome :=
      List.find?_isSome.mpr ⟨(k, v), List.mem_reverse.mpr hmem, by simp⟩
    obtain ⟨row, hfind⟩ := Option.isSome_iff_exists.mp hsome
    have hk : row.1 = k := by simpa using List.find?_some hfind
    have hrow := List.mem_reverse.mp (List.mem_of_find?_eq_some hfind)
    have heq := m.toTable.key_inj hrow hmem hk
    exact ⟨row, hfind, by rw [heq]⟩

/-- The first row of a key stays. -/
def insertNew (m : OrderedMap Key Value) (k : Key) (v : Value) : OrderedMap Key Value :=
  if (m.find? k).isSome then m else m.insert k v

theorem find?_insertNew (m : OrderedMap Key Value) (k : Key) (v : Value) (x : Key) :
    (m.insertNew k v).find? x = (m.find? x).or (if x = k then some v else none) := by
  unfold insertNew
  split_ifs with hsome hx hx
  · subst hx
    obtain ⟨u, hu⟩ := Option.isSome_iff_exists.mp hsome
    simp [hu]
  · simp
  · subst hx
    simp only [Bool.not_eq_true, Option.isSome_eq_false_iff, Option.isNone_iff_eq_none] at hsome
    rw [find?_insert, if_pos rfl, hsome]
    rfl
  · rw [find?_insert, if_neg hx, Option.or_none]

/-! ## Rows that are kept, and their values -/

def retain (m : OrderedMap Key Value) (p : Key → Value → Bool) : OrderedMap Key Value where
  rows := m.rows.filter fun row => p row.1 row.2
  sorted := m.sorted.sublist (List.Sublist.map Prod.fst List.filter_sublist)

theorem find?_retain (m : OrderedMap Key Value) (p : Key → Value → Bool) (k : Key) :
    (m.retain p).find? k = (m.find? k).filter (p k) := by
  apply Option.ext
  intro v
  rw [find?_eq_some, Option.filter_eq_some_iff, find?_eq_some]
  exact List.mem_filter

def map {Value' : Type*} (m : OrderedMap Key Value) (f : Key → Value → Value') :
    OrderedMap Key Value' where
  rows := m.rows.map fun row => (row.1, f row.1 row.2)
  sorted := by
    rw [List.map_map]
    exact m.sorted

theorem find?_map {Value' : Type*} (m : OrderedMap Key Value) (f : Key → Value → Value') (k : Key) :
    (m.map f).find? k = (m.find? k).map (f k) := by
  apply Option.ext
  intro v
  rw [find?_eq_some, Option.map_eq_some_iff]
  constructor
  · intro hmem
    obtain ⟨⟨k', u⟩, hrow, heq⟩ := List.mem_map.mp hmem
    obtain ⟨rfl, rfl⟩ := Prod.mk.inj heq
    exact ⟨u, find?_eq_some.mpr hrow, rfl⟩
  · rintro ⟨u, hu, rfl⟩
    exact List.mem_map.mpr ⟨(k, u), find?_eq_some.mp hu, rfl⟩

def keys (m : OrderedMap Key Value) : List Key := m.rows.map Prod.fst

/-- Rows that are kept with other values are found by their keys. -/
theorem find?_ofList_filterMap {Value' : Type*} (m : OrderedMap Key Value)
    (f : Key → Value → Option Value') (k : Key) :
    (ofList (m.rows.filterMap fun row => (f row.1 row.2).map fun v => (row.1, v))).find? k =
      (m.find? k).bind (f k) := by
  have hrow (v : Value') (hmem : (k, v) ∈ m.rows.filterMap fun row =>
      (f row.1 row.2).map fun v => (row.1, v)) : (m.find? k).bind (f k) = some v := by
    obtain ⟨row, hrow, heq⟩ := List.mem_filterMap.mp hmem
    obtain ⟨u, hu, heq⟩ := Option.map_eq_some_iff.mp heq
    obtain ⟨rfl, rfl⟩ := Prod.mk.inj heq
    rw [find?_eq_some.mpr hrow]
    exact hu
  cases hfind : (ofList (m.rows.filterMap fun row =>
      (f row.1 row.2).map fun v => (row.1, v))).find? k with
  | some v => exact (hrow v (mem_of_find?_ofList hfind)).symm
  | none =>
    symm
    rw [Option.bind_eq_none_iff]
    intro u hu
    by_contra hsome
    obtain ⟨v, hv⟩ := Option.ne_none_iff_exists'.mp hsome
    rw [find?_ofList, Option.map_eq_none_iff, List.find?_eq_none] at hfind
    refine hfind (k, v) (List.mem_reverse.mpr (List.mem_filterMap.mpr ?_)) (by simp)
    exact ⟨(k, u), find?_eq_some.mp hu, by rw [hv]; rfl⟩

theorem mem_keys {m : OrderedMap Key Value} {k : Key} : k ∈ m.keys ↔ (m.find? k).isSome := by
  rw [← not_iff_not, Option.not_isSome_iff_eq_none]
  exact find?_eq_none.symm

/-! ## Rows of different keys -/

theorem find?_ofList_of_nodup {rows : List (Key × Value)} (hnodup : (rows.map Prod.fst).Nodup)
    {k : Key} {v : Value} : (ofList rows).find? k = some v ↔ (k, v) ∈ rows := by
  refine ⟨mem_of_find?_ofList, fun hmem => ?_⟩
  obtain ⟨front, back, rfl⟩ := List.append_of_mem hmem
  apply find?_ofList_last
  intro row hrow heq
  rw [List.map_append, List.map_cons] at hnodup
  have hback := (List.nodup_cons.mp (List.nodup_append.mp hnodup).2.1).1
  exact hback (List.mem_map.mpr ⟨row, hrow, heq⟩)

theorem ofList_congr {rows rows' : List (Key × Value)} (hnodup : (rows.map Prod.fst).Nodup)
    (hperm : rows.Perm rows') : ofList rows = ofList rows' := by
  have hnodup' : (rows'.map Prod.fst).Nodup := (hperm.map Prod.fst).nodup_iff.mp hnodup
  apply ext
  intro k
  apply Option.ext
  intro v
  rw [find?_ofList_of_nodup hnodup, find?_ofList_of_nodup hnodup', hperm.mem_iff]

theorem keys_nodup (map : OrderedMap Key Value) : (map.rows.map Prod.fst).Nodup :=
  map.sorted.imp fun hlt => ne_of_lt hlt

omit [LinearOrder Key] in
theorem nodup_filterMap {Value' : Type*} (f : Key × Value → Option Value')
    {rows : List (Key × Value)} (hnodup : (rows.map Prod.fst).Nodup) :
    ((rows.filterMap fun row => (f row).map fun v => (row.1, v)).map Prod.fst).Nodup := by
  have hkeys : ((rows.filterMap fun row => (f row).map fun v => (row.1, v)).map
      Prod.fst).Sublist (rows.map Prod.fst) := by
    induction rows with
    | nil => exact List.Sublist.refl _
    | cons row rows ih =>
      rw [List.map_cons, List.nodup_cons] at hnodup
      cases hrow : f row with
      | none =>
        rw [List.filterMap_cons_none (by rw [hrow]; rfl)]
        exact (ih hnodup.2).cons _
      | some v =>
        rw [List.filterMap_cons_some (by rw [hrow]; rfl)]
        exact (ih hnodup.2).cons_cons _
  exact hkeys.nodup hnodup

theorem ofList_units {names names' : List Key} (h : names.Perm names') :
    ofList (names'.map fun name => (name, ())) =
      ofList (names.map fun name => (name, ())) := by
  have hmem (names : List Key) (name : Key) :
      (ofList (names.map fun name => (name, ()))).find? name = some () ↔
        name ∈ names := by
    constructor
    · intro hfind
      obtain ⟨listed, hlisted, heq⟩ := List.mem_map.mp (mem_of_find?_ofList hfind)
      exact (Prod.mk.inj heq).1 ▸ hlisted
    · intro hlisted
      cases hfind : (ofList (names.map fun name => (name, ()))).find? name with
      | some unit => rfl
      | none =>
        rw [find?_ofList, Option.map_eq_none_iff, List.find?_eq_none] at hfind
        have hnone := hfind (name, ()) (List.mem_reverse.mpr (List.mem_map_of_mem hlisted))
        exact absurd (decide_eq_true rfl) hnone
  apply ext
  intro name
  apply Option.ext
  rintro ⟨⟩
  rw [hmem, hmem, h.mem_iff]

end OrderedMap
