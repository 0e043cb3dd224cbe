import Mathlib.Data.List.Nodup

/-! Tables with a unique key, and what their statements do to a lookup. -/

/-- Rows no two of which have the same key. -/
structure Table {Row Key : Type*} (key : Row → Key) where
  rows : List Row
  nodup : (rows.map key).Nodup

namespace Table
variable {Row Key : Type*} {key : Row → Key}

def empty : Table key := ⟨[], List.nodup_nil⟩

theorem key_inj (t : Table key) {r s : Row} (hr : r ∈ t.rows) (hs : s ∈ t.rows)
    (h : key r = key s) : r = s := List.inj_on_of_nodup_map t.nodup hr hs h

/-- `DELETE … WHERE p`. -/
def delete (t : Table key) (p : Row → Bool) : Table key where
  rows := t.rows.filter (fun r => !p r)
  nodup := (List.Sublist.map key List.filter_sublist).nodup t.nodup

/-- `UPDATE … SET f WHERE p`, for an assignment that leaves the key alone. -/
def update (t : Table key) (p : Row → Bool) (f : Row → Row) (hf : ∀ r, key (f r) = key r) :
    Table key where
  rows := t.rows.map fun r => if p r then f r else r
  nodup := by
    have h : key ∘ (fun r => if p r then f r else r) = key := by
      funext r
      by_cases hp : p r <;> simp [hp, hf]
    rw [List.map_map, h]
    exact t.nodup

variable [DecidableEq Key]

def find? (t : Table key) (k : Key) : Option Row := t.rows.find? fun r => key r = k

theorem find?_eq_some (t : Table key) {k : Key} {r : Row} :
    t.find? k = some r ↔ r ∈ t.rows ∧ key r = k := by
  constructor
  · intro h
    exact ⟨List.mem_of_find?_eq_some h, by simpa using List.find?_some h⟩
  · rintro ⟨hr, rfl⟩
    cases h : t.find? (key r) with
    | none =>
      have := List.find?_eq_none.mp h r hr
      simp at this
    | some s =>
      have hs := List.mem_of_find?_eq_some h
      have hk : key s = key r := by simpa using List.find?_some h
      rw [t.key_inj hs hr hk]

theorem find?_eq_none (t : Table key) {k : Key} : t.find? k = none ↔ ∀ r ∈ t.rows, key r ≠ k := by
  simp [find?, List.find?_eq_none]

theorem mem_of_find? {t : Table key} {k : Key} {r : Row} (h : t.find? k = some r) : r ∈ t.rows :=
  (t.find?_eq_some.mp h).1

theorem key_of_find? {t : Table key} {k : Key} {r : Row} (h : t.find? k = some r) : key r = k :=
  (t.find?_eq_some.mp h).2

theorem find?_key {t : Table key} {r : Row} (h : r ∈ t.rows) : t.find? (key r) = some r :=
  t.find?_eq_some.mpr ⟨h, rfl⟩

@[simp] theorem find?_empty (k : Key) : (empty : Table key).find? k = none := rfl

theorem find?_delete (t : Table key) (p : Row → Bool) (k : Key) :
    (t.delete p).find? k = (t.find? k).filter fun r => !p r := by
  cases h : t.find? k with
  | none =>
    have hk := t.find?_eq_none.mp h
    exact (t.delete p).find?_eq_none.mpr fun r hr => hk r (List.mem_filter.mp hr).1
  | some r =>
    obtain ⟨hr, hk⟩ := t.find?_eq_some.mp h
    by_cases hp : p r
    · have hnone : (t.delete p).find? k = none := by
        apply (t.delete p).find?_eq_none.mpr
        intro s hs hsk
        obtain ⟨hmem, hps⟩ := List.mem_filter.mp hs
        rw [t.key_inj hmem hr (hsk.trans hk.symm), hp] at hps
        simp at hps
      rw [hnone, Option.filter_some_neg (by simp [hp])]
    · rw [Option.filter_some_pos (by simpa using hp)]
      exact (t.delete p).find?_eq_some.mpr ⟨List.mem_filter.mpr ⟨hr, by simpa using hp⟩, hk⟩

theorem find?_update (t : Table key) (p : Row → Bool) (f : Row → Row) (hf : ∀ r, key (f r) = key r)
    (k : Key) :
    (t.update p f hf).find? k = (t.find? k).map fun r => if p r then f r else r := by
  have hkey : ∀ r, key (if p r then f r else r) = key r := by
    intro r
    by_cases hp : p r <;> simp [hp, hf]
  cases h : t.find? k with
  | none =>
    have hk := t.find?_eq_none.mp h
    apply (t.update p f hf).find?_eq_none.mpr
    intro s hs
    obtain ⟨r, hr, rfl⟩ := List.mem_map.mp hs
    rw [hkey]
    exact hk r hr
  | some r =>
    obtain ⟨hr, hk⟩ := t.find?_eq_some.mp h
    exact (t.update p f hf).find?_eq_some.mpr ⟨List.mem_map_of_mem hr, (hkey r).trans hk⟩

/-- An update of the row with one key. -/
theorem find?_update_key (t : Table key) {p : Row → Bool} {f : Row → Row}
    (hf : ∀ r, key (f r) = key r) {k : Key} (hp : ∀ r, p r ↔ key r = k) (k' : Key) :
    (t.update p f hf).find? k' = if k' = k then (t.find? k').map f else t.find? k' := by
  rw [find?_update]
  cases h : t.find? k' with
  | none => simp
  | some r =>
    rw [Option.map_some, Option.map_some]
    simp only [hp, key_of_find? h]
    split_ifs <;> rfl

/-- What the assignment leaves alone reads as before. -/
theorem map_update {α : Type*} (t : Table key) (p : Row → Bool) {f : Row → Row}
    (hf : ∀ r, key (f r) = key r) (g : Row → α) (hg : ∀ r, g (f r) = g r) :
    (t.update p f hf).rows.map g = t.rows.map g := by
  show (t.rows.map fun r => if p r then f r else r).map g = _
  rw [List.map_map]
  apply List.map_congr_left
  intro r _
  show g (if p r then f r else r) = g r
  split_ifs
  · exact hg r
  · rfl

/-- Rows after an update: assigned where the condition holds, the old ones elsewhere. -/
theorem mem_update {t : Table key} {p : Row → Bool} {f : Row → Row}
    (hf : ∀ r, key (f r) = key r) {r : Row} (h : r ∈ (t.update p f hf).rows) :
    ∃ old ∈ t.rows, p old = true ∧ r = f old ∨ p old = false ∧ r = old := by
  obtain ⟨old, hold, rfl⟩ := List.mem_map.mp h
  refine ⟨old, hold, ?_⟩
  by_cases hp : p old = true
  · exact Or.inl ⟨hp, if_pos hp⟩
  · exact Or.inr ⟨by simpa using hp, if_neg hp⟩

/-- A row with a new key, at the end. -/
def append (t : Table key) (r : Row) (h : t.find? (key r) = none) : Table key where
  rows := t.rows ++ [r]
  nodup := by
    have hk := t.find?_eq_none.mp h
    rw [List.map_append, List.nodup_append]
    refine ⟨t.nodup, by simp, ?_⟩
    intro a ha b hb
    obtain ⟨s, hs, rfl⟩ := List.mem_map.mp ha
    obtain rfl : b = key r := by simpa using hb
    exact hk s hs

theorem find?_append (t : Table key) (r : Row) (h : t.find? (key r) = none) (k : Key) :
    (t.append r h).find? k = if key r = k then some r else t.find? k := by
  show (t.rows ++ [r]).find? _ = _
  rw [List.find?_append, show t.rows.find? _ = t.find? k from rfl]
  by_cases hk : key r = k
  · subst hk
    rw [h, if_pos rfl]
    simp
  · rw [if_neg hk]
    cases t.find? k <;> simp [hk]

/-- `INSERT`: refused when the key is taken. -/
def insert? (t : Table key) (r : Row) : Option (Table key) :=
  if h : t.find? (key r) = none then some (t.append r h) else none

theorem insert?_eq_some {t t' : Table key} {r : Row} :
    t.insert? r = some t' ↔ ∃ h : t.find? (key r) = none, t.append r h = t' := by
  unfold insert?
  by_cases h : t.find? (key r) = none <;> simp [h]

theorem find?_of_insert? {t t' : Table key} {r : Row} (h : t.insert? r = some t') :
    t.find? (key r) = none := (insert?_eq_some.mp h).1

theorem find?_insert? {t t' : Table key} {r : Row} (h : t.insert? r = some t') (k : Key) :
    t'.find? k = if key r = k then some r else t.find? k := by
  obtain ⟨hnone, rfl⟩ := insert?_eq_some.mp h
  exact t.find?_append r hnone k

theorem insert?_of_some {t : Table key} {r s : Row} (h : t.find? (key r) = some s) :
    t.insert? r = none := by
  unfold insert?
  rw [dif_neg (by simp [h])]

theorem rows_of_insert? {t t' : Table key} {r : Row} (h : t.insert? r = some t') :
    t'.rows = t.rows ++ [r] := by
  obtain ⟨hnone, rfl⟩ := insert?_eq_some.mp h
  rfl

/-- `INSERT … ON CONFLICT (key) DO UPDATE`: the row replaces the one with its key. -/
def upsert (t : Table key) (r : Row) : Table key :=
  if h : t.find? (key r) = none then t.append r h
  else
    t.update (fun s => key s = key r) (fun s => if key s = key r then r else s) (by
      intro s
      by_cases hs : key s = key r <;> simp [hs])

theorem rows_upsert_of_new {t : Table key} {r : Row} (h : t.find? (key r) = none) :
    (t.upsert r).rows = t.rows ++ [r] := by
  unfold upsert
  rw [dif_pos h]
  rfl

theorem find?_upsert (t : Table key) (r : Row) (k : Key) :
    (t.upsert r).find? k = if key r = k then some r else t.find? k := by
  unfold upsert
  by_cases h : t.find? (key r) = none
  · rw [dif_pos h]
    exact t.find?_append r h k
  · rw [dif_neg h, find?_update]
    cases hk : t.find? k with
    | none =>
      have hne : key r ≠ k := by
        rintro rfl
        exact h hk
      rw [if_neg hne, Option.map_none]
    | some s =>
      have hs := key_of_find? hk
      by_cases hr : key r = k
      · simp [hr, hs]
      · have : key s ≠ key r := by
          rw [hs]
          exact Ne.symm hr
        simp [hr, this]

/-- Rows that agree where `shown` holds agree on every key that is shown. -/
theorem find?_of_shown {t t' : Table key} {shown shown' : Row → Bool}
    (h : t.rows.filter shown = t'.rows.filter shown') {k : Key}
    (hk : ∀ r, key r = k → shown r = true) (hk' : ∀ r, key r = k → shown' r = true) :
    t.find? k = t'.find? k := by
  apply Option.ext
  intro r
  simp only [find?_eq_some]
  have hmem : r ∈ t.rows.filter shown ↔ r ∈ t'.rows.filter shown' := by rw [h]
  simp only [List.mem_filter] at hmem
  constructor
  · intro ⟨hr, hkey⟩
    exact ⟨(hmem.mp ⟨hr, hk r hkey⟩).1, hkey⟩
  · intro ⟨hr, hkey⟩
    exact ⟨(hmem.mpr ⟨hr, hk' r hkey⟩).1, hkey⟩

end Table
