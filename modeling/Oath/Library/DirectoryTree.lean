import Mathlib.Data.List.Infix
import Mathlib.Data.List.Nodup

/-! A tree of named directories, as the list of the paths below its root, with at most one
document of interest in each. -/

structure DirectoryTree (Name Document : Type) where
  directories : List (List Name)
  document : List Name → Option Document

namespace DirectoryTree
variable {Name Document : Type} [DecidableEq Name]

def empty : DirectoryTree Name Document := ⟨[], fun _ => none⟩

def isDir (t : DirectoryTree Name Document) (d : List Name) : Bool :=
  d.isEmpty || t.directories.contains d

/-- The root is always there. -/
def addDir (t : DirectoryTree Name Document) (d : List Name) : DirectoryTree Name Document :=
  if t.isDir d then t else { t with directories := t.directories ++ [d] }

def createDirAll (t : DirectoryTree Name Document) (d : List Name) : DirectoryTree Name Document :=
  d.inits.foldl addDir t

def removeDirAll (t : DirectoryTree Name Document) (d : List Name) : DirectoryTree Name Document where
  directories := t.directories.filter fun x => !d.isPrefixOf x
  document := fun x => if d.isPrefixOf x then none else t.document x

def write (t : DirectoryTree Name Document) (d : List Name) (document : Document) :
    DirectoryTree Name Document :=
  { t with document := fun x => if x = d then some document else t.document x }

def moved (source target d : List Name) : List Name :=
  if source.isPrefixOf d then target ++ d.drop source.length else d

def rename (t : DirectoryTree Name Document) (source target : List Name) :
    DirectoryTree Name Document where
  directories := t.directories.map (moved source target)
  document := fun x =>
    if target.isPrefixOf x then t.document (source ++ x.drop target.length)
    else if source.isPrefixOf x then none
    else t.document x

def readDir (t : DirectoryTree Name Document) (d : List Name) : List Name :=
  t.directories.filterMap fun x => if x.dropLast = d then x.getLast? else none

variable {t : DirectoryTree Name Document} {d x : List Name}

theorem isDir_iff : t.isDir x = true ↔ x = [] ∨ x ∈ t.directories := by
  simp [isDir]

theorem mem_addDir : x ∈ (t.addDir d).directories ↔ x ∈ t.directories ∨ (x = d ∧ d ≠ []) := by
  unfold addDir
  split
  · case isTrue hdir =>
    have hthere := isDir_iff.mp hdir
    constructor
    · exact .inl
    · intro hx
      cases hx with
      | inl hmem => exact hmem
      | inr hnew => exact hnew.1 ▸ hthere.resolve_left hnew.2
  · case isFalse hdir =>
    have hne : d ≠ [] := fun hnil => hdir (isDir_iff.mpr (.inl hnil))
    simp [hne]

theorem nodup_addDir (hnodup : t.directories.Nodup) : (t.addDir d).directories.Nodup := by
  unfold addDir
  split
  · exact hnodup
  · case isFalse hdir =>
    have hnew : d ∉ t.directories := fun hmem => hdir (isDir_iff.mpr (.inr hmem))
    rw [List.nodup_append]
    refine ⟨hnodup, List.nodup_singleton d, ?_⟩
    intro a ha b hb
    rw [List.mem_singleton.mp hb]
    exact fun heq => hnew (heq ▸ ha)

@[simp] theorem document_addDir : (t.addDir d).document = t.document := by
  unfold addDir
  split <;> rfl

theorem mem_foldl_addDir {ds : List (List Name)} :
    x ∈ (ds.foldl addDir t).directories ↔ x ∈ t.directories ∨ (x ∈ ds ∧ x ≠ []) := by
  induction ds generalizing t with
  | nil => simp
  | cons d ds ih =>
    rw [List.foldl_cons, ih, mem_addDir, List.mem_cons]
    constructor
    · intro hx
      rcases hx with (hold | hnew) | hrest
      · exact .inl hold
      · exact .inr ⟨.inl hnew.1, hnew.1 ▸ hnew.2⟩
      · exact .inr ⟨.inr hrest.1, hrest.2⟩
    · intro hx
      rcases hx with hold | ⟨hnew | hrest, hne⟩
      · exact .inl (.inl hold)
      · exact .inl (.inr ⟨hnew, hnew ▸ hne⟩)
      · exact .inr ⟨hrest, hne⟩

theorem mem_createDirAll :
    x ∈ (t.createDirAll d).directories ↔ x ∈ t.directories ∨ (x <+: d ∧ x ≠ []) := by
  unfold createDirAll
  rw [mem_foldl_addDir, List.mem_inits]

theorem nodup_foldl_addDir {ds : List (List Name)} (hnodup : t.directories.Nodup) :
    (ds.foldl addDir t).directories.Nodup := by
  induction ds generalizing t with
  | nil => exact hnodup
  | cons d ds ih => exact ih (nodup_addDir hnodup)

theorem nodup_createDirAll (hnodup : t.directories.Nodup) :
    (t.createDirAll d).directories.Nodup := nodup_foldl_addDir hnodup

@[simp] theorem document_createDirAll : (t.createDirAll d).document = t.document := by
  unfold createDirAll
  generalize d.inits = ds
  induction ds generalizing t with
  | nil => rfl
  | cons d ds ih => rw [List.foldl_cons, ih, document_addDir]

theorem mem_removeDirAll :
    x ∈ (t.removeDirAll d).directories ↔ x ∈ t.directories ∧ ¬ d <+: x := by
  simp [removeDirAll, List.isPrefixOf_iff_prefix, ← Bool.not_eq_true]

theorem document_removeDirAll :
    (t.removeDirAll d).document x = if d <+: x then none else t.document x := by
  simp [removeDirAll, List.isPrefixOf_iff_prefix]

theorem nodup_removeDirAll (hnodup : t.directories.Nodup) :
    (t.removeDirAll d).directories.Nodup := hnodup.filter _

@[simp] theorem directories_write {document : Document} :
    (t.write d document).directories = t.directories := rfl

theorem mem_readDir {name : Name} : name ∈ t.readDir d ↔ d ++ [name] ∈ t.directories := by
  unfold readDir
  rw [List.mem_filterMap]
  constructor
  · intro ⟨x, hmem, hx⟩
    split at hx
    · case isTrue hparent =>
      have hne : x ≠ [] := by
        intro hnil
        simp [hnil] at hx
      have hlast : x.getLast hne = name := by
        rw [List.getLast?_eq_some_getLast hne] at hx
        exact Option.some.inj hx
      have hsplit : d ++ [name] = x := by
        rw [← hparent, ← hlast]
        exact List.dropLast_append_getLast hne
      exact hsplit ▸ hmem
    · case isFalse => exact absurd hx (by simp)
  · intro hmem
    exact ⟨d ++ [name], hmem, by simp⟩

theorem nodup_readDir (hnodup : t.directories.Nodup) : (t.readDir d).Nodup := by
  unfold readDir
  apply hnodup.filterMap
  intro a b name ha hb
  split at ha
  · case isTrue haparent =>
    split at hb
    · case isTrue hbparent =>
      have hsplit (c : List Name) (hc : c.dropLast = d) (hlast : name ∈ c.getLast?) :
          c = d ++ [name] := by
        rw [← hc]
        exact (List.dropLast_append_getLast? name hlast).symm
      rw [hsplit a haparent ha, hsplit b hbparent hb]
    · case isFalse => exact absurd hb (by simp)
  · case isFalse => exact absurd ha (by simp)

theorem mem_rename {source target : List Name} :
    x ∈ (t.rename source target).directories ↔ ∃ y ∈ t.directories, moved source target y = x :=
  List.mem_map

/-- A directory is moved to where nothing is yet. -/
theorem nodup_rename {source target : List Name} (hnodup : t.directories.Nodup)
    (hfree : ∀ y ∈ t.directories, ¬ target <+: y) :
    (t.rename source target).directories.Nodup := by
  apply List.Nodup.map_on _ hnodup
  intro a ha b hb heq
  unfold moved at heq
  simp only [List.isPrefixOf_iff_prefix] at heq
  split at heq
  · case isTrue hsource =>
    split at heq
    · case isTrue hsource' =>
      have hrest := List.append_cancel_left heq
      rw [← List.prefix_iff_eq_append.mp hsource, ← List.prefix_iff_eq_append.mp hsource', hrest]
    · case isFalse =>
      exact absurd (heq ▸ List.prefix_append _ _) (hfree b hb)
  · case isFalse =>
    split at heq
    · exact absurd (heq.symm ▸ List.prefix_append _ _) (hfree a ha)
    · exact heq

end DirectoryTree
