import Mathlib.Algebra.Ring.Nat
import Mathlib.Data.List.Infix
import Mathlib.Logic.Function.Basic
import Oath.Library.Table
import Oath.Library.UnixPath

/-! Directories, files with any number of names and symbolic links: the changes that system
calls make to them, and where a path leads. -/

namespace Unix

inductive Entry
  | directory
  | file (inode : ℕ)
  | symlink (target : List Component)
deriving DecidableEq, Repr

/-- All names of a file share its data. -/
structure LinkedFiles where
  entries : Table (Prod.fst : Location × Entry → Location)
  data : ℕ → List UInt8

namespace LinkedFiles
variable (fs : LinkedFiles)

def entryAt? (loc : Location) : Option Entry := (fs.entries.find? loc).map Prod.snd

/-! ## Directories and inodes -/

def childOf? (dir loc : Location) : Option Name := if loc.dropLast = dir then loc.getLast? else none

theorem childOf?_eq_some {dir loc : Location} {name : Name} :
    childOf? dir loc = some name ↔ loc = dir ++ [name] := by
  unfold childOf?
  constructor
  · intro h
    split_ifs at h with hdir
    obtain ⟨init, rfl⟩ := List.getLast?_eq_some_iff.mp h
    rw [List.dropLast_concat] at hdir
    rw [hdir]
  · rintro rfl
    rw [List.dropLast_concat, if_pos rfl, List.getLast?_concat]

def readDir (dir : Location) : List Name :=
  (fs.entries.rows.map Prod.fst).filterMap (childOf? dir)

theorem mem_keys {loc : Location} : loc ∈ fs.entries.rows.map Prod.fst ↔ fs.entryAt? loc ≠ none := by
  unfold entryAt?
  constructor
  · intro hmem
    obtain ⟨row, hrow, rfl⟩ := List.mem_map.mp hmem
    rw [Table.find?_key hrow]
    exact Option.some_ne_none _
  · intro hsome
    cases h : fs.entries.find? loc with
    | none =>
      rw [h] at hsome
      exact absurd rfl hsome
    | some row => exact List.mem_map.mpr ⟨row, Table.mem_of_find? h, Table.key_of_find? h⟩

theorem mem_readDir {dir : Location} {name : Name} :
    name ∈ fs.readDir dir ↔ fs.entryAt? (dir ++ [name]) ≠ none := by
  unfold readDir
  rw [List.mem_filterMap, ← mem_keys]
  constructor
  · rintro ⟨loc, hloc, hchild⟩
    rwa [childOf?_eq_some.mp hchild] at hloc
  · exact fun hmem => ⟨_, hmem, childOf?_eq_some.mpr rfl⟩

theorem nodup_readDir (dir : Location) : (fs.readDir dir).Nodup := by
  apply List.Nodup.filterMap _ fs.entries.nodup
  intro loc loc' name hloc hloc'
  have heq := childOf?_eq_some.mp (Option.mem_def.mp hloc)
  rw [heq, childOf?_eq_some.mp (Option.mem_def.mp hloc')]

def Entry.inode? : Entry → Option ℕ
  | .file inode => some inode
  | _ => none

def freshInode : ℕ :=
  (fs.entries.rows.filterMap fun row => Entry.inode? row.2).foldr (fun i n => max (i + 1) n) 0

theorem lt_foldr_max {i : ℕ} {inodes : List ℕ} (h : i ∈ inodes) :
    i < inodes.foldr (fun i n => max (i + 1) n) 0 := by
  induction inodes with
  | nil => cases h
  | cons j rest ih =>
    rw [List.foldr_cons]
    rcases List.mem_cons.mp h with rfl | hrest
    · exact Nat.lt_of_lt_of_le (Nat.lt_succ_self i) (Nat.le_max_left _ _)
    · exact Nat.lt_of_lt_of_le (ih hrest) (Nat.le_max_right _ _)

theorem entryAt?_ne_freshInode (loc : Location) : fs.entryAt? loc ≠ some (.file fs.freshInode) := by
  intro h
  obtain ⟨row, hrow, hentry⟩ := Option.map_eq_some_iff.mp h
  have hmem : fs.freshInode ∈ fs.entries.rows.filterMap fun row => Entry.inode? row.2 := by
    refine List.mem_filterMap.mpr ⟨row, Table.mem_of_find? hrow, ?_⟩
    rw [hentry]
    rfl
  exact absurd (lt_foldr_max hmem) (lt_irrefl _)

/-! ## Changes -/

def set (loc : Location) (entry : Entry) : LinkedFiles :=
  { fs with entries := fs.entries.upsert (loc, entry) }

def unset (loc : Location) : LinkedFiles :=
  { fs with entries := fs.entries.delete fun row => decide (row.1 = loc) }

def moved? (source dest loc : Location) : Option Location :=
  if source <+: loc then some (dest ++ loc.drop source.length) else none

theorem moved?_eq_some {source dest loc loc' : Location} :
    moved? source dest loc = some loc' ↔ ∃ rest, loc = source ++ rest ∧ loc' = dest ++ rest := by
  unfold moved?
  constructor
  · intro h
    split_ifs at h with hsource
    obtain ⟨rest, rfl⟩ := hsource
    rw [List.drop_left] at h
    exact ⟨rest, rfl, (Option.some.inj h).symm⟩
  · rintro ⟨rest, rfl, rfl⟩
    rw [if_pos (List.prefix_append _ _), List.drop_left]

def staying (source dest loc : Location) : Bool := !decide (source <+: loc) && !decide (dest <+: loc)

theorem staying_iff {source dest loc : Location} :
    staying source dest loc ↔ ¬source <+: loc ∧ ¬dest <+: loc := by
  simp [staying]

/-- What was at or below the new place is replaced. -/
def moveRows (rows : List (Location × Entry)) (source dest : Location) : List (Location × Entry) :=
  rows.filter (fun row => staying source dest row.1) ++
    rows.filterMap fun row => (moved? source dest row.1).map fun loc => (loc, row.2)

theorem nodup_moveRows {rows : List (Location × Entry)} (h : (rows.map Prod.fst).Nodup)
    (source dest : Location) : ((moveRows rows source dest).map Prod.fst).Nodup := by
  have hmoved : (rows.filterMap fun row =>
      (moved? source dest row.1).map fun loc => (loc, row.2)).map Prod.fst =
        (rows.map Prod.fst).filterMap (moved? source dest) := by
    rw [List.map_filterMap, List.filterMap_map]
    congr 1
    funext row
    rw [Option.map_map]
    exact Option.map_id'
  unfold moveRows
  rw [List.map_append, hmoved, List.nodup_append]
  refine ⟨(List.Sublist.map Prod.fst List.filter_sublist).nodup h, ?_, ?_⟩
  · apply List.Nodup.filterMap _ h
    intro loc loc' moved hloc hloc'
    obtain ⟨rest, rfl, rfl⟩ := moved?_eq_some.mp (Option.mem_def.mp hloc)
    obtain ⟨rest', rfl, hrest⟩ := moved?_eq_some.mp (Option.mem_def.mp hloc')
    rw [List.append_cancel_left hrest]
  · intro loc hloc loc' hloc' heq
    obtain ⟨row, hrow, rfl⟩ := List.mem_map.mp hloc
    obtain ⟨hsource, hdest⟩ := staying_iff.mp (List.mem_filter.mp hrow).2
    obtain ⟨moved, -, hmoved⟩ := List.mem_filterMap.mp hloc'
    obtain ⟨rest, -, hrest⟩ := moved?_eq_some.mp hmoved
    exact hdest ⟨rest, by rw [heq, hrest]⟩

def move (source dest : Location) : LinkedFiles where
  entries := ⟨moveRows fs.entries.rows source dest, nodup_moveRows fs.entries.nodup source dest⟩
  data := fs.data

@[simp] theorem entryAt?_set (loc loc' : Location) (entry : Entry) :
    (fs.set loc entry).entryAt? loc' = if loc = loc' then some entry else fs.entryAt? loc' := by
  unfold entryAt? set
  rw [Table.find?_upsert]
  by_cases h : loc = loc' <;> simp [h]

@[simp] theorem entryAt?_unset (loc loc' : Location) :
    (fs.unset loc).entryAt? loc' = if loc = loc' then none else fs.entryAt? loc' := by
  unfold entryAt? unset
  rw [Table.find?_delete]
  cases h : fs.entries.find? loc' with
  | none => simp
  | some row =>
    have hkey : row.1 = loc' := Table.key_of_find? h
    by_cases hloc : loc = loc'
    · rw [if_pos hloc, Option.filter_some_neg]
      · rfl
      · simp [hkey, hloc]
    · rw [if_neg hloc, Option.filter_some_pos]
      simp [hkey, Ne.symm hloc]

theorem entryAt?_eq_some {loc : Location} {entry : Entry} :
    fs.entryAt? loc = some entry ↔ (loc, entry) ∈ fs.entries.rows := by
  unfold entryAt?
  rw [Option.map_eq_some_iff]
  constructor
  · rintro ⟨row, hrow, rfl⟩
    obtain ⟨hmem, rfl⟩ := (Table.find?_eq_some _).mp hrow
    exact hmem
  · exact fun hmem => ⟨_, (Table.find?_eq_some _).mpr ⟨hmem, rfl⟩, rfl⟩

theorem mem_moveRows {rows : List (Location × Entry)} {source dest loc : Location}
    {entry : Entry} : (loc, entry) ∈ moveRows rows source dest ↔
      ((loc, entry) ∈ rows ∧ ¬source <+: loc ∧ ¬dest <+: loc) ∨
        ∃ rest, loc = dest ++ rest ∧ (source ++ rest, entry) ∈ rows := by
  unfold moveRows
  rw [List.mem_append, List.mem_filter, List.mem_filterMap, staying_iff]
  apply or_congr Iff.rfl
  constructor
  · rintro ⟨row, hrow, hmoved⟩
    obtain ⟨moved, hmoved, heq⟩ := Option.map_eq_some_iff.mp hmoved
    obtain ⟨rest, hloc, hrest⟩ := moved?_eq_some.mp hmoved
    obtain ⟨rfl, rfl⟩ := Prod.mk.inj heq
    exact ⟨rest, hrest, by rw [← hloc]; exact hrow⟩
  · rintro ⟨rest, rfl, hrow⟩
    exact ⟨_, hrow, by rw [moved?_eq_some.mpr ⟨rest, rfl, rfl⟩]; rfl⟩

@[simp] theorem entryAt?_move_dest (source dest rest : Location) :
    (fs.move source dest).entryAt? (dest ++ rest) = fs.entryAt? (source ++ rest) := by
  apply Option.ext
  intro entry
  rw [entryAt?_eq_some, entryAt?_eq_some]
  show _ ∈ moveRows _ _ _ ↔ _
  rw [mem_moveRows]
  constructor
  · rintro (⟨-, -, hdest⟩ | ⟨rest', heq, hrow⟩)
    · exact absurd (List.prefix_append _ _) hdest
    · rwa [List.append_cancel_left heq]
  · exact fun hrow => Or.inr ⟨rest, rfl, hrow⟩

theorem entryAt?_move_of_not {source dest loc : Location} (hdest : ¬dest <+: loc) :
    (fs.move source dest).entryAt? loc = if source <+: loc then none else fs.entryAt? loc := by
  apply Option.ext
  intro entry
  rw [entryAt?_eq_some]
  show _ ∈ moveRows _ _ _ ↔ _
  rw [mem_moveRows]
  by_cases hsource : source <+: loc
  · rw [if_pos hsource]
    constructor
    · rintro (⟨-, hnot, -⟩ | ⟨rest, rfl, -⟩)
      · exact absurd hsource hnot
      · exact absurd (List.prefix_append _ _) hdest
    · intro h
      cases h
  · rw [if_neg hsource, entryAt?_eq_some]
    constructor
    · rintro (⟨hrow, -⟩ | ⟨rest, rfl, -⟩)
      · exact hrow
      · exact absurd (List.prefix_append _ _) hdest
    · exact fun hrow => Or.inl ⟨hrow, hsource, hdest⟩

end LinkedFiles

/-- A change that the kernel makes as a whole. -/
inductive Effect
  | makeDir (loc : Location)
  | createFile (loc : Location)
  /-- The file that was opened under a name has these data now. -/
  | write (loc : Location) (inode : ℕ) (bytes : List UInt8)
  | hardLink (source loc : Location)
  | symlink (loc : Location) (target : List Component)
  | remove (loc : Location)
  | rename (source dest : Location)
deriving DecidableEq, Repr

def Effect.apply (fs : LinkedFiles) : Effect → LinkedFiles
  | .makeDir loc => fs.set loc .directory
  | .createFile loc =>
    { fs.set loc (.file fs.freshInode) with data := Function.update fs.data fs.freshInode [] }
  | .write _ inode bytes => { fs with data := Function.update fs.data inode bytes }
  | .hardLink source loc =>
    match fs.entryAt? source with
    | some entry => fs.set loc entry
    | none => fs
  | .symlink loc target => fs.set loc (.symlink target)
  | .remove loc => fs.unset loc
  | .rename source dest => fs.move source dest

/-! ## Where a path leads -/

inductive FileError
  | notFound
  | alreadyExists
  | notADirectory
  | isADirectory
  | notEmpty
  | tooManyLinks
  | nameTooLong
  | other (text : String)
deriving DecidableEq, Repr

def FileError.text : FileError → String
  | .notFound => "No such file or directory (os error 2)"
  | .alreadyExists => "File exists (os error 17)"
  | .notADirectory => "Not a directory (os error 20)"
  | .isADirectory => "Is a directory (os error 21)"
  | .notEmpty => "Directory not empty (os error 39)"
  | .tooManyLinks => "Too many levels of symbolic links (os error 40)"
  | .nameTooLong => "File name too long (os error 36)"
  | .other text => text

/-- A path from a directory that stays where it is. -/
structure Path where
  base : Location
  parts : List Component
deriving DecidableEq, Repr

def Path.join (p : Path) (name : Name) : Path := { p with parts := p.parts ++ [.normal name] }

def Path.joinAll (p : Path) (names : List Name) : Path :=
  { p with parts := p.parts ++ names.map .normal }

def Path.parent (p : Path) : Path := { p with parts := p.parts.dropLast }

namespace LinkedFiles
variable (fs : LinkedFiles)

/-- The walk of the kernel along a path, up to a symbolic link that it follows. -/
def walk (follow : Bool) (jump : Location → List Component → Except FileError Location) :
    Location → List Component → Except FileError Location
  | loc, [] => .ok loc
  | _, .rootDir :: rest => walk follow jump [] rest
  | loc, .curDir :: rest => walk follow jump loc rest
  | loc, .parentDir :: rest => walk follow jump loc.dropLast rest
  | loc, .normal name :: rest =>
    match fs.entryAt? (loc ++ [name]) with
    | some .directory => walk follow jump (loc ++ [name]) rest
    | some (.symlink target) =>
      if rest.isEmpty && !follow then .ok (loc ++ [name]) else jump loc (target ++ rest)
    | some (.file _) => if rest.isEmpty then .ok (loc ++ [name]) else .error .notADirectory
    | none => if rest.isEmpty then .ok (loc ++ [name]) else .error .notFound

def walkLinks (follow : Bool) : ℕ → Location → List Component → Except FileError Location
  | 0 => fs.walk follow fun _ _ => .error .tooManyLinks
  | links + 1 => fs.walk follow (walkLinks follow links)

def maxLinks : ℕ := 40

/-- The place of an entry. Only its directory has to be there. -/
def find (follow : Bool) (p : Path) : Except FileError Location :=
  fs.walkLinks follow maxLinks p.base p.parts

def metadata (follow : Bool) (p : Path) : Except FileError Entry := do
  let loc ← fs.find follow p
  match fs.entryAt? loc with
  | some entry => .ok entry
  | none => .error .notFound

def pathExists (p : Path) : Bool := (fs.metadata true p).isOk

def isDir (p : Path) : Bool :=
  match fs.metadata true p with
  | .ok .directory => true
  | _ => false

def canonicalize (p : Path) : Except FileError Location := do
  let loc ← fs.find true p
  match fs.entryAt? loc with
  | some _ => .ok loc
  | none => .error .notFound

end LinkedFiles

end Unix
