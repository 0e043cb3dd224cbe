import Mathlib.Algebra.Ring.Nat
import Oath.Library.FileSystem
import Oath.Registry.Digest

/-! Entries of a gzip tarball as the tar crate hands them out, and what its `unpack_in`
is documented to do with one. -/

namespace Oath.Registry
open Unix

inductive EntryType
  | regular
  | directory
  | other (kind : UInt8)
deriving DecidableEq, Repr

/-- The data of an entry: what can be read of it, and the error after that if there is one. -/
structure EntryData where
  bytes : List UInt8
  error : Option String := none
deriving DecidableEq, Repr

def EntryData.readToEnd (data : EntryData) : Except String (List UInt8) :=
  match data.error with
  | none => .ok data.bytes
  | some message => .error message

/-- `take(limit)` before `read_to_end`. -/
def EntryData.readAtMost (data : EntryData) (limit : ℕ) : Except String (List UInt8) :=
  if limit ≤ data.bytes.length then .ok (data.bytes.take limit) else data.readToEnd

structure TarEntry where
  entryType : EntryType
  path : List UInt8
  size : UInt64
  /-- The header has the POSIX magic. -/
  ustar : Bool
  /-- The permission field, when it is a number. -/
  mode : Option ℕ
  data : EntryData
deriving DecidableEq, Repr

def u64Max : ℕ := 2 ^ 64 - 1

/-- `GzDecoder` and `Archive::entries`: the entries in their order, up to the first that
cannot be read. -/
abbrev DecodeTarball := List UInt8 → Except String (List (Except String TarEntry))

/-- An old header's name with a trailing slash stands for a directory. -/
def TarEntry.unpacksDirectory (e : TarEntry) : Bool :=
  e.entryType == .directory ||
    e.entryType == .regular && !e.ustar && e.path.getLast? == some slash

/-- The mode of the directory an entry has been unpacked to. -/
def TarEntry.directoryMode (e : TarEntry) (fs : FileSystem) (loc : Location) : ℕ :=
  match e.mode, fs.node? loc with
  | some mode, _ => mode &&& 0o777
  | none, some (.directory mode) => mode
  | none, _ => newDirMode

/-- `Entry::unpack_in`. It touches nothing outside the directory it unpacks into and
skips an entry with `..` in its path; when it reports success, the entry is in place. -/
structure UnpackIn where
  run : FileSystem → Location → TarEntry → Except String Bool × FileSystem
  outside (fs : FileSystem) (root loc : Location) (e : TarEntry) (h : ¬ root <+: loc) :
    (run fs root e).2.node? loc = fs.node? loc
  parent_skipped (fs : FileSystem) (root : Location) (e : TarEntry)
    (h : .parentDir ∈ components e.path) : run fs root e = (.ok false, fs)
  directory_placed (fs fs' : FileSystem) (root : Location) (e : TarEntry) (names : List Name)
    (hnames : normalNames? (components e.path) = some names) (hne : names ≠ [])
    (hdir : e.unpacksDirectory) (h : run fs root e = (.ok true, fs')) :
    FileSystem.Placed fs fs' root names (.directory (e.directoryMode fs (root ++ names)))
  file_placed (fs fs' : FileSystem) (root : Location) (e : TarEntry) (names : List Name)
    (hnames : normalNames? (components e.path) = some names) (hne : names ≠ [])
    (htype : e.entryType = .regular) (hfile : ¬ e.unpacksDirectory)
    (h : run fs root e = (.ok true, fs')) :
    ∃ mode bytes, e.data.readToEnd = .ok bytes ∧
      FileSystem.Placed fs fs' root names (.file mode bytes)

/-- The entry itself, once the directories on the way to it exist in `fs₁`. -/
def unpackAt (e : TarEntry) (fs fs₁ : FileSystem) (target : Location) :
    Except String Bool × FileSystem :=
  if e.unpacksDirectory then
    if (fs₁.fileBytes? target).isSome then (.error IoError.alreadyExists.text, fs₁)
    else (.ok true, fs₁.set target (.directory (e.directoryMode fs target)))
  else if fs₁.isDirectory target then (.error IoError.isADirectory.text, fs₁)
  else match e.data.readToEnd with
    | .ok bytes =>
      (.ok true, fs₁.set target (.file ((e.mode.map (· &&& 0o777)).getD newFileMode) bytes))
    | .error message => (.error message, fs₁)

/-- An `unpack_in` that does what is documented and no more. -/
def unpackDocumented (fs : FileSystem) (root : Location) (e : TarEntry) :
    Except String Bool × FileSystem :=
  match normalNames? (components e.path) with
  | none => (.ok false, fs)
  | some names =>
    match names.getLast? with
    | none => (.ok true, fs)
    | some name =>
      match FileSystem.createDirAll root (names.dropLast.map .normal) fs with
      | (.error error, fs₁) => (.error error.text, fs₁)
      | (.ok (), fs₁) => unpackAt e fs fs₁ (root ++ names.dropLast ++ [name])

theorem normalNames?_of_parent {cs : List Component} (h : .parentDir ∈ cs) :
    normalNames? cs = none := by
  induction cs with
  | nil => simp at h
  | cons c cs ih =>
    cases c with
    | rootDir => rfl
    | parentDir => rfl
    | curDir => exact ih (by simpa using h)
    | normal name =>
      rw [normalNames?, ih (by simpa using h)]
      rfl

theorem unpackDocumented_placed {fs fs' : FileSystem} {root : Location} {e : TarEntry}
    {names : List Name} (hnames : normalNames? (components e.path) = some names) (hne : names ≠ [])
    (h : unpackDocumented fs root e = (.ok true, fs')) :
    (e.unpacksDirectory →
      FileSystem.Placed fs fs' root names (.directory (e.directoryMode fs (root ++ names)))) ∧
    (¬ e.unpacksDirectory → ∃ mode bytes, e.data.readToEnd = .ok bytes ∧
      FileSystem.Placed fs fs' root names (.file mode bytes)) := by
  obtain ⟨init, name, rfl⟩ : ∃ init name, names = init ++ [name] :=
    ⟨names.dropLast, names.getLast hne, (List.dropLast_append_getLast hne).symm⟩
  unfold unpackDocumented at h
  rw [hnames] at h
  simp only [List.getLast?_concat, List.dropLast_concat] at h
  split at h
  · simp at h
  · next fs₁ hmake =>
    have hmade := FileSystem.createDirAll_made hmake
    unfold unpackAt at h
    split at h
    · next hdir =>
      split at h
      · simp at h
      · next hfile =>
        obtain ⟨-, rfl⟩ := Prod.mk.inj h
        refine ⟨fun _ => ?_, fun hnot => absurd hdir hnot⟩
        refine FileSystem.made_set_placed hmade ?_ (by rw [List.append_assoc])
        intro hsome
        rw [Node.isDirectory, FileSystem.isDirectory_eq_isNone hsome]
        simpa using hfile
    · next hdir =>
      split at h
      · simp at h
      · next hnot =>
        split at h
        · next bytes hbytes =>
          obtain ⟨-, rfl⟩ := Prod.mk.inj h
          have hkind := (Bool.eq_false_iff.mpr hnot).symm
          refine ⟨fun hd => absurd hd hdir, ?_⟩
          intro _
          exact ⟨_, bytes, hbytes, FileSystem.made_set_placed hmade (fun _ => hkind) rfl⟩
        · simp at h

theorem unpackAt_node? (e : TarEntry) (fs fs₁ : FileSystem) {target loc : Location}
    (h : target ≠ loc) : (unpackAt e fs fs₁ target).2.node? loc = fs₁.node? loc := by
  unfold unpackAt
  split
  · split
    · rfl
    · rw [FileSystem.node?_set, if_neg h]
  · split
    · rfl
    · split
      · rw [FileSystem.node?_set, if_neg h]
      · rfl

theorem unpackDocumented_outside {fs : FileSystem} {root loc : Location} {e : TarEntry}
    (h : ¬ root <+: loc) : (unpackDocumented fs root e).2.node? loc = fs.node? loc := by
  unfold unpackDocumented
  split
  · rfl
  · next names hnames =>
    split
    · rfl
    · next name hlast =>
      have hmake : (FileSystem.createDirAll root (names.dropLast.map .normal) fs).2.node? loc =
          fs.node? loc := FileSystem.createDirAll_outside fs h
      split
      · next fs₁ hdirs => rwa [hdirs] at hmake
      · next fs₁ hdirs =>
        rw [hdirs] at hmake
        rw [unpackAt_node?, hmake]
        rintro rfl
        rw [List.append_assoc] at h
        exact h (List.prefix_append _ _)

def UnpackIn.documented : UnpackIn where
  run := unpackDocumented
  outside _ _ _ _ h := unpackDocumented_outside h
  parent_skipped fs root e h := by rw [unpackDocumented, normalNames?_of_parent h]
  directory_placed _ _ _ _ _ hnames hne hdir h := (unpackDocumented_placed hnames hne h).1 hdir
  file_placed _ _ _ _ _ hnames hne _ hfile h := (unpackDocumented_placed hnames hne h).2 hfile

/-- `tempfile::tempdir`: a directory at a place where nothing was. -/
structure TempDir where
  create : FileSystem → Except String Location
  fresh (fs : FileSystem) (root loc : Location) (h : create fs = .ok root) (hloc : root <+: loc) :
    fs.node? loc = none

def tempDirMode : ℕ := 0o700

/-- The directory at one given place, when nothing is there yet. -/
def TempDir.at (loc : Location) : TempDir where
  create fs :=
    if fs.table.rows.any (fun row => loc.isPrefixOf row.1) then .error IoError.alreadyExists.text
    else .ok loc
  fresh fs root loc' h hloc := by
    split at h
    · simp at h
    · next hnone =>
      obtain rfl := Except.ok.inj h
      rw [FileSystem.node?, Option.map_eq_none_iff, Table.find?_eq_none]
      rintro row hrow rfl
      exact hnone (List.any_eq_true.mpr ⟨row, hrow, by simpa using hloc⟩)

end Oath.Registry
