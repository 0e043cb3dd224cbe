import Oath.Registry.Containment

/-! The tree the server's extraction loop leaves when no entry has `..` in its path: for
every path the data of the last file entry and the mode of the last directory entry. -/

namespace Oath.Registry
open Unix FileSystem

def unpacksFileAt (e : TarEntry) (names : List Name) : Bool :=
  e.entryType == .regular && !e.unpacksDirectory && normalNames? (components e.path) == some names

def unpacksDirectoryAt (e : TarEntry) (names : List Name) : Bool :=
  e.unpacksDirectory && normalNames? (components e.path) == some names

def unpackedFile (entries : List TarEntry) (names : List Name) : Option (List UInt8) :=
  entries.foldl (fun file e => if unpacksFileAt e names then some e.data.bytes else file) none

def unpackedMode (entries : List TarEntry) (names : List Name) : ℕ :=
  entries.foldl (fun mode e =>
    if unpacksDirectoryAt e names then (e.mode.map (· &&& 0o777)).getD mode else mode) newDirMode

theorem directoryMode_eq (e : TarEntry) (fs : FileSystem) (loc : Location) :
    e.directoryMode fs loc = (e.mode.map (· &&& 0o777)).getD (fs.dirMode loc) := by
  unfold TarEntry.directoryMode dirMode
  cases e.mode with
  | some mode => rfl
  | none =>
    cases fs.node? loc with
    | none => rfl
    | some node => cases node <;> rfl

/-! ## Every entry is placed -/

theorem head?_of_checked {e : TarEntry} (h : EntryChecked e) :
    (components e.path).head? = some (.normal packageDirectory) := by
  have hprefix := List.isPrefixOf_iff_prefix.mp h.startsWith
  obtain ⟨rest, hrest⟩ := hprefix
  rw [← hrest]
  rfl

theorem names_of_checked {e : TarEntry} {names : List Name} (h : EntryChecked e)
    (hnames : normalNames? (components e.path) = some names) :
    components e.path = names.map .normal ∧ ∃ rest, names = packageDirectory :: rest := by
  have hhead := head?_of_checked h
  have hcomponents := components_eq_map_normal hhead hnames
  refine ⟨hcomponents, ?_⟩
  rw [hcomponents] at hhead
  cases names with
  | nil => simp at hhead
  | cons name rest =>
    obtain rfl : name = packageDirectory := by simpa using hhead
    exact ⟨rest, rfl⟩

theorem not_unpacksDirectory_of_endsInName {e : TarEntry} (htype : e.entryType = .regular)
    (h : endsInName e.path) : ¬ e.unpacksDirectory := by
  unfold TarEntry.unpacksDirectory
  simp [htype, getLast?_of_endsInName h]

theorem writeExtracted_placed {root : Location} {path bytes : List UInt8} {names : List Name}
    {fs fs' : FileSystem} (hcomponents : components path = names.map .normal)
    (hne : names ≠ []) (h : writeExtracted root path bytes fs = .ok () fs') :
    endsInName path ∧ ∃ mode, Placed fs fs' root names (.file mode bytes) := by
  obtain ⟨fs₁, name, mode, hmake, -, hends, hnot, hset⟩ := writeExtracted_ok h
  refine ⟨hends, mode, ?_⟩
  obtain ⟨init, last, rfl⟩ : ∃ init last, names = init ++ [last] :=
    ⟨names.dropLast, names.getLast hne, (List.dropLast_append_getLast hne).symm⟩
  rw [hcomponents] at hmake hnot hset
  rw [List.map_append, List.map_singleton, List.dropLast_concat] at hmake
  rw [resolve_normal, ← List.append_assoc] at hnot hset
  exact made_set_placed (createDirAll_made hmake) (fun _ => (Bool.eq_false_iff.mpr hnot).symm) hset

/-- Unpacking entries one after the other, every one at its place below `root`. -/
inductive Placements (root : Location) : List TarEntry → FileSystem → FileSystem → Prop
  | nil {fs : FileSystem} : Placements root [] fs fs
  | directory {e : TarEntry} {rest : List TarEntry} {names : List Name} {fs fs₁ fs' : FileSystem}
    (hnames : normalNames? (components e.path) = some names) (hdir : e.unpacksDirectory)
    (hplaced : Placed fs fs₁ root names (.directory (e.directoryMode fs (root ++ names))))
    (hrest : Placements root rest fs₁ fs') : Placements root (e :: rest) fs fs'
  | file {e : TarEntry} {rest : List TarEntry} {names : List Name} {mode : ℕ}
    {fs fs₁ fs' : FileSystem} (hnames : normalNames? (components e.path) = some names)
    (htype : e.entryType = .regular) (hfile : ¬ e.unpacksDirectory)
    (hplaced : Placed fs fs₁ root names (.file mode e.data.bytes))
    (hrest : Placements root rest fs₁ fs') : Placements root (e :: rest) fs fs'

theorem extraction_placements {env : AssessEnv} {root : Location} {entries : List TarEntry}
    {found : List String} {fs fs' : FileSystem} (h : Extraction env root entries fs found fs')
    (hsafe : ∀ e ∈ entries, ∃ names, normalNames? (components e.path) = some names) :
    Placements root entries fs fs' := by
  induction h with
  | nil => exact .nil
  | @cons e rest found more fs fs₁ fs' hchecked hstep hrest ih =>
    rw [List.forall_mem_cons] at hsafe
    obtain ⟨⟨names, hnames⟩, hsafe⟩ := hsafe
    obtain ⟨hcomponents, package, rfl⟩ := names_of_checked hchecked hnames
    have hne : packageDirectory :: package ≠ [] := List.cons_ne_nil _ _
    cases hstep with
    | @searched bytes _ hsearched hbytes hwrite =>
      have htype := (isSearched_iff.mp hsearched).1
      obtain ⟨hends, mode, hplaced⟩ := writeExtracted_placed hcomponents hne hwrite
      have hfile := not_unpacksDirectory_of_endsInName htype hends
      rw [readToEnd_ok hbytes] at hplaced
      exact .file hnames htype hfile hplaced (ih hsafe)
    | unpacked hsearched hunpack =>
      by_cases hdir : e.unpacksDirectory
      · exact .directory hnames hdir
          (env.unpackIn.directory_placed fs fs₁ root e _ hnames hne hdir hunpack) (ih hsafe)
      · have htype : e.entryType = .regular := by
          rcases hchecked.entryType with htype | htype
          · exact htype
          · simp [TarEntry.unpacksDirectory, htype] at hdir
        obtain ⟨mode, bytes, hbytes, hplaced⟩ :=
          env.unpackIn.file_placed fs fs₁ root e _ hnames hne htype hdir hunpack
        rw [readToEnd_ok hbytes] at hplaced
        exact .file hnames htype hdir hplaced (ih hsafe)

/-! ## The tree -/

theorem placements_fileBytes? {root : Location} {entries : List TarEntry} {fs fs' : FileSystem}
    (h : Placements root entries fs fs') (names : List Name) :
    fs'.fileBytes? (root ++ names) = entries.foldl
      (fun file e => if unpacksFileAt e names then some e.data.bytes else file)
      (fs.fileBytes? (root ++ names)) := by
  induction h with
  | nil => rfl
  | directory hnames hdir hplaced hrest ih =>
    rw [ih, List.foldl_cons, hplaced.fileBytes?_directory]
    simp [unpacksFileAt, hdir]
  | @file e rest place mode fs fs₁ fs' hnames htype hfile hplaced hrest ih =>
    rw [ih, List.foldl_cons, hplaced.fileBytes?_file]
    by_cases heq : names = place
    · simp [unpacksFileAt, htype, hfile, hnames, heq]
    · simp [unpacksFileAt, hnames, heq, Ne.symm heq]

theorem placements_dirMode {root : Location} {entries : List TarEntry} {fs fs' : FileSystem}
    (h : Placements root entries fs fs') (names : List Name) :
    fs'.dirMode (root ++ names) = entries.foldl
      (fun mode e =>
        if unpacksDirectoryAt e names then (e.mode.map (· &&& 0o777)).getD mode else mode)
      (fs.dirMode (root ++ names)) := by
  induction h with
  | nil => rfl
  | @directory e rest place fs fs₁ fs' hnames hdir hplaced hrest ih =>
    rw [ih, List.foldl_cons, hplaced.dirMode_directory, directoryMode_eq]
    by_cases heq : names = place
    · subst heq
      simp [unpacksDirectoryAt, hdir, hnames]
    · simp [unpacksDirectoryAt, hnames, heq, Ne.symm heq]
  | file hnames htype hfile hplaced hrest ih =>
    rw [ih, List.foldl_cons, hplaced.dirMode_file]
    simp [unpacksDirectoryAt, hfile]

theorem placements_rooted {root : Location} {entries : List TarEntry} {fs fs' : FileSystem}
    (h : Placements root entries fs fs') (hrooted : fs.Rooted root) : fs'.Rooted root := by
  induction h with
  | nil => exact hrooted
  | directory hnames hdir hplaced hrest ih => exact ih (hplaced.rooted hrooted)
  | file hnames htype hfile hplaced hrest ih => exact ih (hplaced.rooted hrooted)

theorem placements_isDirectory {root loc : Location} {entries : List TarEntry}
    {fs fs' : FileSystem} (h : Placements root entries fs fs') (hloc : fs.isDirectory loc) :
    fs'.isDirectory loc := by
  induction h with
  | nil => exact hloc
  | directory hnames hdir hplaced hrest ih => exact ih (hplaced.isDirectory_of hloc)
  | file hnames htype hfile hplaced hrest ih => exact ih (hplaced.isDirectory_of hloc)

theorem placements_node? {root loc : Location} {entries : List TarEntry} {fs fs' : FileSystem}
    (h : Placements root entries fs fs') (hloc : fs.node? loc ≠ none) : fs'.node? loc ≠ none := by
  induction h with
  | nil => exact hloc
  | directory hnames hdir hplaced hrest ih => exact ih (hplaced.node?_of hloc)
  | file hnames htype hfile hplaced hrest ih => exact ih (hplaced.node?_of hloc)

theorem placements_placed {root : Location} {entries : List TarEntry} {names : List Name}
    {e : TarEntry} {fs fs' : FileSystem} (h : Placements root entries fs fs') (he : e ∈ entries)
    (hat : normalNames? (components e.path) = some names) : fs'.node? (root ++ names) ≠ none := by
  induction h with
  | nil => simp at he
  | directory hnames hdir hplaced hrest ih =>
    rcases List.mem_cons.mp he with rfl | he
    · obtain rfl := Option.some.inj (hnames.symm.trans hat)
      exact placements_node? hrest (by simp [hplaced.node?_target])
    · exact ih he
  | file hnames htype hfile hplaced hrest ih =>
    rcases List.mem_cons.mp he with rfl | he
    · obtain rfl := Option.some.inj (hnames.symm.trans hat)
      exact placements_node? hrest (by simp [hplaced.node?_target])
    · exact ih he

/-- The place of a directory entry is a directory in the end. -/
theorem placements_directory {root : Location} {entries : List TarEntry} {names : List Name}
    {e : TarEntry} {fs fs' : FileSystem} (h : Placements root entries fs fs') (he : e ∈ entries)
    (hat : unpacksDirectoryAt e names) : fs'.isDirectory (root ++ names) := by
  simp only [unpacksDirectoryAt, Bool.and_eq_true, beq_iff_eq] at hat
  induction h with
  | nil => simp at he
  | directory hnames hdir hplaced hrest ih =>
    rcases List.mem_cons.mp he with rfl | he
    · obtain rfl := Option.some.inj (hnames.symm.trans hat.2)
      exact placements_isDirectory hrest (isDirectory_iff.mpr ⟨_, hplaced.node?_target⟩)
    · exact ih he
  | file hnames htype hfile hplaced hrest ih =>
    rcases List.mem_cons.mp he with rfl | he
    · exact absurd hat.1 hfile
    · exact ih he

/-! ## From the empty temporary directory -/

section Empty
variable {env : AssessEnv} {fs fs' : FileSystem} {root : Location} {entries : List TarEntry}

theorem withTempDir_node? (hroot : env.tempdir.create fs = .ok root) {names : List Name}
    (hne : names ≠ []) : (withTempDir fs root).node? (root ++ names) = none := by
  rw [withTempDir, node?_set, if_neg (by simpa using hne)]
  exact env.tempdir.fresh fs root _ hroot (List.prefix_append _ _)

theorem withTempDir_rooted (hroot : env.tempdir.create fs = .ok root) :
    (withTempDir fs root).Rooted root := by
  rintro loc above ⟨names, rfl⟩ hloc habove -
  by_cases hne : names = []
  · subst hne
    exact absurd habove (not_onTheWay_nil root above)
  · exact absurd (withTempDir_node? hroot hne) hloc

theorem unpackedFile_eq (hroot : env.tempdir.create fs = .ok root)
    (h : Placements root entries (withTempDir fs root) fs') (names : List Name) :
    fs'.fileBytes? (root ++ names) = unpackedFile entries names := by
  rw [placements_fileBytes? h, withTempDir_fileBytes? env fs hroot, fileBytes?,
    env.tempdir.fresh fs root _ hroot (List.prefix_append _ _), unpackedFile]

theorem unpackedMode_eq (hroot : env.tempdir.create fs = .ok root)
    (h : Placements root entries (withTempDir fs root) fs') {names : List Name}
    (hne : names ≠ []) : fs'.dirMode (root ++ names) = unpackedMode entries names := by
  rw [placements_dirMode h, dirMode, withTempDir_node? hroot hne, unpackedMode]

end Empty

/-! ## What the scanner's walk sees -/

/-- The walk of the package gets down to `rel`: the directories on the way can be listed
and, but for the last, searched. -/
def WalkReaches (entries : List TarEntry) (rel : List Name) : Prop :=
  ∀ k < rel.length, readable (unpackedMode entries (packageDirectory :: rel.take k)) ∧
    (k + 1 = rel.length ∨ searchable (unpackedMode entries (packageDirectory :: rel.take k)))

instance (entries : List TarEntry) (rel : List Name) : Decidable (WalkReaches entries rel) :=
  Nat.decidableBallLT _ _

theorem walkedFile_eq {env : AssessEnv} {fs fs' : FileSystem} {root : Location}
    {entries : List TarEntry} (hroot : env.tempdir.create fs = .ok root)
    (h : Placements root entries (withTempDir fs root) fs') (rel : List Name) :
    fs'.walkedFile (root ++ [packageDirectory]) rel =
      if WalkReaches entries rel then unpackedFile entries (packageDirectory :: rel) else none := by
  have hassoc : ∀ names, root ++ [packageDirectory] ++ names = root ++ packageDirectory :: names :=
    fun names => by rw [List.append_assoc, List.singleton_append]
  have hfile := unpackedFile_eq hroot h (packageDirectory :: rel)
  cases hbytes : unpackedFile entries (packageDirectory :: rel) with
  | none =>
    rw [ite_self]
    exact walkedFile_of_none (by rw [hassoc, hfile, hbytes])
  | some bytes =>
    rw [hbytes] at hfile
    rw [walkedFile_of_some (by rw [hassoc, hfile])]
    have hdirs : ∀ k < rel.length,
        fs'.isDirectory (root ++ [packageDirectory] ++ rel.take k) := by
      intro k hk
      obtain ⟨mode, hnode⟩ := fileBytes?_eq_some.mp hfile
      have hlt : (rel.take k).length < rel.length := by rwa [List.length_take, min_eq_left hk.le]
      rw [hassoc]
      refine placements_rooted h (withTempDir_rooted hroot) (root ++ packageDirectory :: rel) _
        (List.prefix_append _ _) (by simp [hnode]) ⟨?_, ?_⟩ ?_
      · exact (List.prefix_append_right_inj _).mpr
          ((List.prefix_cons_inj _).mpr (List.take_prefix k rel))
      · simp
      · intro heq
        have := congrArg List.length heq
        simp only [List.length_append, List.length_cons] at this
        omega
    have hlisted : fs'.listed (root ++ [packageDirectory]) rel ↔ WalkReaches entries rel := by
      rw [listed_iff hdirs]
      unfold WalkReaches
      apply forall₂_congr
      intro k _
      rw [hassoc, unpackedMode_eq hroot h (List.cons_ne_nil _ _)]
    simp only [hlisted]

end Oath.Registry
