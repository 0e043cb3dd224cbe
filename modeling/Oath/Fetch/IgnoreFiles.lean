import Oath.Fetch.InstalledFiles

/-! The `.npmignore` of an extracted directory, which a `.gitignore` of the archive is written over
when it comes later. -/

namespace Oath.Fetch
open Unix Registry

/-- The last member with a property. -/
def LastOf {α : Type} (P : α → Prop) (xs : List α) (x : α) : Prop :=
  ∃ front back, xs = front ++ x :: back ∧ P x ∧ ∀ y ∈ back, ¬P y

section Last
variable {α β : Type} {P Q : α → Prop} {xs : List α} {x y : α}

theorem exists_lastOf (h : ∃ x ∈ xs, P x) : ∃ x, LastOf P xs x := by
  induction xs with
  | nil =>
    obtain ⟨x, hx, -⟩ := h
    exact absurd hx List.not_mem_nil
  | cons a xs ih =>
    by_cases hrest : ∃ x ∈ xs, P x
    · obtain ⟨x, front, back, rfl, hx, hback⟩ := ih hrest
      exact ⟨x, a :: front, back, rfl, hx, hback⟩
    · obtain ⟨x, hx, hP⟩ := h
      rcases List.mem_cons.mp hx with rfl | hmem
      · exact ⟨x, [], xs, rfl, hP, fun y hy hPy => hrest ⟨y, hy, hPy⟩⟩
      · exact absurd ⟨x, hmem, hP⟩ hrest

theorem LastOf.mem (h : LastOf P xs x) : x ∈ xs := by
  obtain ⟨front, back, rfl, -, -⟩ := h
  exact List.mem_append_right _ List.mem_cons_self

theorem LastOf.holds (h : LastOf P xs x) : P x := by
  obtain ⟨-, -, -, hx, -⟩ := h
  exact hx

theorem LastOf.congr (h : LastOf P xs x) (hiff : ∀ y, P y ↔ Q y) : LastOf Q xs x := by
  obtain ⟨front, back, rfl, hx, hback⟩ := h
  exact ⟨front, back, rfl, (hiff x).mp hx, fun y hy hQ => hback y hy ((hiff y).mpr hQ)⟩

/-- What is written at every member with the property is the last of it. -/
theorem foldl_of_lastOf [DecidablePred P] (f : α → β) (h : LastOf P xs x) (start : β) :
    xs.foldl (fun kept a => if P a then f a else kept) start = f x := by
  obtain ⟨front, back, rfl, hx, hback⟩ := h
  have hkept : ∀ kept, back.foldl (fun kept a => if P a then f a else kept) kept = kept := by
    intro kept
    induction back with
    | nil => rfl
    | cons a back ih =>
      obtain ⟨ha, hrest⟩ := List.forall_mem_cons.mp hback
      rw [List.foldl_cons, if_neg ha]
      exact ih hrest
  rw [List.foldl_append, List.foldl_cons, if_pos hx, hkept]

theorem LastOf.unique (h : LastOf P xs x) (h' : LastOf P xs y) : x = y := by
  classical
  have hx := foldl_of_lastOf some h none
  have hy := foldl_of_lastOf some h' none
  exact Option.some.inj (hx.symm.trans hy)

end Last

/-! ## The files of an archive -/

/-- The path of a file below the leading directory. -/
def filePath? (e : TarEntry) : Option (List Name) :=
  if e.entryType = .regular then
    (safeParts (components e.path)).bind fun parts =>
      if (parts.drop 1).isEmpty then none else some (parts.drop 1)
  else none

def IsFileAt (rel : List Name) (e : TarEntry) : Prop := filePath? e = some rel

instance (rel : List Name) (e : TarEntry) : Decidable (IsFileAt rel e) :=
  inferInstanceAs (Decidable (_ = _))

/-- The entry is a file with one of the two names in the directory. -/
def IsIgnoreFile (dir : List Name) (e : TarEntry) : Prop :=
  IsFileAt (dir ++ [gitignore]) e ∨ IsFileAt (dir ++ [npmignore]) e

instance (dir : List Name) (e : TarEntry) : Decidable (IsIgnoreFile dir e) :=
  inferInstanceAs (Decidable (_ ∨ _))

section Archive
variable {decode : DecodeTarball} {data : List UInt8} {dest : Location} {limits : TarballLimits}
  {entries : List TarEntry} {fs fs' : FileSystem} {e : TarEntry} {rel dir : List Name}

theorem installsAt_iff :
    installsAt e rel ↔ ∃ path, IsFileAt path e ∧ normalizeIgnore path = rel := by
  unfold installsAt IsFileAt filePath?
  cases safeParts (components e.path) with
  | none => simp
  | some parts =>
    cases parts with
    | nil => simp
    | cons first relative =>
      by_cases htype : e.entryType = .regular
      · cases relative <;> simp [htype]
      · simp [htype]

/-- Two names become `.npmignore`. -/
theorem normalizeIgnore_eq_iff {path : List Name} : normalizeIgnore path = dir ++ [npmignore] ↔
    path = dir ++ [gitignore] ∨ path = dir ++ [npmignore] := by
  have hne : npmignore ≠ gitignore := by decide
  have hlast : ∀ name, path = dir ++ [name] → path.getLast? = some name := by
    rintro name rfl
    exact List.getLast?_concat
  unfold normalizeIgnore
  split_ifs with hgit
  · have hnot : path ≠ dir ++ [npmignore] := by
      intro heq
      exact hne (Option.some.inj ((hlast npmignore heq).symm.trans hgit))
    have hpath : path = path.dropLast ++ [gitignore] :=
      (List.dropLast_append_getLast? gitignore hgit).symm
    rw [or_iff_left hnot]
    constructor
    · intro heq
      rw [hpath, List.append_cancel_right heq]
    · intro heq
      rw [heq, List.dropLast_concat]
  · have hnot : path ≠ dir ++ [gitignore] := fun heq => hgit (hlast gitignore heq)
    rw [or_iff_right hnot]

theorem installsAt_npmignore :
    installsAt e (dir ++ [npmignore]) ↔ IsIgnoreFile dir e := by
  rw [installsAt_iff]
  constructor
  · rintro ⟨path, hfile, hpath⟩
    rcases normalizeIgnore_eq_iff.mp hpath with rfl | rfl
    · exact Or.inl hfile
    · exact Or.inr hfile
  · rintro (hfile | hfile)
    · exact ⟨_, hfile, normalizeIgnore_eq_iff.mpr (Or.inl rfl)⟩
    · exact ⟨_, hfile, normalizeIgnore_eq_iff.mpr (Or.inr rfl)⟩

theorem entries_of_extractLoop {items : List (Except String TarEntry)} {count unpacked : ℕ}
    (h : extractLoop dest limits items count unpacked fs = .ok () fs') :
    ∃ entries : List TarEntry, items = entries.map .ok := by
  induction items generalizing count unpacked fs with
  | nil => exact ⟨[], rfl⟩
  | cons item items ih =>
    unfold extractLoop at h
    dsimp only at h
    split_ifs at h
    · cases h
    · cases item with
      | error message => cases h
      | ok e =>
        obtain ⟨_, _, _, hrest⟩ := EStateM.bind_eq_ok.mp h
        obtain ⟨entries, rfl⟩ := ih hrest
        exact ⟨e :: entries, rfl⟩

/-- An extraction that succeeds goes through an archive whose entries can all be read. -/
theorem extractTarball_loop (h : extractTarball decode data dest limits fs = .ok () fs') :
    ∃ (entries : List TarEntry) (fs₁ : FileSystem), decode data = .ok (entries.map .ok) ∧
      extractLoop dest limits (entries.map .ok) 0 0 fs₁ = .ok () fs' := by
  unfold extractTarball at h
  split_ifs at h
  · cases h
  · obtain ⟨_, fs₁, -, h1⟩ := EStateM.bind_eq_ok.mp h
    cases hdecode : decode data with
    | error message =>
      rw [hdecode] at h1
      cases h1
    | ok items =>
      rw [hdecode] at h1
      obtain ⟨entries, rfl⟩ := entries_of_extractLoop h1
      exact ⟨entries, fs₁, rfl, h1⟩

/-- The `.npmignore` of a directory is what its last ignore file holds. -/
theorem npmignore_of_lastOf (h : extractTarball decode data dest limits fs = .ok () fs')
    (hentries : decode data = .ok (entries.map .ok)) (hlast : LastOf (IsIgnoreFile dir) entries e) :
    fs'.fileBytes? (dest ++ (dir ++ [npmignore])) = some e.data.bytes := by
  obtain ⟨entries', fs₁, hdecode, hloop⟩ := extractTarball_loop h
  have hsame : entries'.map (Except.ok : TarEntry → Except String TarEntry) = entries.map .ok :=
    Except.ok.inj (hdecode.symm.trans hentries)
  obtain ⟨-, hfiles⟩ := extractLoop_ok hloop
  obtain rfl : entries' = entries :=
    (List.map_injective_iff.mpr fun _ _ heq => Except.ok.inj heq) hsame
  rw [hfiles (dir ++ [npmignore])]
  exact foldl_of_lastOf (fun e => some e.data.bytes)
    (hlast.congr fun _ => installsAt_npmignore.symm) _

/-- The extracted directory has the `.npmignore` of the archive exactly when the last of its ignore
files is this one, or a `.gitignore` with the same content. -/
theorem npmignore_kept_iff {npm : TarEntry}
    (h : extractTarball decode data dest limits fs = .ok () fs')
    (hentries : decode data = .ok (entries.map .ok))
    (hnpm : LastOf (IsFileAt (dir ++ [npmignore])) entries npm) :
    fs'.fileBytes? (dest ++ (dir ++ [npmignore])) = some npm.data.bytes ↔
      ∀ late, LastOf (IsIgnoreFile dir) entries late → late.data.bytes = npm.data.bytes := by
  constructor
  · intro hbytes late hlate
    exact Option.some.inj ((npmignore_of_lastOf h hentries hlate).symm.trans hbytes)
  · intro hsame
    have hin : IsIgnoreFile dir npm := Or.inr hnpm.holds
    obtain ⟨late, hlate⟩ := exists_lastOf ⟨npm, hnpm.mem, hin⟩
    rw [npmignore_of_lastOf h hentries hlate, hsame late hlate]

end Archive

/-! ## One archive in two orders -/

section Orders

def ignoreEntry (path content : String) : TarEntry where
  entryType := .regular
  path := asBytes path
  size := 2
  ustar := true
  mode := some 0o644
  data := { bytes := asBytes content }

def npmEntry : TarEntry := ignoreEntry "package/.npmignore" "a\n"

def gitEntry : TarEntry := ignoreEntry "package/.gitignore" "b\n"

def rootOnly : FileSystem := (FileSystem.mk Table.empty).set [] (.directory 0o755)

def decodeAs (entries : List TarEntry) : DecodeTarball := fun _ => .ok (entries.map .ok)

theorem extract_ignoreFiles (entries : List TarEntry)
    (h : ((extractTarball (decodeAs entries) [] [] {} rootOnly).okState?).isSome) :
    ∃ fs', extractTarball (decodeAs entries) [] [] {} rootOnly = .ok () fs' := by
  obtain ⟨fs', hfs'⟩ := Option.isSome_iff_exists.mp h
  obtain ⟨_, hok⟩ := EStateM.Result.okState?_eq_some.mp hfs'
  exact ⟨fs', hok⟩

theorem npmignore_kept_last : ∃ fs',
    extractTarball (decodeAs [gitEntry, npmEntry]) [] [] {} rootOnly = .ok () fs' ∧
      fs'.fileBytes? ([] ++ ([] ++ [npmignore])) = some npmEntry.data.bytes := by
  obtain ⟨fs', h⟩ := extract_ignoreFiles [gitEntry, npmEntry] (by decide)
  have hnpm : LastOf (IsFileAt ([] ++ [npmignore])) [gitEntry, npmEntry] npmEntry :=
    ⟨[gitEntry], [], rfl, by decide, fun _ hmem => absurd hmem List.not_mem_nil⟩
  have hlast : LastOf (IsIgnoreFile []) [gitEntry, npmEntry] npmEntry :=
    ⟨[gitEntry], [], rfl, by decide, fun _ hmem => absurd hmem List.not_mem_nil⟩
  refine ⟨fs', h, (npmignore_kept_iff h rfl hnpm).mpr fun late hlate => ?_⟩
  rw [hlate.unique hlast]

/-- The `.gitignore` comes last and takes the place of the file. -/
theorem npmignore_lost : ∃ fs',
    extractTarball (decodeAs [npmEntry, gitEntry]) [] [] {} rootOnly = .ok () fs' ∧
      LastOf (IsFileAt ([] ++ [npmignore])) [npmEntry, gitEntry] npmEntry ∧
      fs'.fileBytes? ([] ++ ([] ++ [npmignore])) = some gitEntry.data.bytes ∧
      gitEntry.data.bytes ≠ npmEntry.data.bytes := by
  obtain ⟨fs', h⟩ := extract_ignoreFiles [npmEntry, gitEntry] (by decide)
  have hlast : LastOf (IsIgnoreFile []) [npmEntry, gitEntry] gitEntry :=
    ⟨[npmEntry], [], rfl, by decide, fun _ hmem => absurd hmem List.not_mem_nil⟩
  refine ⟨fs', h, ⟨[], [gitEntry], rfl, by decide, by decide⟩, ?_, by decide⟩
  exact npmignore_of_lastOf h rfl hlast

end Orders

end Oath.Fetch
