import Oath.Fetch.InstalledFiles
import Oath.Registry.Decision
import Oath.Registry.Manifest
import Oath.Registry.UnpackedFiles

/-! Whether the files the server assesses are those a client installs. Both trees are folds
over the entries of the archive; they differ in what an entry with an odd header or an
odd directory mode does to them. -/

namespace Oath.Registry
open Unix Contracts Fetch

/-! ## The manifest's entry -/

theorem readManifest_ok {parseJson : List UInt8 → Except String Value} {e : TarEntry}
    {manifest : Value} (h : readManifest parseJson e = .ok manifest) :
    parseJson e.data.bytes = .ok manifest := by
  unfold readManifest at h
  split at h
  · simp at h
  · next bytes hread =>
    split_ifs at h with hlong
    split at h
    · simp at h
    · next value hparse =>
      unfold EntryData.readAtMost at hread
      split_ifs at hread with hlimit
      · obtain rfl := Except.ok.inj hread
        rw [List.length_take, min_eq_left hlimit] at hlong
        omega
      · rw [← readToEnd_ok hread, hparse]
        exact congrArg _ (Except.ok.inj h)

/-- Past the manifest's entry, or with it still ahead. -/
theorem manifestLoop_ok {parseJson : List UInt8 → Except String Value} {entries : List TarEntry}
    {index : ℕ} {seen : Option Value} {manifest : Value}
    (h : manifestLoop parseJson (entries.map .ok) index seen = .ok (some manifest)) :
    (seen = some manifest ∧ ∀ e ∈ entries, components e.path ≠ manifestPath) ∨
      ∃ before e after, entries = before ++ e :: after ∧ components e.path = manifestPath ∧
        parseJson e.data.bytes = .ok manifest ∧ seen = none ∧
        ∀ e' ∈ before ++ after, components e'.path ≠ manifestPath := by
  induction entries generalizing index seen with
  | nil => exact Or.inl ⟨Except.ok.inj h, by simp⟩
  | cons e entries ih =>
    rw [List.map_cons, manifestLoop] at h
    split_ifs at h with hindex hpath hseen
    · rcases ih h with ⟨hfound, hnone⟩ | ⟨before, e', after, rfl, hat, hparse, hseen, hnone⟩
      · exact Or.inl ⟨hfound, List.forall_mem_cons.mpr ⟨hpath, hnone⟩⟩
      · exact Or.inr ⟨e :: before, e', after, rfl, hat, hparse, hseen,
          List.forall_mem_cons.mpr ⟨hpath, hnone⟩⟩
    · rw [ne_eq, not_not] at hpath
      split at h
      · simp at h
      · next value hread =>
        rcases ih h with ⟨hfound, hnone⟩ | ⟨_, _, _, _, _, _, hsome, _⟩
        · obtain rfl := Option.some.inj hfound
          exact Or.inr ⟨[], e, entries, rfl, hpath, readManifest_ok hread, by simpa using hseen,
            hnone⟩
        · simp at hsome

theorem manifestFromTarball_ok {decode : DecodeTarball}
    {parseJson : List UInt8 → Except String Value} {tarball : List UInt8} {name version : String}
    {manifest : Value} {entries : List TarEntry}
    (h : manifestFromTarball decode parseJson tarball name version = .ok manifest)
    (hentries : decode tarball = .ok (entries.map .ok)) :
    ∃ before e after, entries = before ++ e :: after ∧ components e.path = manifestPath ∧
      parseJson e.data.bytes = .ok manifest ∧
      ∀ e' ∈ before ++ after, components e'.path ≠ manifestPath := by
  unfold manifestFromTarball at h
  rw [hentries] at h
  obtain ⟨seen, hloop, h⟩ := Except.bind_eq_ok.mp h
  cases seen with
  | none => simp at h
  | some value =>
    dsimp only at h
    split_ifs at h
    obtain rfl := Except.ok.inj h
    rcases manifestLoop_ok hloop with ⟨hfalse, -⟩ | ⟨before, e, after, hsplit, hpath, hparse, -, hnone⟩
    · simp at hfalse
    · exact ⟨before, e, after, hsplit, hpath, hparse, hnone⟩

/-! ## One entry on both sides -/

/-- The files a client renames. -/
def IgnoreFile (rel : List Name) : Prop :=
  rel.getLast? = some gitignore ∨ rel.getLast? = some npmignore

instance (rel : List Name) : Decidable (IgnoreFile rel) := inferInstanceAs (Decidable (_ ∨ _))

theorem normalizeIgnore_eq_iff {relative rel : List Name} (h : ¬ IgnoreFile rel) :
    normalizeIgnore relative = rel ↔ relative = rel := by
  unfold normalizeIgnore
  split_ifs with hgit
  · constructor
    · rintro rfl
      exact absurd (Or.inr (List.getLast?_concat ..)) h
    · rintro rfl
      exact absurd (Or.inl hgit) h
  · rfl

theorem installsAt_iff {e : TarEntry} {names rel : List Name}
    (hnames : normalNames? (components e.path) = some (packageDirectory :: names))
    (hrel : ¬ IgnoreFile rel) :
    installsAt e rel ↔ e.entryType = .regular ∧ names ≠ [] ∧ names = rel := by
  unfold installsAt
  rw [safeParts_eq_normalNames?, hnames]
  simp [normalizeIgnore_eq_iff hrel, and_assoc]

theorem unpacksFileAt_iff {e : TarEntry} {names rel : List Name}
    (hnames : normalNames? (components e.path) = some (packageDirectory :: names)) :
    unpacksFileAt e (packageDirectory :: rel) ↔
      e.entryType = .regular ∧ ¬ e.unpacksDirectory ∧ names = rel := by
  unfold unpacksFileAt
  rw [hnames]
  simp [and_assoc]

theorem installsAt_nil (e : TarEntry) : ¬ installsAt e [] := by
  unfold installsAt
  split
  · next relative _ =>
    by_cases hempty : relative = []
    · simp [hempty]
    · simp [normalizeIgnore_ne_nil hempty]
  · simp

theorem foldl_last_isSome {α β : Type} (writes : α → Bool) (content : α → β) (entries : List α)
    (start : Option β) :
    (entries.foldl (fun file e => if writes e then some (content e) else file) start).isSome ↔
      start.isSome ∨ ∃ e ∈ entries, writes e := by
  induction entries generalizing start with
  | nil => simp
  | cons e entries ih =>
    rw [List.foldl_cons, ih]
    by_cases hwrites : writes e <;> simp [hwrites]

theorem foldl_last_unwritten {α β : Type} (writes : α → Bool) (content : α → β) (entries : List α)
    (start : Option β) (h : ∀ e ∈ entries, ¬ writes e) :
    entries.foldl (fun file e => if writes e then some (content e) else file) start = start := by
  induction entries generalizing start with
  | nil => rfl
  | cons e entries ih =>
    rw [List.forall_mem_cons] at h
    rw [List.foldl_cons, if_neg h.1, ih start h.2]

theorem foldl_last_congr {α β : Type} (writes writes' : α → Bool) (content : α → β)
    (entries : List α) (start : Option β) (h : ∀ e ∈ entries, writes e = writes' e) :
    entries.foldl (fun file e => if writes e then some (content e) else file) start =
      entries.foldl (fun file e => if writes' e then some (content e) else file) start := by
  induction entries generalizing start with
  | nil => rfl
  | cons e entries ih =>
    rw [List.forall_mem_cons] at h
    rw [List.foldl_cons, List.foldl_cons, h.1, ih _ h.2]

/-! ## Both trees -/

/-- The walk sees the files the client has, and the manifest is the client's. -/
structure AssessesInstalled (parseJson : List UInt8 → Except String Value) (manifest : Value)
    (server : FileSystem) (packageDir : Location) (client : FileSystem) (dest : Location) :
    Prop where
  files (rel : List Name) (h : ¬ IgnoreFile rel) :
    server.walkedFile packageDir rel = client.fileBytes? (dest ++ rel)
  manifest : ∃ bytes, client.fileBytes? (dest ++ [Analyze.packageJson]) = some bytes ∧
    parseJson bytes = .ok manifest

/-- No entry is one thing to the server and another to a client. -/
structure PlainEntries (entries : List TarEntry) : Prop where
  manifest (e : TarEntry) (he : e ∈ entries) (h : components e.path = manifestPath) :
    e.entryType = .regular
  isFile (e : TarEntry) (he : e ∈ entries) (rel : List Name) (h : installsAt e rel)
    (hrel : ¬ IgnoreFile rel) : ¬ e.unpacksDirectory
  reached (e : TarEntry) (he : e ∈ entries) (rel : List Name) (h : installsAt e rel)
    (hrel : ¬ IgnoreFile rel) : WalkReaches entries rel

section Trees
variable {entries : List TarEntry}

theorem installedFile_isSome (rel : List Name) :
    (installedFile entries rel).isSome ↔ ∃ e ∈ entries, installsAt e rel := by
  rw [installedFile, foldl_last_isSome]
  simp

theorem installedFile_nil : installedFile entries [] = none := by
  rw [← Option.not_isSome_iff_eq_none, installedFile_isSome]
  rintro ⟨e, -, hinstalls⟩
  exact installsAt_nil e hinstalls

/-- Where every installed file is a file to the server, both trees have the same files. -/
theorem unpackedFile_eq_installedFile
    (hnames : ∀ e ∈ entries, ∃ names,
      normalNames? (components e.path) = some (packageDirectory :: names))
    {rel : List Name} (hrel : ¬ IgnoreFile rel) (hne : rel ≠ [])
    (hfile : ∀ e ∈ entries, installsAt e rel → ¬ e.unpacksDirectory) :
    unpackedFile entries (packageDirectory :: rel) = installedFile entries rel := by
  apply foldl_last_congr (unpacksFileAt · (packageDirectory :: rel)) (installsAt · rel)
  intro e he
  obtain ⟨names, hpath⟩ := hnames e he
  rw [Bool.eq_iff_iff, unpacksFileAt_iff hpath, installsAt_iff hpath hrel]
  constructor
  · rintro ⟨htype, -, rfl⟩
    exact ⟨htype, hne, rfl⟩
  · rintro ⟨htype, hnonempty, rfl⟩
    exact ⟨htype, hfile e he ((installsAt_iff hpath hrel).mpr ⟨htype, hnonempty, rfl⟩), rfl⟩

theorem manifestPath_eq : manifestPath = [packageDirectory, Analyze.packageJson].map .normal := rfl

theorem packageJson_notIgnored : ¬ IgnoreFile [Analyze.packageJson] := by decide

theorem installsAt_packageJson
    (hnames : ∀ e ∈ entries, ∃ names,
      normalNames? (components e.path) = some (packageDirectory :: names) ∧
        components e.path = (packageDirectory :: names).map .normal)
    {e : TarEntry} (he : e ∈ entries) :
    installsAt e [Analyze.packageJson] ↔
      e.entryType = .regular ∧ components e.path = manifestPath := by
  obtain ⟨names, hpath, hcomponents⟩ := hnames e he
  rw [installsAt_iff hpath packageJson_notIgnored, hcomponents, manifestPath_eq,
    (List.map_injective_iff.mpr fun a b h => Component.normal.inj h).eq_iff]
  constructor
  · rintro ⟨htype, -, rfl⟩
    exact ⟨htype, rfl⟩
  · rintro ⟨htype, heq⟩
    obtain rfl := (List.cons.inj heq).2
    exact ⟨htype, by simp, rfl⟩

end Trees

/-- What is known of the two trees when all three loops accept the archive. -/
structure Trees (parseJson : List UInt8 → Except String Value) (manifest : Value)
    (entries : List TarEntry) (server : FileSystem) (packageDir : Location)
    (client : FileSystem) (dest : Location) : Prop where
  names (e : TarEntry) (he : e ∈ entries) : ∃ names,
    normalNames? (components e.path) = some (packageDirectory :: names) ∧
      components e.path = (packageDirectory :: names).map .normal
  walked (rel : List Name) : server.walkedFile packageDir rel =
    if WalkReaches entries rel then unpackedFile entries (packageDirectory :: rel) else none
  package : unpackedFile entries [packageDirectory] = none
  directory (e : TarEntry) (he : e ∈ entries) (names : List Name)
    (h : unpacksDirectoryAt e names) : unpackedFile entries names = none
  installed (rel : List Name) : client.fileBytes? (dest ++ rel) = installedFile entries rel
  manifest : ∃ before e after, entries = before ++ e :: after ∧ components e.path = manifestPath ∧
    parseJson e.data.bytes = .ok manifest ∧
      ∀ e' ∈ before ++ after, components e'.path ≠ manifestPath

section Trees
variable {parseJson : List UInt8 → Except String Value} {manifest : Value}
  {entries : List TarEntry} {server client : FileSystem} {packageDir dest : Location}

theorem Trees.assesses (h : Trees parseJson manifest entries server packageDir client dest)
    (hplain : PlainEntries entries) :
    AssessesInstalled parseJson manifest server packageDir client dest := by
  constructor
  · intro rel hrel
    rw [h.walked, h.installed]
    by_cases hne : rel = []
    · subst hne
      rw [h.package, installedFile_nil, ite_self]
    · rw [unpackedFile_eq_installedFile (fun e he => (h.names e he).imp fun _ => And.left) hrel hne
        fun e he hinstalls => hplain.isFile e he rel hinstalls hrel]
      split_ifs with hreached
      · rfl
      · symm
        rw [← Option.not_isSome_iff_eq_none, installedFile_isSome]
        rintro ⟨e, he, hinstalls⟩
        exact hreached (hplain.reached e he rel hinstalls hrel)
  · obtain ⟨before, e, after, rfl, hpath, hparse, hlast⟩ := h.manifest
    refine ⟨e.data.bytes, ?_, hparse⟩
    have he : e ∈ before ++ e :: after := by simp
    have hinstalls := (installsAt_packageJson h.names he).mpr ⟨hplain.manifest e he hpath, hpath⟩
    rw [h.installed, installedFile, List.foldl_append, List.foldl_cons, if_pos hinstalls]
    apply foldl_last_unwritten (installsAt · [Analyze.packageJson])
    intro e' he' hinstalls'
    exact hlast e' (by simp [he']) ((installsAt_packageJson h.names (by simp [he'])).mp hinstalls').2

theorem Trees.plain (h : Trees parseJson manifest entries server packageDir client dest)
    (hsame : AssessesInstalled parseJson manifest server packageDir client dest) :
    PlainEntries entries := by
  have hinstalled : ∀ rel, ¬ IgnoreFile rel → ∀ e ∈ entries, installsAt e rel →
      WalkReaches entries rel ∧ (unpackedFile entries (packageDirectory :: rel)).isSome := by
    intro rel hrel e he hinstalls
    have hsome := (installedFile_isSome rel).mpr ⟨e, he, hinstalls⟩
    rw [← h.installed, ← hsame.files rel hrel, h.walked] at hsome
    split_ifs at hsome with hreached
    · exact ⟨hreached, hsome⟩
    · simp at hsome
  constructor
  · -- a manifest that is not a regular file is not installed
    intro e he hpath
    obtain ⟨bytes, hbytes, -⟩ := hsame.manifest
    rw [h.installed] at hbytes
    have hsome : (installedFile entries [Analyze.packageJson]).isSome := by rw [hbytes]; rfl
    obtain ⟨e', he', hinstalls⟩ := (installedFile_isSome _).mp hsome
    obtain ⟨htype, hpath'⟩ := (installsAt_packageJson h.names he').mp hinstalls
    obtain ⟨before, e₀, after, rfl, -, -, hother⟩ := h.manifest
    have honly : ∀ e' ∈ before ++ e₀ :: after, components e'.path = manifestPath → e' = e₀ := by
      intro e' he' hpath'
      by_contra hne
      refine hother e' ?_ hpath'
      simpa [hne] using he'
    rwa [honly e he hpath, ← honly e' he' hpath']
  · intro e he rel hinstalls hrel hdir
    obtain ⟨names, hnames, -⟩ := h.names e he
    obtain ⟨-, -, rfl⟩ := (installsAt_iff hnames hrel).mp hinstalls
    have hnone := h.directory e he (packageDirectory :: names) (by simp [unpacksDirectoryAt, hdir, hnames])
    have hsome := (hinstalled names hrel e he hinstalls).2
    rw [hnone] at hsome
    simp at hsome
  · intro e he rel hinstalls hrel
    exact (hinstalled rel hrel e he hinstalls).1

end Trees

/-- A gzip tarball with `package/package.json`, `package/lib/a.js` and, after it, the directory
`package/lib/` without any permission. -/
def hiddenTarball : List UInt8 :=
  [31, 139, 8, 0, 0, 0, 0, 0, 2, 255, 237, 211, 189, 10, 194, 48, 16, 192, 241, 204, 62, 69, 201,
    164, 32, 201, 69, 210, 27, 124, 155, 84, 131, 84, 109, 82, 146, 214, 69, 124, 119, 227, 7, 72,
    11, 226, 98, 58, 232, 253, 150, 59, 110, 185, 233, 223, 154, 205, 193, 236, 172, 108, 31, 83,
    236, 163, 119, 236, 203, 32, 65, 173, 239, 51, 25, 79, 0, 173, 94, 251, 237, 174, 20, 174, 20,
    43, 128, 77, 160, 143, 157, 9, 233, 61, 251, 79, 103, 238, 76, 99, 249, 154, 111, 109, 227,
    249, 146, 159, 108, 136, 181, 119, 233, 160, 4, 8, 224, 23, 70, 126, 217, 179, 123, 121, 172,
    43, 105, 82, 253, 57, 126, 124, 236, 31, 112, 212, 63, 32, 2, 245, 63, 133, 208, 187, 249, 98,
    70, 29, 80, 255, 149, 204, 245, 227, 77, 247, 195, 230, 135, 253, 3, 150, 172, 40, 169, 127,
    66, 8, 201, 230, 10, 225, 159, 135, 226, 0, 14, 0, 0]

def hiddenPackageJson : List UInt8 :=
  asBytes "\x7b\"name\":\"demo\",\"version\":\"1.0.0\"\x7d"

def hiddenManifest : Value := Value.json [("name", .string "demo"), ("version", .string "1.0.0")]

def hiddenEntries : List TarEntry := [
  { entryType := .regular
    path := asBytes "package/package.json"
    size := 33
    ustar := true
    mode := some 0o644
    data := { bytes := hiddenPackageJson } },
  { entryType := .regular
    path := asBytes "package/lib/a.js"
    size := 6
    ustar := true
    mode := some 0o644
    data := { bytes := asBytes "run()\n" } },
  { entryType := .directory
    path := asBytes "package/lib/"
    size := 0
    ustar := true
    mode := some 0
    data := { bytes := [] } }]

def hiddenEnv : AssessEnv := hostEnv hiddenTarball hiddenEntries hiddenPackageJson hiddenManifest

def clientDir : Location := [asBytes "tmp", asBytes "oath-client"]

theorem hiddenManifest_ok :
    manifestFromTarball hiddenEnv.decode hiddenEnv.parseJson hiddenTarball "demo" "1.0.0" =
      .ok hiddenManifest := by
  have hisOk : (manifestFromTarball hiddenEnv.decode hiddenEnv.parseJson hiddenTarball
      "demo" "1.0.0").isOk = true := by decide +kernel
  cases hmanifest : manifestFromTarball hiddenEnv.decode hiddenEnv.parseJson hiddenTarball
      "demo" "1.0.0" with
  | error error =>
    rw [hmanifest] at hisOk
    simp [Except.isOk, Except.toBool] at hisOk
  | ok manifest =>
    have hdecode : hiddenEnv.decode hiddenTarball = .ok (hiddenEntries.map .ok) := by
      decide +kernel
    obtain ⟨_, _, _, -, -, hparse, -⟩ := manifestFromTarball_ok hmanifest hdecode
    rw [hostEnv_parseJson hparse]

theorem hiddenRuns : ∃ bundle server client,
    assessTarball hiddenEnv hiddenTarball hiddenManifest "demo" "1.0.0" "acme"
      "https://registry.example" emptyHost = .ok bundle server ∧
    manifestFromTarball hiddenEnv.decode hiddenEnv.parseJson hiddenTarball "demo" "1.0.0" =
      .ok hiddenManifest ∧
    extractTarball hiddenEnv.decode hiddenTarball clientDir {} emptyHost = .ok () client ∧
    server.walkedFile (hostTempDir ++ [packageDirectory]) [asBytes "lib", asBytes "a.js"] = none ∧
    client.fileBytes? (clientDir ++ [asBytes "lib", asBytes "a.js"]) = some (asBytes "run()\n") := by
  have hserver : ((assessTarball hiddenEnv hiddenTarball hiddenManifest "demo" "1.0.0" "acme"
      "https://registry.example" emptyHost).okState?.map fun server =>
        server.walkedFile (hostTempDir ++ [packageDirectory]) [asBytes "lib", asBytes "a.js"]) =
      some none := by decide +kernel
  have hclient : ((extractTarball hiddenEnv.decode hiddenTarball clientDir {}
      emptyHost).okState?.map fun client =>
        client.fileBytes? (clientDir ++ [asBytes "lib", asBytes "a.js"])) =
      some (some (asBytes "run()\n")) := by decide +kernel
  obtain ⟨server, hassess, hwalked⟩ := Option.map_eq_some_iff.mp hserver
  obtain ⟨client, hextract, hfile⟩ := Option.map_eq_some_iff.mp hclient
  obtain ⟨bundle, hassess⟩ := EStateM.Result.okState?_eq_some.mp hassess
  obtain ⟨_, hextract⟩ := EStateM.Result.okState?_eq_some.mp hextract
  exact ⟨bundle, server, client, hassess, hiddenManifest_ok, hextract, hwalked, hfile⟩

end Oath.Registry
