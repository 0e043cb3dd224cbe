import Oath.Cli.PublishAssessment
import Oath.Cli.TransferCompleteness
import Oath.Library.Words
import Oath.Registry.Decision

/-! The publisher's search for secrets and the one of the registry, over the same files: where
they agree on whether there is something to report. -/

namespace Oath.Cli
open Contracts Registry Unix Analyze

/-! ## Paths -/

/-- What both searches look for in a lowercase path, a file `.env` at the root aside. -/
def SensitiveWords (path : List Char) : Prop :=
  "/.env".toList <:+ path ∨ ".pem".toList <:+ path ∨ "id_rsa".toList <:+ path ∨
    ".npmrc".toList <:+ path ∨ "credentials".toList <:+: path

theorem sensitivePath_iff (path : List Char) : sensitivePath path ↔ SensitiveWords path := by
  unfold sensitivePath SensitiveWords containsStr
  simp only [Bool.or_eq_true, List.isSuffixOf_iff_suffix, decide_eq_true_eq, or_assoc]

theorem looksSensitivePath_iff (path : List Char) : looksSensitivePath path ↔
    path.map Char.toLower = ".env".toList ∨ SensitiveWords (path.map Char.toLower) := by
  unfold looksSensitivePath SensitiveWords containsStr
  simp only [Bool.or_eq_true, beq_iff_eq, List.isSuffixOf_iff_suffix, decide_eq_true_eq, or_assoc]

/-- A directory in front changes nothing but for a file `.env` in it. -/
theorem sensitiveWords_below (front path : List Char) (hfront : ¬ "credentials".toList <:+: front) :
    SensitiveWords (front ++ '/' :: path) ↔ path = ".env".toList ∨ SensitiveWords path := by
  have henv : "/.env".toList <:+ front ++ '/' :: path ↔
      path = ".env".toList ∨ "/.env".toList <:+ path := by
    have hslash : '/' ∉ ".env".toList := by decide
    have hcons : '/' :: ".env".toList <:+ front ++ '/' :: path ↔
        '/' :: ".env".toList <:+ '/' :: path := List.cons_suffix_append_cons hslash
    refine hcons.trans (List.suffix_cons_iff.trans (or_congr_left ?_))
    rw [List.cons.injEq]
    exact ⟨fun h => h.2.symm, fun h => ⟨rfl, h.symm⟩⟩
  have hword : ∀ word : List Char, '/' ∉ word → (word <:+ front ++ '/' :: path ↔ word <:+ path) :=
    fun word h => List.suffix_append_cons h
  have hcred : "credentials".toList <:+: front ++ '/' :: path ↔ "credentials".toList <:+: path := by
    rw [List.infix_append_cons (by decide), or_iff_right hfront]
  unfold SensitiveWords
  rw [henv, hcred, hword _ (by decide), hword _ (by decide), hword _ (by decide), or_assoc]

theorem sensitiveWords_slash (path : List Char) :
    SensitiveWords ('/' :: path) ↔ path = ".env".toList ∨ SensitiveWords path :=
  sensitiveWords_below [] path (by decide)

/-! ## Backslashes -/

theorem toLower_eq_backslash {c : Char} (h : c.toLower = '\\') : c = '\\' := by
  have hascii : ∀ n < 128, (Char.ofNat n).toLower = '\\' → Char.ofNat n = '\\' := by decide
  by_cases hc : c.toNat < 128
  · have hofNat := hascii c.toNat hc
    rw [Char.ofNat_toNat] at hofNat
    exact hofNat h
  · have hsame : c.toLower = c := dif_neg fun hupper => hc (Nat.lt_of_le_of_lt hupper.2 (by decide))
    rwa [hsame] at h

theorem slashed_toLower (text : List Char) :
    (slashed text).map Char.toLower = slashed (text.map Char.toLower) := by
  unfold slashed
  rw [List.map_map, List.map_map]
  refine List.map_congr_left fun c _ => ?_
  show Char.toLower (if c = '\\' then '/' else c) = if c.toLower = '\\' then '/' else c.toLower
  by_cases hc : c = '\\'
  · subst hc
    decide
  · rw [if_neg hc, if_neg fun h => hc (toLower_eq_backslash h)]

theorem slashed_fixed {word : List Char} (hword : '/' ∉ word) {c : Char}
    (hc : (if c = '\\' then '/' else c) ∈ word) : (if c = '\\' then '/' else c) = c := by
  split_ifs at hc ⊢ with h
  · exact absurd hc hword
  · rfl

/-- The text of a file whose name is `.env` when a backslash counts as a slash. -/
def BackslashEnv (text : List Char) : Prop := "\\.env".toList <:+ text.map Char.toLower

theorem env_suffix_slashed (text : List Char) :
    "/.env".toList <:+ slashed text ↔ "/.env".toList <:+ text ∨ "\\.env".toList <:+ text := by
  unfold slashed
  rw [List.suffix_map_iff]
  constructor
  · rintro ⟨part, hpart, heq⟩
    cases part with
    | nil => exact absurd heq (by decide)
    | cons c rest =>
      rw [List.map_cons] at heq
      obtain ⟨hc, hrest⟩ := List.cons.inj heq
      have hsame := List.eq_of_map_eq (fun c => slashed_fixed (by decide)) hrest
      by_cases hback : c = '\\'
      · rw [hback, ← hsame] at hpart
        exact Or.inr hpart
      · rw [if_neg hback] at hc
        rw [← hc, ← hsame] at hpart
        exact Or.inl hpart
  · rintro (h | h)
    · exact ⟨_, h, by decide⟩
    · exact ⟨_, h, by decide⟩

theorem sensitiveWords_slashed (text : List Char) :
    SensitiveWords (slashed text) ↔ SensitiveWords text ∨ "\\.env".toList <:+ text := by
  have hsuffix : ∀ word : List Char, '/' ∉ word → '\\' ∉ word →
      (word <:+ slashed text ↔ word <:+ text) := by
    intro word hslash hback
    refine List.suffix_map_of_fixed (fun c hc => if_neg ?_) fun c => slashed_fixed hslash
    exact fun h => hback (h ▸ hc)
  have hinfix : "credentials".toList <:+: slashed text ↔ "credentials".toList <:+: text := by
    refine List.infix_map_of_fixed (fun c hc => if_neg ?_) fun c => slashed_fixed (by decide)
    rintro rfl
    exact absurd hc (by decide)
  unfold SensitiveWords
  rw [env_suffix_slashed, hsuffix _ (by decide) (by decide), hsuffix _ (by decide) (by decide),
    hsuffix _ (by decide) (by decide), hinfix]
  exact or_right_comm

theorem slashed_eq_env (text : List Char) : slashed text = ".env".toList ↔ text = ".env".toList := by
  constructor
  · intro h
    exact (List.eq_of_map_eq (fun c => slashed_fixed (by decide)) h.symm).symm
  · rintro rfl
    decide

theorem looksSensitivePath_slashed (text : List Char) : looksSensitivePath (slashed text) ↔
    (text.map Char.toLower = ".env".toList ∨ SensitiveWords (text.map Char.toLower)) ∨
      BackslashEnv text := by
  rw [looksSensitivePath_iff, slashed_toLower, sensitiveWords_slashed, slashed_eq_env, or_assoc]
  rfl

theorem tarPath_toLower (root file : Location) :
    (tarPath root file).map Char.toLower = "package".toList ++
      if root.isPrefixOf file then '/' :: (Utf8.lossy (relativeName root file)).map Char.toLower
      else (Utf8.lossy (relativeName root file)).map Char.toLower := by
  have hpackage : "package".toList.map Char.toLower = "package".toList := by decide
  have hslash : Char.toLower '/' = '/' := by decide
  have htar : tarPath root file = "package".toList ++
      if root.isPrefixOf file then '/' :: Utf8.lossy (relativeName root file)
      else Utf8.lossy (relativeName root file) := rfl
  rw [htar]
  generalize Utf8.lossy (relativeName root file) = text
  rw [List.map_append, apply_ite (List.map Char.toLower), List.map_cons, hpackage, hslash]

/-- The publisher sees a sensitive path where the registry does, and where a backslash stands
before `.env`. -/
theorem looksSensitivePath_relText (root file : Location) :
    looksSensitivePath (relText root file) ↔
      SensitiveWords ((tarPath root file).map Char.toLower) ∨
        BackslashEnv (Utf8.lossy (relativeName root file)) := by
  have hfront : ¬ "credentials".toList <:+: "package".toList := by decide
  rw [relText, looksSensitivePath_slashed, tarPath_toLower]
  apply or_congr_left
  by_cases hroot : root.isPrefixOf file
  · rw [if_pos hroot]
    exact (sensitiveWords_below _ _ hfront).symm
  · have hslash : relativeName root file = slash :: [slash].intercalate file := by
      rw [relativeName, if_neg hroot, pathText]
    rw [if_neg hroot, hslash, Utf8.lossy_ascii (by decide), List.map_cons]
    refine Iff.trans ?_ (sensitiveWords_below _ _ hfront).symm
    refine Iff.trans (or_congr_right (sensitiveWords_slash _)) (or_iff_right fun h => ?_)
    exact absurd (List.cons.inj h).1 (by decide)

/-! ## What each of them reports -/

theorem contentSecretMarker_eq_none {bytes : List UInt8} :
    contentSecretMarker bytes = none ↔ ¬ ContainsMarker bytes :=
  secretMarker_eq_none

theorem fileFindings_eq_nil {rel : List Char} {bytes : List UInt8} :
    fileFindings rel bytes = [] ↔ ¬ looksSensitivePath rel ∧ ¬ ContainsMarker bytes := by
  rw [← contentSecretMarker_eq_none, fileFindings, List.append_eq_nil_iff]
  apply and_congr
  · split_ifs with h <;> simp [h]
  · cases contentSecretMarker bytes <;> simp

/-- The file that is read has this content. -/
def HasBytes (disk : Disk) (file : Location) (bytes : List UInt8) : Prop :=
  disk.file? file = some bytes

theorem readFiles_ok {disk : Disk} {root : Location} {files : List Location} {read : List ReadFile}
    (h : readFiles disk root files = .ok read) :
    List.Forall₂ (fun file r => HasBytes disk file r.bytes ∧ r.rel = relText root file) files read :=
  (Except.mapM_eq_ok.mp h).imp fun file r hread => by
    obtain ⟨bytes, hbytes, hr⟩ := Except.bind_eq_ok.mp hread
    obtain rfl := Except.ok.inj hr
    exact ⟨Disk.read_ok.mp hbytes, rfl⟩

theorem Publish.assess_ok {env : TransferEnvironment} {disk : Disk} {root : Location}
    {files : List Location} {package : Value} {tag : String} {access : Option String}
    {generatedAt : UInt64} {assessment : PublishAssessmentV2}
    (h : Publish.assess env disk root files package tag access generatedAt = .ok assessment) :
    ∃ read, readFiles disk root files = .ok read ∧ assessment.secretFindings =
      sortFindings (read.flatMap fun file => fileFindings file.rel file.bytes) := by
  unfold Publish.assess at h
  split at h
  · cases h
  · obtain ⟨name, -, hversion⟩ := Except.bind_eq_ok.mp h
    obtain ⟨version, -, hfiles⟩ := Except.bind_eq_ok.mp hversion
    obtain ⟨read, hread, hassessment⟩ := Except.bind_eq_ok.mp hfiles
    obtain rfl := Except.ok.inj hassessment
    exact ⟨read, hread, rfl⟩

/-- A named package whose files can be read is assessed. -/
theorem Publish.assess_total {env : TransferEnvironment} {disk : Disk} {root : Location}
    {files : List Location} {package : Value} {read : List ReadFile} (hhome : env.home.isSome)
    (hname : ((package.get? "name").bind Value.asStr?).isSome)
    (hversion : ((package.get? "version").bind Value.asStr?).isSome)
    (hread : readFiles disk root files = .ok read) (tag : String) (access : Option String)
    (generatedAt : UInt64) :
    ∃ assessment, Publish.assess env disk root files package tag access generatedAt = .ok assessment := by
  obtain ⟨home, hhome⟩ := Option.isSome_iff_exists.mp hhome
  obtain ⟨name, hname⟩ := Option.isSome_iff_exists.mp hname
  obtain ⟨version, hversion⟩ := Option.isSome_iff_exists.mp hversion
  unfold Publish.assess assessWithSigningKey stringField
  rw [hhome, hname, hversion, hread]
  exact ⟨_, rfl⟩

theorem forall_iff_of_forall₂ {α β : Type} {r : α → β → Prop} {p : α → Prop} {q : β → Prop}
    {as : List α} {bs : List β} (h : List.Forall₂ r as bs) (hpq : ∀ a b, r a b → (p a ↔ q b)) :
    (∀ a ∈ as, p a) ↔ ∀ b ∈ bs, q b := by
  induction h with
  | nil => simp
  | cons hab hrest ih => rw [List.forall_mem_cons, List.forall_mem_cons, hpq _ _ hab, ih]

/-- A file that the publisher has nothing to say about. -/
def PublisherSilent (disk : Disk) (root file : Location) : Prop :=
  ¬ looksSensitivePath (relText root file) ∧
    ∀ bytes, HasBytes disk file bytes → ¬ ContainsMarker bytes

theorem Publish.assess_silent_iff {env : TransferEnvironment} {disk : Disk} {root : Location}
    {files : List Location} {package : Value} {tag : String} {access : Option String}
    {generatedAt : UInt64} {assessment : PublishAssessmentV2}
    (h : Publish.assess env disk root files package tag access generatedAt = .ok assessment) :
    assessment.secretFindings = [] ↔ ∀ file ∈ files, PublisherSilent disk root file := by
  obtain ⟨read, hread, hfindings⟩ := Publish.assess_ok h
  rw [hfindings, sortFindings_eq_nil, List.flatMap_eq_nil_iff]
  refine (forall_iff_of_forall₂ (readFiles_ok hread) ?_).symm
  rintro file r ⟨hbytes, hrel⟩
  rw [fileFindings_eq_nil, hrel, PublisherSilent]
  apply and_congr_right
  intro _
  constructor
  · exact fun hall => hall r.bytes hbytes
  · intro hnone bytes hother
    obtain rfl := Option.some.inj (hbytes.symm.trans hother)
    exact hnone

/-- The secret findings in the evidence of a bundle. -/
def reportedSecrets (bundle : RegistryAssessmentBundle) : List Value :=
  ((bundle.evidence.get? "secret_findings").bind Value.asArray?).getD []

theorem reportedSecrets_bundleOf (env : AssessEnv) (tarball : List UInt8) (manifest : Value)
    (name version publisher registry : String) (report : AnalysisReport)
    (secretFindings : List String) (expanded : ℕ) :
    reportedSecrets (bundleOf env tarball manifest name version publisher registry report
      secretFindings expanded) = secretFindings.map Value.string := by
  have hget : (evidenceOf env manifest ("sha256:" ++ hexSha256 env.sha tarball) report
      secretFindings expanded).get? "secret_findings" = some (Value.strings secretFindings) := by
    rw [evidenceOf, Value.get?_json]
    rfl
  have hevidence : (bundleOf env tarball manifest name version publisher registry report
      secretFindings expanded).evidence = evidenceOf env manifest
        ("sha256:" ++ hexSha256 env.sha tarball) report secretFindings expanded := rfl
  rw [reportedSecrets, hevidence, hget]
  rfl

/-- The size of a file as the system has it. -/
def fileSize (bytes : List UInt8) : UInt64 := UInt64.ofNat bytes.length

/-- A file that the registry has nothing to say about. -/
def RegistrySilent (disk : Disk) (root file : Location) : Prop :=
  ¬ SensitiveWords ((tarPath root file).map Char.toLower) ∧
    ∀ bytes, HasBytes disk file bytes → (fileSize bytes).toNat ≤ maxSearchedBytes →
      ¬ ContainsMarker bytes

theorem publishEntries_ok {disk : Disk} {root : Location} {mode : Location → ℕ}
    {files : List Location} {entries : List TarEntry}
    (h : publishEntries disk root mode files = .ok entries) :
    List.Forall₂ (fun file e => HasBytes disk file e.data.bytes ∧ e.entryType = .regular ∧
      lowerPath e.path = (tarPath root file).map Char.toLower ∧
      e.size = fileSize e.data.bytes) files entries :=
  (Except.mapM_eq_ok.mp h).imp fun file e hentry => by
    obtain ⟨bytes, hbytes, he⟩ := Except.bind_eq_ok.mp hentry
    obtain rfl := Except.ok.inj he
    refine ⟨Disk.read_ok.mp hbytes, rfl, ?_, rfl⟩
    rw [lowerPath, asBytes_ofList, Utf8.lossy_encode]

theorem assessTarball_silent_iff {env : AssessEnv} {disk : Disk} {root : Location}
    {mode : Location → ℕ} {files : List Location} {entries : List TarEntry} {tarball : List UInt8}
    {manifest : Value} {name version publisher registry : String} {fs fs' : FileSystem}
    {bundle : RegistryAssessmentBundle}
    (hentries : publishEntries disk root mode files = .ok entries)
    (hdecode : env.decode tarball = .ok (entries.map .ok))
    (h : assessTarball env tarball manifest name version publisher registry fs = .ok bundle fs') :
    reportedSecrets bundle = [] ↔ ∀ file ∈ files, RegistrySilent disk root file := by
  obtain ⟨temp, entries', expanded, found, report, -, hdecode', hrun, -, rfl⟩ := assessTarball_ok h
  obtain rfl : entries = entries' :=
    (List.map_injective_iff.mpr fun a b => Except.ok.inj)
      (Except.ok.inj (hdecode.symm.trans hdecode'))
  rw [reportedSecrets_bundleOf, List.map_eq_nil_iff, sortFindings_eq_nil, extraction_findings hrun]
  refine (forall_iff_of_forall₂ (publishEntries_ok hentries) ?_).symm
  rintro file e ⟨hbytes, htype, hpath, hsize⟩
  rw [SensitiveFile, SecretFile, and_iff_right htype, and_iff_right htype, hpath,
    sensitivePath_iff, hsize, RegistrySilent]
  apply and_congr_right
  intro _
  constructor
  · exact fun hall => hall e.data.bytes hbytes
  · intro hnone bytes hother
    obtain rfl := Option.some.inj (hbytes.symm.trans hother)
    exact hnone

/-! ## Where they agree -/

/-- Something that both of them report: a sensitive path in the tarball, or a marker in a file
up to the limit of the registry. -/
def BothReport (disk : Disk) (root file : Location) : Prop :=
  SensitiveWords ((tarPath root file).map Char.toLower) ∨
    ∃ bytes, HasBytes disk file bytes ∧ (fileSize bytes).toNat ≤ maxSearchedBytes ∧
      ContainsMarker bytes

/-- Something that only the publisher would report: a backslash before `.env`, or a marker in a
file of any size. -/
def PublisherReports (disk : Disk) (root file : Location) : Prop :=
  BackslashEnv (Utf8.lossy (relativeName root file)) ∨
    ∃ bytes, HasBytes disk file bytes ∧ ContainsMarker bytes

theorem registrySilent_iff {disk : Disk} {root file : Location} :
    RegistrySilent disk root file ↔ ¬ BothReport disk root file := by
  unfold RegistrySilent BothReport
  rw [not_or]
  apply and_congr_right
  intro _
  simp only [not_exists, not_and]

theorem publisherSilent_iff {disk : Disk} {root file : Location} :
    PublisherSilent disk root file ↔
      ¬ BothReport disk root file ∧ ¬ PublisherReports disk root file := by
  unfold PublisherSilent BothReport PublisherReports
  rw [looksSensitivePath_relText]
  simp only [not_or, not_exists, not_and]
  constructor
  · rintro ⟨⟨hwords, henv⟩, hmarker⟩
    exact ⟨⟨hwords, fun bytes hbytes _ => hmarker bytes hbytes⟩, henv, hmarker⟩
  · rintro ⟨⟨hwords, -⟩, henv, hmarker⟩
    exact ⟨⟨hwords, henv⟩, hmarker⟩

/-- When both assess the same files, either both or neither reports a secret exactly when some
file has what both look for, or no file has what the publisher alone finds. -/
theorem secretFindings_agree_iff {tenv : TransferEnvironment} {env : AssessEnv} {disk : Disk}
    {root : Location} {files : List Location} {package : Value} {tag : String}
    {access : Option String} {generatedAt : UInt64} {assessment : PublishAssessmentV2}
    {mode : Location → ℕ} {entries : List TarEntry} {tarball : List UInt8} {manifest : Value}
    {name version publisher registry : String} {fs fs' : FileSystem}
    {bundle : RegistryAssessmentBundle}
    (hassess : Publish.assess tenv disk root files package tag access generatedAt = .ok assessment)
    (hentries : publishEntries disk root mode files = .ok entries)
    (hdecode : env.decode tarball = .ok (entries.map .ok))
    (hserver : assessTarball env tarball manifest name version publisher registry fs =
      .ok bundle fs') :
    (assessment.secretFindings ≠ [] ↔ reportedSecrets bundle ≠ []) ↔
      (∃ file ∈ files, BothReport disk root file) ∨
        ∀ file ∈ files, ¬ PublisherReports disk root file := by
  have hpublisher := Publish.assess_silent_iff hassess
  have hregistry := assessTarball_silent_iff hentries hdecode hserver
  simp only [publisherSilent_iff] at hpublisher
  simp only [registrySilent_iff] at hregistry
  rw [not_iff_not, hpublisher, hregistry]
  constructor
  · intro hagree
    by_cases hboth : ∃ file ∈ files, BothReport disk root file
    · exact Or.inl hboth
    · have hnone : ∀ file ∈ files, ¬ BothReport disk root file :=
        fun file hfile hreport => hboth ⟨file, hfile, hreport⟩
      exact Or.inr fun file hfile => (hagree.mpr hnone file hfile).2
  · rintro (⟨file, hfile, hboth⟩ | hnone)
    · constructor
      · exact fun hall => absurd hboth (hall file hfile).1
      · exact fun hall => absurd hboth (hall file hfile)
    · constructor
      · exact fun hall file hfile => (hall file hfile).1
      · exact fun hall file hfile => ⟨hall file hfile, hnone file hfile⟩

/-! ## A marker behind two megabytes -/

def notesBytes : List UInt8 := List.replicate (2 * 1024 * 1024) 97 ++ asBytes "ghp_example"

/-- A gzip tarball with `package/notes.txt` and `package/package.json`. -/
def notesTarball : List UInt8 :=
  [31, 139, 8, 0, 0, 0, 0, 0, 2, 255, 237, 211, 193, 74, 195, 64, 20, 5, 208, 124, 74, 200, 90, 210,
   25, 140, 89, 248, 51, 50, 212, 161, 106, 109, 18, 154, 180, 20, 196, 127, 55, 86, 69, 113, 93,
   170, 208, 115, 54, 247, 113, 55, 3, 239, 49, 67, 90, 174, 211, 42, 47, 186, 126, 202, 99, 61, 29,
   166, 226, 244, 194, 172, 109, 154, 99, 206, 126, 102, 60, 78, 241, 250, 171, 251, 232, 99, 140,
   109, 83, 148, 161, 56, 131, 221, 56, 165, 109, 89, 22, 23, 42, 1] ++
  List.replicate 2031 0 ++
  [252, 177, 213, 195, 112, 151, 15, 105, 51, 60, 231, 130, 203, 51, 164, 229, 58, 173, 242, 226,
   51, 235, 167, 177, 239, 78, 253, 70, 152, 181, 77, 115, 204, 217, 239, 12, 161, 137, 223, 243,
   123, 31, 227, 77, 27, 139, 50, 156, 99, 1, 187, 113, 74, 219, 178, 188, 212, 251, 191, 84, 93,
   218, 228, 234, 182, 186, 207, 155, 190, 186, 170, 246, 121, 59, 62, 246, 221, 92, 196, 58, 212,
   161, 122, 245, 69, 0, 0, 0, 0, 0, 0, 0, 0, 0, 0, 254, 149, 55, 55, 195, 221, 84, 0, 48, 32, 0]

def notesEntries : List TarEntry := [
  { entryType := .regular
    path := asBytes "package/notes.txt"
    size := 2_097_163
    ustar := false
    mode := some 0o644
    data := { bytes := notesBytes } },
  { entryType := .regular
    path := asBytes "package/package.json"
    size := 33
    ustar := false
    mode := some 0o644
    data := { bytes := addonPackageJson } }]

def notesEnv : AssessEnv := hostEnv notesTarball notesEntries addonPackageJson addonManifest

def notesRoot : Location := [asBytes "work"]

def notesFiles : List Location :=
  [notesRoot ++ [asBytes "notes.txt"], notesRoot ++ [asBytes "package.json"]]

def notesDisk : Disk :=
  ((Disk.mk Table.empty [notesRoot]).write (notesRoot ++ [asBytes "notes.txt"]) notesBytes).write
    (notesRoot ++ [asBytes "package.json"]) addonPackageJson

/-- The publisher's key, with its signature of the assessment of these files. -/
def notesPublisher : TransferEnvironment := { packingEnvironment with
  signingKey :=
    ⟨demoKey.publicKey, fun _ =>
      "ZpdcT/j/8jToHjfUja2QmWxPw2ehXPQfnsgUOxXHLwz4ULpMwVBcpuQi9cSOw8SbTHunLi8Ib+fxga1E68OuAQ=="⟩
  packageVersion := "0.2.5" }

theorem notesBytes_length : notesBytes.length = 2_097_163 := by
  rw [notesBytes, List.length_append, List.length_replicate]
  decide

theorem notesDisk_notes :
    notesDisk.file? (notesRoot ++ [asBytes "notes.txt"]) = some notesBytes := by
  rw [notesDisk, Disk.file?_write, if_neg (by decide), Disk.file?_write, if_pos rfl]

theorem notesDisk_packageJson :
    notesDisk.file? (notesRoot ++ [asBytes "package.json"]) = some addonPackageJson := by
  rw [notesDisk, Disk.file?_write, if_pos rfl]

theorem notesEntries_published :
    publishEntries notesDisk notesRoot (fun _ => 0o644) notesFiles = .ok notesEntries := by
  have hsize : UInt64.ofNat notesBytes.length = 2_097_163 := by
    rw [notesBytes_length]
    rfl
  have hnotes : asBytes (String.ofList (tarPath notesRoot (notesRoot ++ [asBytes "notes.txt"]))) =
      asBytes "package/notes.txt" := by decide
  have hjson : asBytes (String.ofList (tarPath notesRoot (notesRoot ++ [asBytes "package.json"]))) =
      asBytes "package/package.json" := by decide
  refine Except.mapM_eq_ok.mpr (.cons ?_ (.cons ?_ .nil))
  · rw [appendPathWithName, Disk.read_ok.mpr notesDisk_notes]
    show Except.ok (TarEntry.mk .regular _ (UInt64.ofNat notesBytes.length) false _ _) = _
    rw [hsize, hnotes]
  · rw [appendPathWithName, Disk.read_ok.mpr notesDisk_packageJson]
    show Except.ok (TarEntry.mk .regular _ _ false _ _) = _
    rw [hjson]
    rfl

theorem hostEnv_decode (tarball : List UInt8) (entries : List TarEntry) (packageJson : List UInt8)
    (manifest : Value) :
    (hostEnv tarball entries packageJson manifest).decode tarball = .ok (entries.map .ok) :=
  if_pos rfl

/-- The publisher finds the marker, the registry does not look for it. -/
theorem notesAssessments : ∃ assessment bundle fs,
    Publish.assess notesPublisher notesDisk notesRoot notesFiles addonManifest "latest" none 1_700_000_000 =
      .ok assessment ∧
    assessTarball notesEnv notesTarball addonManifest "demo" "1.0.0" "acme"
      "https://registry.example" emptyHost = .ok bundle fs ∧
    assessment.secretFindings ≠ [] ∧ reportedSecrets bundle = [] := by
  have hrun : (match assessTarball notesEnv notesTarball addonManifest "demo" "1.0.0" "acme"
      "https://registry.example" emptyHost with
    | .ok bundle _ => (reportedSecrets bundle).isEmpty
    | .error _ _ => false) = true := by decide +kernel
  have hread : readFiles notesDisk notesRoot notesFiles = .ok
      [⟨relText notesRoot (notesRoot ++ [asBytes "notes.txt"]), notesBytes⟩,
        ⟨relText notesRoot (notesRoot ++ [asBytes "package.json"]), addonPackageJson⟩] := by
    refine Except.mapM_eq_ok.mpr (.cons ?_ (.cons ?_ .nil))
    · rw [Disk.read_ok.mpr notesDisk_notes]
      rfl
    · rw [Disk.read_ok.mpr notesDisk_packageJson]
      rfl
  obtain ⟨assessment, hassess⟩ : ∃ assessment, Publish.assess notesPublisher notesDisk notesRoot notesFiles
      addonManifest "latest" none 1_700_000_000 = .ok assessment :=
    Publish.assess_total (by decide) (by decide) (by decide) hread "latest" none 1_700_000_000
  have hmarker : ContainsMarker notesBytes :=
    ⟨("ghp_", "github-token"), by decide, List.replicate (2 * 1024 * 1024) 97, asBytes "example",
      by rw [notesBytes, List.append_assoc]; rfl⟩
  split at hrun
  · next bundle fs hserver =>
    refine ⟨assessment, bundle, fs, hassess, hserver, ?_, by simpa using hrun⟩
    rw [Ne, Publish.assess_silent_iff hassess]
    intro hall
    exact (hall _ List.mem_cons_self).2 notesBytes notesDisk_notes hmarker
  · cases hrun

/-- The file is above the limit of the registry, so only the publisher reports its marker. -/
theorem secretFindings_disagree : ∃ assessment bundle fs,
    Publish.assess notesPublisher notesDisk notesRoot notesFiles addonManifest "latest" none 1_700_000_000 =
      .ok assessment ∧
    publishEntries notesDisk notesRoot (fun _ => 0o644) notesFiles = .ok notesEntries ∧
    notesEnv.decode notesTarball = .ok (notesEntries.map .ok) ∧
    assessTarball notesEnv notesTarball addonManifest "demo" "1.0.0" "acme"
      "https://registry.example" emptyHost = .ok bundle fs ∧
    ¬ (assessment.secretFindings ≠ [] ↔ reportedSecrets bundle ≠ []) := by
  obtain ⟨assessment, bundle, fs, hassess, hserver, hfound, hnone⟩ := notesAssessments
  refine ⟨assessment, bundle, fs, hassess, notesEntries_published,
    hostEnv_decode _ _ _ _, hserver, ?_⟩
  exact fun hagree => hagree.mp hfound hnone

theorem secretFindings_agree_iff_notes : ∃ assessment bundle fs,
    Publish.assess notesPublisher notesDisk notesRoot notesFiles addonManifest "latest" none 1_700_000_000 =
      .ok assessment ∧
    assessTarball notesEnv notesTarball addonManifest "demo" "1.0.0" "acme"
      "https://registry.example" emptyHost = .ok bundle fs ∧
    ((assessment.secretFindings ≠ [] ↔ reportedSecrets bundle ≠ []) ↔
      (∃ file ∈ notesFiles, BothReport notesDisk notesRoot file) ∨
        ∀ file ∈ notesFiles, ¬ PublisherReports notesDisk notesRoot file) := by
  obtain ⟨assessment, bundle, fs, hassess, hserver, -, -⟩ := notesAssessments
  exact ⟨assessment, bundle, fs, hassess, hserver,
    secretFindings_agree_iff hassess notesEntries_published (hostEnv_decode _ _ _ _) hserver⟩

end Oath.Cli
