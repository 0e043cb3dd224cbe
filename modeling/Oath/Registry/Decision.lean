import Mathlib.Data.List.Destutter
import Oath.Registry.Containment

/-! What the decision of an accepted assessment says about the archive: which of the
properties its policy promises are behind an `allow`, and which reach a `deny`. -/

namespace Oath.Registry
open Unix Contracts Analyze

/-! ## Accepted assessments -/

theorem assessTarball_ok {env : AssessEnv} {tarball : List UInt8} {manifest : Value}
    {name version publisher registry : String} {fs fs' : FileSystem}
    {bundle : RegistryAssessmentBundle}
    (h : assessTarball env tarball manifest name version publisher registry fs =
      .ok bundle fs') :
    ∃ root entries expanded found report, env.tempdir.create fs = .ok root ∧
      env.decode tarball = .ok (entries.map .ok) ∧
      Extraction env root entries (withTempDir fs root) found fs' ∧
      scan env.parseJson env.analysis fs' (root ++ [packageDirectory]) name version =
        .ok report ∧
      bundle = bundleOf env tarball manifest name version publisher registry report
        (sortFindings found) expanded := by
  obtain ⟨_, _, hget, h1⟩ := EStateM.bind_eq_ok.mp h
  cases hget
  obtain ⟨root, _, hcreate, h2⟩ := EStateM.bind_eq_ok.mp h1
  obtain ⟨hroot, rfl⟩ := ofExcept_ok.mp hcreate
  obtain ⟨_, _, hmodify, h3⟩ := EStateM.bind_eq_ok.mp h2
  cases hmodify
  obtain ⟨entries, _, hdecode, h4⟩ := EStateM.bind_eq_ok.mp h3
  obtain ⟨hentries, rfl⟩ := ofExcept_ok.mp hdecode
  obtain ⟨⟨expanded, found⟩, fs₂, hloop, h5⟩ := EStateM.bind_eq_ok.mp h4
  obtain ⟨_, _, hget', h6⟩ := EStateM.bind_eq_ok.mp h5
  cases hget'
  obtain ⟨es, more, rfl, rfl, hrun⟩ := extractLoop_ok hloop
  cases hscan : scan env.parseJson env.analysis fs₂ (root ++ [packageDirectory]) name version with
  | error message =>
    rw [hscan] at h6
    cases h6
  | ok report =>
    rw [hscan] at h6
    obtain ⟨rfl, rfl⟩ := pure_ok.mp h6
    exact ⟨root, es, expanded, found, report, hroot, hentries, hrun, hscan, rfl⟩

/-! ## Secrets -/

/-- One of the secret markers stands in the bytes. -/
def ContainsMarker (bytes : List UInt8) : Prop :=
  ∃ marker ∈ secretMarkers, asBytes marker.1 <:+: bytes

/-- The markers are ASCII, so the search in the decoded text misses none. -/
theorem containsStr_lossy {marker : String × String} (h : marker ∈ secretMarkers)
    (bytes : List UInt8) :
    containsStr (Utf8.lossy bytes) marker.1 ↔ asBytes marker.1 <:+: bytes := by
  have hascii : ∀ m ∈ secretMarkers, asBytes m.1 ≠ [] ∧ (∀ b ∈ asBytes m.1, b < 0x80) ∧
      (asBytes m.1).map Utf8.asciiChar = m.1.toList := by decide +kernel
  obtain ⟨hne, hlt, hchars⟩ := hascii marker h
  rw [Utf8.infix_lossy hne hlt, hchars, containsStr, decide_eq_true_iff]

theorem secretMarker_eq_none {bytes : List UInt8} :
    secretMarker bytes = none ↔ ¬ ContainsMarker bytes := by
  unfold secretMarker ContainsMarker
  rw [List.findSome?_eq_none_iff]
  simp only [not_exists, not_and]
  apply forall₂_congr
  intro marker hmarker
  rw [← containsStr_lossy hmarker]
  obtain ⟨text, name⟩ := marker
  simp

def SensitiveFile (e : TarEntry) : Prop :=
  e.entryType = .regular ∧ sensitivePath (lowerPath e.path)

def SecretFile (e : TarEntry) : Prop := e.entryType = .regular ∧ ContainsMarker e.data.bytes

theorem pathFindings_eq_nil {e : TarEntry} : pathFindings e = [] ↔ ¬ SensitiveFile e := by
  unfold pathFindings SensitiveFile
  simp

theorem markerFindings_eq_nil {e : TarEntry} {bytes : List UInt8} :
    markerFindings e bytes = [] ↔ ¬ ContainsMarker bytes := by
  rw [← secretMarker_eq_none]
  unfold markerFindings
  split <;> simp_all

/-- The loop reports nothing exactly when no file has a sensitive path and none of the
files it searches has a marker. -/
theorem extraction_findings {env : AssessEnv} {root : Location} {entries : List TarEntry}
    {found : List String} {fs fs' : FileSystem} (h : Extraction env root entries fs found fs') :
    found = [] ↔ ∀ e ∈ entries, ¬ SensitiveFile e ∧
      (e.size.toNat ≤ maxSearchedBytes → ¬ SecretFile e) := by
  induction h with
  | nil => simp
  | @cons e rest found more fs fs₁ fs' hchecked hstep hrest ih =>
    rw [List.append_eq_nil_iff, ih, List.forall_mem_cons]
    apply and_congr_left
    intro _
    cases hstep with
    | searched hsearched hbytes hwrite =>
      obtain ⟨htype, hsize⟩ := isSearched_iff.mp hsearched
      rw [List.append_eq_nil_iff, pathFindings_eq_nil, markerFindings_eq_nil,
        readToEnd_ok hbytes]
      simp [SecretFile, htype, hsize]
    | unpacked hsearched hunpack =>
      rw [pathFindings_eq_nil]
      refine ⟨fun hpath => ⟨hpath, fun hsize hsecret => ?_⟩, And.left⟩
      exact hsearched (isSearched_iff.mpr ⟨hsecret.1, hsize⟩)

theorem sortFindings_eq_nil {findings : List String} : sortFindings findings = [] ↔ findings = [] := by
  unfold sortFindings
  rw [List.destutter_eq_nil, ← List.length_eq_zero_iff, List.length_mergeSort,
    List.length_eq_zero_iff]

/-! ## The decision -/

/-- What leads to a `deny`: a sensitive path, a marker in a file that is searched, or a
critical verdict of the scanner. -/
def Denied (entries : List TarEntry) (report : AnalysisReport) : Prop :=
  (∃ e ∈ entries, SensitiveFile e) ∨
    (∃ e ∈ entries, SecretFile e ∧ e.size.toNat ≤ maxSearchedBytes) ∨
    report.overallRisk = .critical

def mediumOrHigh (risk : RiskLevel) : Prop := risk = .medium ∨ risk = .high

theorem decisionOf_eq_deny {secretFindings : List String} {report : AnalysisReport} :
    decisionOf secretFindings report = .deny ↔
      secretFindings ≠ [] ∨ report.overallRisk = .critical := by
  unfold decisionOf
  split
  · next h => simpa using h
  · next h =>
    split <;> simpa using h

theorem decisionOf_eq_allow {secretFindings : List String} {report : AnalysisReport} :
    decisionOf secretFindings report = .allow ↔
      ¬ (secretFindings ≠ [] ∨ report.overallRisk = .critical) ∧
        ¬ mediumOrHigh report.overallRisk ∧ ¬ report.capabilities.hasInstallScripts ∧
        ¬ report.capabilities.nativeAddon := by
  unfold decisionOf mediumOrHigh
  split
  · next h => simp_all
  · next h =>
    split
    · next hreview =>
      simp only [Bool.or_eq_true, beq_iff_eq] at hreview
      simp only [reduceCtorEq, false_iff, not_and]
      tauto
    · next hreview =>
      simp only [Bool.or_eq_true, beq_iff_eq, not_or] at hreview
      simp_all

/-! ## The package -/

/-- `package.json` of an unpacked package declares an install hook. -/
def DeclaresHook (parseJson : List UInt8 → Except String Value) (fs : FileSystem)
    (packageDir : Location) : Prop :=
  ∃ bytes parsed, fs.fileBytes? (packageDir ++ [packageJson]) = some bytes ∧
    Utf8.isValid bytes ∧ parseJson bytes = .ok parsed ∧ installScripts parsed ≠ []

def isNativeAddon (name : Name) : Prop :=
  asBytes ".node" <:+ name ∨ name = asBytes "binding.gyp"

instance (name : Name) : Decidable (isNativeAddon name) := inferInstanceAs (Decidable (_ ∨ _))

def NativeAddonFile (fs : FileSystem) (packageDir : Location) : Prop :=
  ∃ rel name, (fs.fileBytes? (packageDir ++ rel ++ [name])).isSome ∧ isNativeAddon name

theorem lookup_ok {fs : FileSystem} {base : Location} {rel : List Name}
    {node : Unix.Node} (h : fs.lookup base rel = .ok node) : fs.node? (base ++ rel) = some node := by
  obtain ⟨parent, -, h1⟩ := Except.bind_eq_ok.mp h
  obtain ⟨_, -, h2⟩ := Except.bind_eq_ok.mp h1
  split at h2
  · next node' hnode =>
    rw [hnode, Except.ok.inj h2]
  · simp at h2

/-- When the hooks can be read, they are those declared, unless `package.json` cannot be
reached. -/
theorem readHooks_ok {parseJson : List UInt8 → Except String Value} {fs : FileSystem}
    {packageDir : Location} {scripts : List (String × String)}
    (h : readHooks parseJson fs packageDir = .ok scripts) :
    scripts ≠ [] ↔
      DeclaresHook parseJson fs packageDir ∧ fs.exists? packageDir [packageJson] := by
  unfold readHooks at h
  by_cases hexists : fs.exists? packageDir [packageJson]
  · rw [if_pos hexists] at h
    cases hread : fs.read packageDir [packageJson] with
    | error e => simp [hread] at h
    | ok content =>
      simp only [hread] at h
      have hfile : fs.fileBytes? (packageDir ++ [packageJson]) = some content := by
        obtain ⟨node, hnode, hbytes⟩ := Except.bind_eq_ok.mp hread
        cases node with
        | directory mode => simp at hbytes
        | file mode bytes =>
          simp only at hbytes
          split at hbytes
          · obtain rfl := Except.ok.inj hbytes
            exact FileSystem.fileBytes?_eq_some.mpr ⟨mode, lookup_ok hnode⟩
          · simp at hbytes
      have hdeclares : DeclaresHook parseJson fs packageDir ↔ Utf8.isValid content ∧
          ∃ parsed, parseJson content = .ok parsed ∧ installScripts parsed ≠ [] := by
        unfold DeclaresHook
        rw [hfile]
        constructor
        · rintro ⟨bytes, parsed, hbytes, hvalid, hparse, hne⟩
          obtain rfl := Option.some.inj hbytes
          exact ⟨hvalid, parsed, hparse, hne⟩
        · rintro ⟨hvalid, parsed, hparse, hne⟩
          exact ⟨content, parsed, rfl, hvalid, hparse, hne⟩
      rw [hdeclares]
      split at h
      · next hvalid =>
        cases hparse : parseJson content with
        | error message =>
          simp only [hparse, Except.ok.injEq] at h
          simp [← h]
        | ok parsed =>
          simp only [hparse, Except.ok.injEq] at h
          simp [← h, hvalid, hexists]
      · simp at h
  · rw [if_neg hexists] at h
    obtain rfl := Except.ok.inj h
    simp [hexists]

/-! ## When the decision keeps its promises -/

def belowMedium (risk : RiskLevel) : Prop := risk = .clean ∨ risk = .info ∨ risk = .low

/-- What an `allow` promises and what has to lead to a `deny`. -/
structure DecisionSound (env : AssessEnv) (entries : List TarEntry) (fs : FileSystem)
    (packageDir : Location) (report : AnalysisReport) (decision : Decision) : Prop where
  allow : decision = .allow →
    (∀ e ∈ entries, ¬ SensitiveFile e) ∧ (∀ e ∈ entries, ¬ SecretFile e) ∧
      ¬ DeclaresHook env.parseJson fs packageDir ∧ ¬ NativeAddonFile fs packageDir ∧
      belowMedium report.overallRisk
  deny : (∃ e ∈ entries, SecretFile e) ∨ (∃ e ∈ entries, SensitiveFile e) ∨
    report.overallRisk = .critical → decision = .deny

/-- Something else already calls for a review. -/
def Reviewed (env : AssessEnv) (fs : FileSystem) (packageDir : Location)
    (report : AnalysisReport) : Prop :=
  mediumOrHigh report.overallRisk ∨
    (DeclaresHook env.parseJson fs packageDir ∧ fs.exists? packageDir [packageJson]) ∨
    SourceFinding env.analysis fs packageDir .installScript

theorem denied_iff {env : AssessEnv} {root : Location} {entries : List TarEntry}
    {found : List String} {fs fs' : FileSystem} {report : AnalysisReport}
    (h : Extraction env root entries fs found fs') :
    sortFindings found ≠ [] ∨ report.overallRisk = .critical ↔ Denied entries report := by
  rw [Denied, ← or_assoc]
  apply or_congr_left
  rw [Ne, sortFindings_eq_nil, extraction_findings h]
  constructor
  · intro hall
    by_contra hnone
    rw [not_or] at hnone
    refine hall fun e he => ⟨fun hsens => hnone.1 ⟨e, he, hsens⟩, fun hsize hsecret => ?_⟩
    exact hnone.2 ⟨e, he, hsecret, hsize⟩
  · rintro (⟨e, he, hsens⟩ | ⟨e, he, hsecret, hsize⟩) hall
    · exact (hall e he).1 hsens
    · exact (hall e he).2 hsize hsecret

/-- The decision keeps its promises exactly when it is a `deny` for some other reason, or no
file above the search limit has a marker and, unless the package is reviewed anyway, it
has neither a hook nor a native addon. -/
theorem assessTarball_decision_sound_iff {env : AssessEnv} {tarball : List UInt8}
    {manifest : Value} {name version publisher registry : String} {fs fs' : FileSystem}
    {bundle : RegistryAssessmentBundle} {root : Location} {entries : List TarEntry}
    {report : AnalysisReport}
    (h : assessTarball env tarball manifest name version publisher registry fs =
      .ok bundle fs')
    (hroot : env.tempdir.create fs = .ok root)
    (hentries : env.decode tarball = .ok (entries.map .ok))
    (hscan : scan env.parseJson env.analysis fs' (root ++ [packageDirectory]) name version =
      .ok report) :
    DecisionSound env entries fs' (root ++ [packageDirectory]) report bundle.verdict.decision ↔
      Denied entries report ∨
        ((∀ e ∈ entries, SecretFile e → e.size.toNat ≤ maxSearchedBytes) ∧
          (Reviewed env fs' (root ++ [packageDirectory]) report ∨
            (¬ DeclaresHook env.parseJson fs' (root ++ [packageDirectory]) ∧
              ¬ NativeAddonFile fs' (root ++ [packageDirectory])))) := by
  obtain ⟨root', entries', expanded, found, report', hroot', hentries', hrun, hscan', rfl⟩ :=
    assessTarball_ok h
  obtain rfl : root = root' := Except.ok.inj (hroot.symm.trans hroot')
  obtain rfl : entries = entries' :=
    (List.map_injective_iff.mpr fun a b => Except.ok.inj)
      (Except.ok.inj (hentries.symm.trans hentries'))
  obtain rfl : report = report' := Except.ok.inj (hscan.symm.trans hscan')
  obtain ⟨scripts, hscripts, hnative, hrisk, hinstall⟩ := scan_ok hscan
  show DecisionSound env entries fs' _ report (decisionOf (sortFindings found) report) ↔ _
  have hdeny : decisionOf (sortFindings found) report = .deny ↔ Denied entries report := by
    rw [decisionOf_eq_deny, denied_iff hrun]
  have hallow : decisionOf (sortFindings found) report = .allow ↔
      ¬ Denied entries report ∧ ¬ Reviewed env fs' (root ++ [packageDirectory]) report := by
    rw [decisionOf_eq_allow, denied_iff hrun, hinstall, readHooks_ok hscripts, hnative, Reviewed]
    simp only [Bool.false_eq_true, not_false_eq_true, and_true, not_or]
  constructor
  · intro hsound
    by_cases hdenied : Denied entries report
    · exact Or.inl hdenied
    · right
      constructor
      · intro e he hsecret
        exact absurd (hdeny.mp (hsound.deny (Or.inl ⟨e, he, hsecret⟩))) hdenied
      · by_cases hreviewed : Reviewed env fs' (root ++ [packageDirectory]) report
        · exact Or.inl hreviewed
        · obtain ⟨-, -, hhook, haddon, -⟩ := hsound.allow (hallow.mpr ⟨hdenied, hreviewed⟩)
          exact Or.inr ⟨hhook, haddon⟩
  · intro hcond
    by_cases hdenied : Denied entries report
    · have hdecision := hdeny.mpr hdenied
      refine ⟨fun hdec => ?_, fun _ => hdecision⟩
      rw [hdecision] at hdec
      cases hdec
    · obtain ⟨hlarge, hrest⟩ := hcond.resolve_left hdenied
      have hsecrets : ∀ e ∈ entries, ¬ SecretFile e := fun e he hsecret =>
        hdenied (Or.inr (Or.inl ⟨e, he, hsecret, hlarge e he hsecret⟩))
      have hsensitive : ∀ e ∈ entries, ¬ SensitiveFile e := fun e he hsens =>
        hdenied (Or.inl ⟨e, he, hsens⟩)
      have hcritical : report.overallRisk ≠ .critical := fun hrisk =>
        hdenied (Or.inr (Or.inr hrisk))
      constructor
      · intro hdec
        have hreviewed := (hallow.mp hdec).2
        obtain ⟨hhook, haddon⟩ := hrest.resolve_left hreviewed
        refine ⟨hsensitive, hsecrets, hhook, haddon, ?_⟩
        rcases hrisk with hinfo | hhigh | hcrit
        · exact Or.inr (Or.inl hinfo)
        · exact absurd (Or.inl (Or.inr hhigh)) hreviewed
        · exact absurd hcrit hcritical
      · rintro (⟨e, he, hsecret⟩ | ⟨e, he, hsens⟩ | hcrit)
        · exact absurd hsecret (hsecrets e he)
        · exact absurd hsens (hsensitive e he)
        · exact absurd hcrit hcritical

/-! ## A package that is let through -/

/-- A gzip tarball with `package/package.json` and `package/addon.node`. -/
def addonTarball : List UInt8 :=
  [31, 139, 8, 0, 0, 0, 0, 0, 2, 255, 237, 211, 191, 10, 194, 48, 16, 6, 240, 123, 20, 185, 89,
    210, 187, 18, 50, 184, 235, 228, 75, 4, 115, 136, 74, 147, 210, 104, 23, 17, 95, 221, 248, 7,
    132, 46, 46, 165, 131, 189, 223, 242, 29, 223, 114, 211, 215, 250, 221, 201, 239, 165, 106,
    223, 105, 142, 57, 69, 24, 25, 21, 206, 218, 87, 22, 195, 36, 178, 252, 189, 159, 61, 179,
    171, 25, 22, 4, 19, 184, 228, 179, 239, 202, 123, 152, 167, 43, 70, 223, 8, 174, 48, 72, 147,
    112, 137, 189, 116, 249, 144, 98, 41, 216, 144, 33, 188, 129, 250, 103, 159, 221, 87, 62, 132,
    20, 77, 76, 65, 198, 255, 241, 115, 255, 100, 135, 251, 175, 157, 211, 253, 79, 225, 190, 222,
    110, 116, 5, 74, 41, 53, 63, 15, 150, 54, 157, 200, 0, 12, 0, 0]

def addonPackageJson : List UInt8 :=
  asBytes "\x7b\"name\":\"demo\",\"version\":\"1.0.0\"\x7d"

def addonManifest : Value := Value.json [("name", .string "demo"), ("version", .string "1.0.0")]

def addonEntries : List TarEntry := [
  { entryType := .regular
    path := asBytes "package/package.json"
    size := 33
    ustar := true
    mode := some 0o644
    data := { bytes := addonPackageJson } },
  { entryType := .regular
    path := asBytes "package/addon.node"
    size := 4
    ustar := true
    mode := some 0o644
    data := { bytes := [0x7f, 0x45, 0x4c, 0x46] } }]

def addonEnv : AssessEnv := hostEnv addonTarball addonEntries addonPackageJson addonManifest

def addonPackageDir : Location := hostTempDir ++ [packageDirectory]

theorem addonAssessment : ∃ bundle fs report,
    assessTarball addonEnv addonTarball addonManifest "demo" "1.0.0" "acme"
      "https://registry.example" emptyHost = .ok bundle fs ∧
    scan addonEnv.parseJson addonEnv.analysis fs addonPackageDir "demo" "1.0.0" = .ok report ∧
    bundle.verdict.decision = .allow ∧
    (fs.fileBytes? (addonPackageDir ++ [] ++ [asBytes "addon.node"])).isSome := by
  have hrun : (match assessTarball addonEnv addonTarball addonManifest "demo" "1.0.0" "acme"
      "https://registry.example" emptyHost with
    | .ok bundle fs => bundle.verdict.decision == .allow &&
        (fs.fileBytes? (addonPackageDir ++ [] ++ [asBytes "addon.node"])).isSome &&
        (scan addonEnv.parseJson addonEnv.analysis fs addonPackageDir "demo" "1.0.0").isOk
    | .error _ _ => false) = true := by decide +kernel
  split at hrun
  · next bundle fs hassess =>
    simp only [Bool.and_eq_true, beq_iff_eq] at hrun
    cases hscan : scan addonEnv.parseJson addonEnv.analysis fs addonPackageDir "demo" "1.0.0" with
    | error message =>
      rw [hscan] at hrun
      simp [Except.isOk, Except.toBool] at hrun
    | ok report => exact ⟨bundle, fs, report, hassess, hscan, hrun.1.1, hrun.1.2⟩
  · simp at hrun

/-- A package with a native addon and nothing else of note is allowed. -/
theorem assessTarball_allows_native_addon : ∃ bundle fs report,
    assessTarball addonEnv addonTarball addonManifest "demo" "1.0.0" "acme"
      "https://registry.example" emptyHost = .ok bundle fs ∧
    scan addonEnv.parseJson addonEnv.analysis fs addonPackageDir "demo" "1.0.0" = .ok report ∧
    ¬ DecisionSound addonEnv addonEntries fs addonPackageDir report bundle.verdict.decision := by
  obtain ⟨bundle, fs, report, hassess, hscan, hallow, haddon⟩ := addonAssessment
  refine ⟨bundle, fs, report, hassess, hscan, fun hsound => ?_⟩
  obtain ⟨-, -, -, hnone, -⟩ := hsound.allow hallow
  exact hnone ⟨[], asBytes "addon.node", haddon, by decide⟩

theorem assessTarball_decision_sound_addon : ∃ bundle fs report,
    assessTarball addonEnv addonTarball addonManifest "demo" "1.0.0" "acme"
      "https://registry.example" emptyHost = .ok bundle fs ∧
    (DecisionSound addonEnv addonEntries fs addonPackageDir report bundle.verdict.decision ↔
      Denied addonEntries report ∨
        ((∀ e ∈ addonEntries, SecretFile e → e.size.toNat ≤ maxSearchedBytes) ∧
          (Reviewed addonEnv fs addonPackageDir report ∨
            (¬ DeclaresHook addonEnv.parseJson fs addonPackageDir ∧
              ¬ NativeAddonFile fs addonPackageDir)))) := by
  obtain ⟨bundle, fs, report, hassess, hscan, -, -⟩ := addonAssessment
  exact ⟨bundle, fs, report, hassess,
    assessTarball_decision_sound_iff hassess (by decide +kernel) (by decide +kernel) hscan⟩

end Oath.Registry
