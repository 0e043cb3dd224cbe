import Oath.Cli.TransferCompleteness
import Oath.Library.LinkedFiles
import Oath.Registry.Containment

/-! What an accepted capsule says: which of its documents agree with each other and where the
files lie that were verified. -/

namespace Oath.Cli
open Contracts Registry Unix

/-! ## The files of a tarball -/

section Tarball
variable (env : TransferEnvironment)

/-- A regular file of the tarball as an assessment would list it. -/
def tarFile? (entry : TarEntry) : Option PublishFile :=
  if entry.entryType = .regular then
    (packageRelative? entry.path).map fun names =>
      ⟨relativeText names, UInt64.ofNat entry.data.bytes.length, hexSha256 env.sha entry.data.bytes⟩
  else none

def tarFiles (entries : List TarEntry) : List PublishFile := entries.filterMap (tarFile? env)

variable {env}

/-- An entry that passes is a directory, or a file that is expected with its content and was
not seen before. -/
theorem checkTarEntry_ok {expected : OrderedMap String PublishFile} {seen seen' : List String}
    {entry : TarEntry} (hkeys : ∀ path file, expected.find? path = some file → file.path = path)
    (h : checkTarEntry env expected seen entry = .ok seen') :
    (entry.entryType = .directory ∧ tarFile? env entry = none ∧ seen' = seen) ∨
      ∃ file, entry.entryType = .regular ∧ tarFile? env entry = some file ∧
        expected.find? file.path = some file ∧ file.path ∉ seen ∧ seen' = file.path :: seen := by
  unfold checkTarEntry at h
  split_ifs at h with hdir hregular
  · refine Or.inl ⟨hdir, if_neg ?_, (Except.ok.inj h).symm⟩
    rw [hdir]
    simp
  · right
    rw [not_not] at hregular
    cases hpath : packageRelative? entry.path with
    | none =>
      rw [hpath] at h
      cases h
    | some names =>
      rw [hpath] at h
      dsimp only at h
      by_cases hunsafe : names.any fun name => name = [dot, dot]
      · rw [if_pos hunsafe] at h
        cases h
      rw [if_neg hunsafe] at h
      cases hfind : expected.find? (relativeText names) with
      | none =>
        rw [hfind] at h
        cases h
      | some file =>
        rw [hfind] at h
        dsimp only at h
        split_ifs at h with hseen
        obtain ⟨bytes, hread, hchecks⟩ := Except.bind_eq_ok.mp h
        obtain rfl := readToEnd_ok hread
        split_ifs at hchecks with hlength hsha
        rw [not_not] at hlength hsha
        have hname := hkeys _ _ hfind
        have hfile : tarFile? env entry = some file := by
          rw [tarFile?, if_pos hregular, hpath, Option.map_some, hlength, hsha, ← hname]
        refine ⟨file, hregular, hfile, ?_, ?_, ?_⟩
        · rw [hname, hfind]
        · rw [hname]
          exact hseen
        · rw [hname]
          exact (Except.ok.inj hchecks).symm

theorem checkTarEntries_ok {expected : OrderedMap String PublishFile} {seen seen' : List String}
    {items : List (Except String TarEntry)}
    (hkeys : ∀ path file, expected.find? path = some file → file.path = path)
    (hseen : seen.Nodup) (h : checkTarEntries env expected seen items = .ok seen') :
    ∃ entries, items = entries.map .ok ∧
      (∀ e ∈ entries, e.entryType = .directory ∨ e.entryType = .regular) ∧
      (∀ file ∈ tarFiles env entries, expected.find? file.path = some file) ∧ seen'.Nodup ∧
      seen' = ((tarFiles env entries).map PublishFile.path).reverse ++ seen := by
  induction items generalizing seen with
  | nil =>
    obtain rfl := Except.ok.inj h
    exact ⟨[], rfl, by simp, by simp [tarFiles], hseen, rfl⟩
  | cons item rest ih =>
    obtain ⟨entry, rfl, hentry⟩ := Except.bind_eq_ok.mp h
    obtain ⟨seen₁, hstep, hrest⟩ := Except.bind_eq_ok.mp hentry
    rcases checkTarEntry_ok hkeys hstep with ⟨hdir, hnone, rfl⟩ | ⟨file, hregular, hsome, hfind, hnew, rfl⟩
    · obtain ⟨entries, rfl, htypes, hexpected, hnodup, hall⟩ := ih hseen hrest
      have hfiles : tarFiles env (entry :: entries) = tarFiles env entries :=
        List.filterMap_cons_none hnone
      refine ⟨entry :: entries, rfl, List.forall_mem_cons.mpr ⟨Or.inl hdir, htypes⟩, ?_, hnodup, ?_⟩
      · rwa [hfiles]
      · rwa [hfiles]
    · obtain ⟨entries, rfl, htypes, hexpected, hnodup, hall⟩ :=
        ih (List.nodup_cons.mpr ⟨hnew, hseen⟩) hrest
      have hfiles : tarFiles env (entry :: entries) = file :: tarFiles env entries :=
        List.filterMap_cons_some hsome
      refine ⟨entry :: entries, rfl, List.forall_mem_cons.mpr ⟨Or.inr hregular, htypes⟩, ?_, hnodup, ?_⟩
      · rw [hfiles]
        exact List.forall_mem_cons.mpr ⟨hfind, hexpected⟩
      · rw [hall, hfiles, List.map_cons, List.reverse_cons, List.append_assoc]
        rfl

/-- Records of one path are one record. -/
def ListedOnce (files : List PublishFile) : Prop :=
  ∀ file ∈ files, ∀ other ∈ files, file.path = other.path → file = other

/-- What is expected of a path is the last record with it. -/
theorem find?_expected {files : List PublishFile} {path : String} {file : PublishFile}
    (h : (OrderedMap.ofList (files.map fun file => (file.path, file))).find? path = some file) :
    file ∈ files ∧ file.path = path := by
  rw [OrderedMap.find?_ofList] at h
  obtain ⟨row, hrow, rfl⟩ := Option.map_eq_some_iff.mp h
  have hmem := List.mem_reverse.mp (List.mem_of_find?_eq_some hrow)
  obtain ⟨file, hfile, rfl⟩ := List.mem_map.mp hmem
  exact ⟨hfile, by simpa using List.find?_some hrow⟩

theorem mem_keys_expected {files : List PublishFile} {file : PublishFile} (h : file ∈ files) :
    file.path ∈ (OrderedMap.ofList (files.map fun file => (file.path, file))).keys := by
  rw [OrderedMap.mem_keys, OrderedMap.find?_ofList, Option.isSome_map, List.find?_isSome]
  exact ⟨(file.path, file), List.mem_reverse.mpr (List.mem_map_of_mem h), by simp⟩

/-- The tarball has a file for every path of the assessment and no others, each with the
content of a record that the assessment has for it. -/
structure TarballMatches (env : TransferEnvironment) (entries : List TarEntry)
    (files : List PublishFile) : Prop where
  types : ∀ e ∈ entries, e.entryType = .directory ∨ e.entryType = .regular
  assessed : ∀ file ∈ tarFiles env entries, file ∈ files
  present : ∀ file ∈ files, ∃ other ∈ tarFiles env entries, other.path = file.path
  nodup : ((tarFiles env entries).map PublishFile.path).Nodup

theorem verifyTarballMatchesAssessment_ok {tarball : List UInt8} {assessment : PublishAssessmentV2}
    (h : verifyTarballMatchesAssessment env tarball assessment = .ok ()) :
    ∃ entries, env.decodeTarball tarball = .ok (entries.map .ok) ∧
      TarballMatches env entries assessment.files := by
  unfold verifyTarballMatchesAssessment at h
  obtain ⟨items, hdecode, hcheck⟩ := Except.bind_eq_ok.mp h
  obtain ⟨seen, hseen, hend⟩ := Except.bind_eq_ok.mp hcheck
  obtain ⟨entries, rfl, htypes, hexpected, hnodup, rfl⟩ :=
    checkTarEntries_ok (fun path file hfind => (find?_expected hfind).2) List.nodup_nil hseen
  rw [List.append_nil] at hnodup hend
  refine ⟨entries, hdecode, htypes, fun file hfile => (find?_expected (hexpected file hfile)).1, ?_,
    List.nodup_reverse.mp hnodup⟩
  intro file hfile
  split_ifs at hend with _ hall
  have hmem := of_decide_eq_true (List.all_eq_true.mp hall _ (mem_keys_expected hfile))
  obtain ⟨other, hother, hpath⟩ := List.mem_map.mp (List.mem_reverse.mp hmem)
  exact ⟨other, hother, hpath⟩

/-- The files are the assessed ones exactly when the assessment has one record for a path. -/
theorem TarballMatches.files_iff {entries : List TarEntry} {files : List PublishFile}
    (h : TarballMatches env entries files) :
    (∀ file, file ∈ tarFiles env entries ↔ file ∈ files) ↔ ListedOnce files := by
  constructor
  · intro hsame file hfile other hother hpath
    exact List.inj_on_of_nodup_map h.nodup ((hsame file).mpr hfile) ((hsame other).mpr hother) hpath
  · intro honce file
    refine ⟨h.assessed file, fun hfile => ?_⟩
    obtain ⟨other, hother, hpath⟩ := h.present file hfile
    rwa [← honce other (h.assessed other hother) file hfile hpath]

end Tarball

/-! ## Reading through links

`verifyCapsule` reads a table of places. Here a path is followed from the capsule directory as
the system does it, links included; the check itself is the same for both. -/

/-- `std::fs::read` of a path below the capsule. -/
def readLinked (fs : LinkedFiles) (capsule : Location) (path : List UInt8) :
    Except String (List UInt8) :=
  match fs.metadata true ⟨capsule, components path⟩ with
  | .ok (.file inode) => .ok (fs.data inode)
  | .ok _ => .error FileError.isADirectory.text
  | .error error => .error error.text

section Reading
variable (env : TransferEnvironment) (read : List UInt8 → Except String (List UInt8))

def recordAt {α : Type} (path : String) (ofValue? : Value → Option α) : Except String α := do
  let bytes ← read (asBytes path)
  let value ← env.parse bytes
  match ofValue? value with
  | some record => .ok record
  | none => .error "invalid record"

def tarballAt (tarball : TransferTarball) : Except String (List UInt8) := do
  let bytes ← read (asBytes tarball.path)
  ensure (UInt64.ofNat bytes.length = tarball.bytes) "tarball length does not match transfer manifest"
  ensure (sha256File env bytes = tarball.sha256) "tarball SHA-256 does not match transfer manifest"
  ensure (sha512File env bytes = tarball.sha512) "tarball SHA-512 does not match transfer manifest"
  .ok bytes

def assetAt (asset : TransferAsset) : Except String Unit := do
  let bytes ← read (asBytes asset.path)
  ensure (UInt64.ofNat bytes.length = asset.bytes)
    (asset.path ++ " length does not match transfer manifest")
  ensure (sha256File env bytes = asset.sha256)
    (asset.path ++ " SHA-256 does not match transfer manifest")

/-- `verifyCapsule` for any way of reading the files of the capsule. -/
def verifyCapsuleFrom (trustedPublicKey : Option String) : Except String TransferVerification := do
  let manifest ← recordAt env read "transfer.json" TransferManifest.ofValue?
  ensure (manifest.schemaVersion = transferSchemaVersion &&
    manifest.format = "oath-package-transfer") "unsupported Oath transfer format"
  let transferSignature ← recordAt env read "transfer.signature.json" DetachedSignature.ofValue?
  verifyJsonSignature env manifest.toValue transferSignature
    "transfer manifest signature is invalid"
  ensure (transferSignature.publicKey = manifest.signingPublicKey)
    "transfer signature key does not match the signed manifest"
  let tarball ← tarballAt env read manifest.tarball
  manifest.evidence.forM (assetAt env read)
  let assessment ← recordAt env read "evidence/assessment.json" PublishAssessmentV2.ofValue?
  verifyTarballMatchesAssessment env tarball assessment
  let detached ← recordAt env read "evidence/signature.json" fun value => some (detachedOf value)
  verifyJsonSignature env assessment.toValue detached "publish assessment signature is invalid"
  ensure (detached.publicKey = manifest.signingPublicKey)
    "assessment and transfer manifest were signed by different keys"
  ensure (assessment.name = manifest.name && assessment.version = manifest.version &&
    assessment.packageDigest = manifest.packageDigest)
    "signed assessment identity does not match transfer manifest"
  anchor manifest trustedPublicKey

end Reading

/-! ## What is established -/

theorem decodeExact_eq_ok {size : ℕ} {error : ContractError} {text : String} {bytes : List UInt8}
    (h : decodeExact size error text = .ok bytes) : Base64.decode text = some bytes := by
  unfold decodeExact at h
  cases hdecode : Base64.decode text with
  | none =>
    rw [hdecode] at h
    cases h
  | some other =>
    rw [hdecode] at h
    dsimp only at h
    split_ifs at h
    rw [Except.ok.inj h]

section Verification
variable {env : TransferEnvironment}

theorem ensure_eq_ok {condition : Bool} {message : String} :
    ensure condition message = .ok () ↔ condition = true := by
  unfold ensure
  cases condition <;> simp

/-- A verified signature is one of the canonical text under the key it names. -/
theorem verifyJsonSignature_ok {value : Value} {detached : DetachedSignature} {message : String}
    (h : verifyJsonSignature env value detached message = .ok ()) :
    ∃ key signature, Base64.decode detached.publicKey = some key ∧
      env.ed.verifies key (canonicalJsonBytes value) signature := by
  unfold verifyJsonSignature at h
  cases hverify : verifyJson env.ed value detached with
  | error error =>
    rw [hverify] at h
    cases h
  | ok _ =>
    unfold verifyJson at hverify
    split_ifs at hverify
    obtain ⟨key, hkey, hrest⟩ := Except.bind_eq_ok.mp hverify
    obtain ⟨signature, -, hend⟩ := Except.bind_eq_ok.mp hrest
    split_ifs at hend with _ hverifies
    exact ⟨key, signature, decodeExact_eq_ok hkey, hverifies⟩

/-- What a check that succeeds has compared. -/
structure Accepted (env : TransferEnvironment) (read : List UInt8 → Except String (List UInt8))
    (manifest : TransferManifest) (assessment : PublishAssessmentV2) (entries : List TarEntry) :
    Prop where
  manifestRead : recordAt env read "transfer.json" TransferManifest.ofValue? = .ok manifest
  assessmentRead :
    recordAt env read "evidence/assessment.json" PublishAssessmentV2.ofValue? = .ok assessment
  tarballRead : ∃ tarball, read (asBytes manifest.tarball.path) = .ok tarball ∧
    env.decodeTarball tarball = .ok (entries.map .ok)
  tarball : TarballMatches env entries assessment.files
  signatures : ∃ key first second, Base64.decode manifest.signingPublicKey = some key ∧
    env.ed.verifies key (canonicalJsonBytes manifest.toValue) first ∧
    env.ed.verifies key (canonicalJsonBytes assessment.toValue) second
  packageDigest : manifest.packageDigest = assessment.packageDigest

theorem tarballAt_ok {read : List UInt8 → Except String (List UInt8)} {tarball : TransferTarball}
    {bytes : List UInt8} (h : tarballAt env read tarball = .ok bytes) :
    read (asBytes tarball.path) = .ok bytes := by
  unfold tarballAt at h
  obtain ⟨found, hread, h1⟩ := Except.bind_eq_ok.mp h
  obtain ⟨-, -, h2⟩ := Except.bind_eq_ok.mp h1
  obtain ⟨-, -, h3⟩ := Except.bind_eq_ok.mp h2
  obtain ⟨-, -, h4⟩ := Except.bind_eq_ok.mp h3
  rw [hread, Except.ok.inj h4]

theorem verifyCapsuleFrom_ok {read : List UInt8 → Except String (List UInt8)}
    {trustedPublicKey : Option String} {verification : TransferVerification}
    (h : verifyCapsuleFrom env read trustedPublicKey = .ok verification) :
    ∃ manifest assessment entries, Accepted env read manifest assessment entries := by
  unfold verifyCapsuleFrom at h
  obtain ⟨manifest, hmanifest, h1⟩ := Except.bind_eq_ok.mp h
  obtain ⟨-, -, h2⟩ := Except.bind_eq_ok.mp h1
  obtain ⟨transferSignature, -, h3⟩ := Except.bind_eq_ok.mp h2
  obtain ⟨_, hverified, h4⟩ := Except.bind_eq_ok.mp h3
  obtain ⟨_, hkey, h5⟩ := Except.bind_eq_ok.mp h4
  obtain ⟨tarball, htarball, h6⟩ := Except.bind_eq_ok.mp h5
  obtain ⟨-, -, h7⟩ := Except.bind_eq_ok.mp h6
  obtain ⟨assessment, hassessment, h8⟩ := Except.bind_eq_ok.mp h7
  obtain ⟨_, hmatches, h9⟩ := Except.bind_eq_ok.mp h8
  obtain ⟨detached, -, h10⟩ := Except.bind_eq_ok.mp h9
  obtain ⟨_, hverified', h11⟩ := Except.bind_eq_ok.mp h10
  obtain ⟨_, hkey', h12⟩ := Except.bind_eq_ok.mp h11
  obtain ⟨_, hidentity, -⟩ := Except.bind_eq_ok.mp h12
  obtain ⟨entries, hdecode, htar⟩ := verifyTarballMatchesAssessment_ok hmatches
  obtain ⟨key, first, hdecoded, hfirst⟩ := verifyJsonSignature_ok hverified
  obtain ⟨other, second, hdecoded', hsecond⟩ := verifyJsonSignature_ok hverified'
  have hsame : transferSignature.publicKey = manifest.signingPublicKey :=
    of_decide_eq_true (ensure_eq_ok.mp hkey)
  have hsame' : detached.publicKey = manifest.signingPublicKey :=
    of_decide_eq_true (ensure_eq_ok.mp hkey')
  rw [hsame] at hdecoded
  rw [hsame'] at hdecoded'
  obtain rfl : key = other := Option.some.inj (hdecoded.symm.trans hdecoded')
  have hparts := ensure_eq_ok.mp hidentity
  simp only [Bool.and_eq_true, decide_eq_true_eq] at hparts
  exact ⟨manifest, assessment, entries, hmanifest, hassessment,
    ⟨tarball, tarballAt_ok htarball, hdecode⟩, htar, ⟨key, first, second, hdecoded, hfirst, hsecond⟩,
    hparts.2.symm⟩

end Verification

/-! ## Soundness -/

/-- The path leads to a place inside the capsule. -/
def LeadsInside (fs : LinkedFiles) (capsule : Location) (path : String) : Prop :=
  ∃ loc, fs.find true ⟨capsule, components (asBytes path)⟩ = .ok loc ∧ capsule <+: loc

/-- The files that are read and checked. -/
def verifiedPaths (manifest : TransferManifest) : List String :=
  ["transfer.json", "transfer.signature.json", "evidence/assessment.json",
    "evidence/signature.json", manifest.tarball.path] ++ manifest.evidence.map TransferAsset.path

/-- What a verified capsule is meant to say; `signed key message` when the owner of the key has
signed the message. -/
structure CapsuleSound (env : TransferEnvironment) (fs : LinkedFiles) (capsule : Location)
    (signed : List UInt8 → List UInt8 → Prop) (manifest : TransferManifest)
    (assessment : PublishAssessmentV2) (entries : List TarEntry) : Prop where
  inside : ∀ path ∈ verifiedPaths manifest, LeadsInside fs capsule path
  types : ∀ e ∈ entries, e.entryType = .directory ∨ e.entryType = .regular
  files : ∀ file, file ∈ tarFiles env entries ↔ file ∈ assessment.files
  nodup : ((tarFiles env entries).map PublishFile.path).Nodup
  sameKey : ∃ key, Base64.decode manifest.signingPublicKey = some key ∧
    signed key (canonicalJsonBytes manifest.toValue) ∧
    signed key (canonicalJsonBytes assessment.toValue)
  decision : manifest.assessmentDecision = assessment.decision.asStr
  reasonCode : manifest.assessmentReasonCode = assessment.reasonCode.asStr
  capabilities : manifest.capabilities = assessment.capabilities
  packageDigest : manifest.packageDigest = assessment.packageDigest

/-- What the verification leaves to whoever made the capsule. -/
structure CapsuleUnchecked (fs : LinkedFiles) (capsule : Location) (manifest : TransferManifest)
    (assessment : PublishAssessmentV2) : Prop where
  inside : ∀ path ∈ verifiedPaths manifest, LeadsInside fs capsule path
  listedOnce : ListedOnce assessment.files
  decision : manifest.assessmentDecision = assessment.decision.asStr
  reasonCode : manifest.assessmentReasonCode = assessment.reasonCode.asStr
  capabilities : manifest.capabilities = assessment.capabilities

/-- An accepted capsule is sound exactly when its paths lead inside it, its assessment has one
record for a path, and its manifest repeats decision, reason and capabilities of the assessment. -/
theorem verifyCapsule_sound_iff {env : TransferEnvironment} {fs : LinkedFiles} {capsule : Location}
    {signed : List UInt8 → List UInt8 → Prop} {trustedPublicKey : Option String}
    {verification : TransferVerification} {manifest : TransferManifest}
    {assessment : PublishAssessmentV2} {tarball : List UInt8} {entries : List TarEntry}
    (hsigned : ∀ key message signature, env.ed.verifies key message signature → signed key message)
    (hmanifest : recordAt env (readLinked fs capsule) "transfer.json" TransferManifest.ofValue? =
      .ok manifest)
    (hassessment : recordAt env (readLinked fs capsule) "evidence/assessment.json"
      PublishAssessmentV2.ofValue? = .ok assessment)
    (htarball : readLinked fs capsule (asBytes manifest.tarball.path) = .ok tarball)
    (hentries : env.decodeTarball tarball = .ok (entries.map .ok))
    (h : verifyCapsuleFrom env (readLinked fs capsule) trustedPublicKey = .ok verification) :
    CapsuleSound env fs capsule signed manifest assessment entries ↔
      CapsuleUnchecked fs capsule manifest assessment := by
  obtain ⟨manifest', assessment', entries', hrun⟩ := verifyCapsuleFrom_ok h
  obtain rfl : manifest = manifest' := Except.ok.inj (hmanifest.symm.trans hrun.manifestRead)
  obtain rfl : assessment = assessment' :=
    Except.ok.inj (hassessment.symm.trans hrun.assessmentRead)
  obtain ⟨tarball', htarball', hentries'⟩ := hrun.tarballRead
  obtain rfl : tarball = tarball' := Except.ok.inj (htarball.symm.trans htarball')
  obtain rfl : entries = entries' :=
    (List.map_injective_iff.mpr fun a b => Except.ok.inj)
      (Except.ok.inj (hentries.symm.trans hentries'))
  obtain ⟨key, first, second, hkey, hfirst, hsecond⟩ := hrun.signatures
  constructor
  · intro hsound
    exact ⟨hsound.inside, hrun.tarball.files_iff.mp hsound.files, hsound.decision,
      hsound.reasonCode, hsound.capabilities⟩
  · intro hunchecked
    refine ⟨hunchecked.inside, hrun.tarball.types, hrun.tarball.files_iff.mpr hunchecked.listedOnce,
      hrun.tarball.nodup, ⟨key, hkey, ?_, ?_⟩, hunchecked.decision, hunchecked.reasonCode,
      hunchecked.capabilities, hrun.packageDigest⟩
    · exact hsigned key _ first hfirst
    · exact hsigned key _ second hsecond

/-! ## A manifest that says something else -/

/-- The assessment of a package that must not be published. -/
def deniedAssessment : PublishAssessmentV2 := { demoAssessment with
  capabilities := ["network"]
  secretFindings := ["github-token:index.js"]
  decision := .deny
  reasonCode := .publishSecretDetected }

/-- A manifest that says of it that it may be, and names no capability. -/
def forgedManifest : TransferManifest where
  schemaVersion := 1
  format := "oath-package-transfer"
  name := "demo"
  version := "1.0.0"
  packageDigest := demoAssessment.packageDigest
  assessmentDecision := "allow"
  assessmentReasonCode := "OATH_PUBLISH_ALLOWED"
  capabilities := []
  signingPublicKey := demoKey.publicKey
  tarball := ⟨"package/demo-1.0.0.tgz", 106,
    "sha256:2e8aef803a385c105beb738d1cf8ddcb88a6f8382e84bda1fec722acaef77579",
    "sha512:3f268c41ebdae118177105ee6a395651665e316aaf9a3f39eced960535277476" ++
      "df5aa5e1b157f6f348d79b9f3437f4a6e5eddaede7facfdc549b9b2575f5ee07"⟩
  evidence := []
  consumerDecision := "review-required"
  limitations := []

def deniedSignature : DetachedSignature where
  algorithm := "ed25519"
  canonicalization := "oath-json-v1"
  publicKey := demoKey.publicKey
  signature := "29o9sY26CJRyRxSxAkuSiytoW5CKqfLmy+1dLmKbzADr1b9d5xvXuWSVpdAGBRSbb0y78gbmTfeT6nVYT41XCg=="

def forgedSignature : DetachedSignature := { deniedSignature with
  signature := "ECc49LFemfk2yLtWRQUzh+lfHvMkxIIFlmrKCfIP04CCUKd9oNsB/d5sKCNkParN6PnvjpLRjoby3BvvTlveDw==" }

/-- The two messages that the key has signed. -/
def forgedSigned : List (List UInt8 × String) := [
  (canonicalJsonBytes deniedAssessment.toValue, deniedSignature.signature),
  (canonicalJsonBytes forgedManifest.toValue, forgedSignature.signature)]

def forgedEd25519 : Ed25519 where
  isKey key := some key = Base64.decode demoKey.publicKey
  verifies key message signature :=
    some key = Base64.decode demoKey.publicKey ∧
      forgedSigned.any fun row => row.1 = message ∧ some signature = Base64.decode row.2

def forgedDocuments : List Value := [
  forgedManifest.toValue, forgedSignature.toValue, deniedAssessment.toValue,
  signatureValue deniedSignature]

def forgedEnvironment : TransferEnvironment := { packingEnvironment with
  parse := parseOneOf forgedDocuments
  ed := forgedEd25519 }

def forgedCapsule : Location := [asBytes "out"]

def forgedFiles : LinkedFiles where
  entries := Table.empty
    |>.upsert (forgedCapsule, .directory)
    |>.upsert (forgedCapsule ++ [asBytes "transfer.json"], .file 0)
    |>.upsert (forgedCapsule ++ [asBytes "transfer.signature.json"], .file 1)
    |>.upsert (forgedCapsule ++ [asBytes "evidence"], .directory)
    |>.upsert (forgedCapsule ++ [asBytes "evidence", asBytes "assessment.json"], .file 2)
    |>.upsert (forgedCapsule ++ [asBytes "evidence", asBytes "signature.json"], .file 3)
    |>.upsert (forgedCapsule ++ [asBytes "package"], .directory)
    |>.upsert (forgedCapsule ++ [asBytes "package", asBytes "demo-1.0.0.tgz"], .file 4)
  data inode := ((forgedDocuments.map prettyBytes ++ [demoTarball])[inode]?).getD []

theorem readLinked_of_file {fs : LinkedFiles} {capsule : Location} {path : List UInt8} {inode : ℕ}
    (h : fs.metadata true ⟨capsule, components path⟩ = .ok (.file inode)) :
    readLinked fs capsule path = .ok (fs.data inode) := by
  rw [readLinked, h]

theorem recordAt_ok {env : TransferEnvironment} {read : List UInt8 → Except String (List UInt8)}
    {α : Type} {path : String} {ofValue? : Value → Option α} {record : α} (value : Value)
    (hread : read (asBytes path) = .ok (env.pretty value))
    (hparse : env.parse (env.pretty value) = .ok value) (hrecord : ofValue? value = some record) :
    recordAt env read path ofValue? = .ok record := by
  unfold recordAt
  rw [bind_of_ok hread, bind_of_ok hparse, hrecord]

theorem forgedDocuments_distinct :
    forgedDocuments.Pairwise fun a b => prettyBytes a ≠ prettyBytes b := by
  decide +kernel

/-- The documents of the capsule and its tarball, as they are read. -/
theorem forgedCapsule_reads :
    recordAt forgedEnvironment (readLinked forgedFiles forgedCapsule) "transfer.json"
      TransferManifest.ofValue? = .ok forgedManifest ∧
    recordAt forgedEnvironment (readLinked forgedFiles forgedCapsule) "transfer.signature.json"
      DetachedSignature.ofValue? = .ok forgedSignature ∧
    recordAt forgedEnvironment (readLinked forgedFiles forgedCapsule) "evidence/assessment.json"
      PublishAssessmentV2.ofValue? = .ok deniedAssessment ∧
    (recordAt forgedEnvironment (readLinked forgedFiles forgedCapsule) "evidence/signature.json"
      fun value => some (detachedOf value)) = .ok deniedSignature ∧
    readLinked forgedFiles forgedCapsule (asBytes forgedManifest.tarball.path) =
      .ok demoTarball := by
  have hplace : ∀ row ∈ [("transfer.json", 0), ("transfer.signature.json", 1),
      ("evidence/assessment.json", 2), ("evidence/signature.json", 3),
      ("package/demo-1.0.0.tgz", 4)],
      forgedFiles.metadata true ⟨forgedCapsule, components (asBytes row.1)⟩ = .ok (.file row.2) := by
    decide
  have hread := fun row hrow => readLinked_of_file (hplace row hrow)
  have hparse : ∀ value ∈ forgedDocuments,
      forgedEnvironment.parse (forgedEnvironment.pretty value) = .ok value :=
    fun value hvalue => parseOneOf_ok forgedDocuments_distinct hvalue
  refine ⟨?_, ?_, ?_, ?_, ?_⟩
  · exact recordAt_ok forgedManifest.toValue (hread ("transfer.json", 0) (by simp))
      (hparse _ (by simp [forgedDocuments])) (TransferManifest.ofValue?_toValue _)
  · exact recordAt_ok forgedSignature.toValue (hread ("transfer.signature.json", 1) (by simp))
      (hparse _ (by simp [forgedDocuments])) (DetachedSignature.ofValue?_toValue _)
  · exact recordAt_ok deniedAssessment.toValue (hread ("evidence/assessment.json", 2) (by simp))
      (hparse _ (by simp [forgedDocuments])) (PublishAssessmentV2.ofValue?_toValue _)
  · exact recordAt_ok (signatureValue deniedSignature)
      (hread ("evidence/signature.json", 3) (by simp)) (hparse _ (by simp [forgedDocuments]))
      (congrArg some (detachedOf_signatureValue _))
  · exact hread ("package/demo-1.0.0.tgz", 4) (by simp)

theorem forged_verifies {value : Value} {detached : DetachedSignature} (message : String)
    (hrow : (canonicalJsonBytes value, detached.signature) ∈ forgedSigned)
    (hdetached : detached = { deniedSignature with signature := detached.signature }) :
    verifyJsonSignature forgedEnvironment value detached message = .ok () := by
  have hpublic : (Base64.decode demoKey.publicKey).map List.length = some 32 := by decide
  have hlengths : ∀ text ∈ [deniedSignature.signature, forgedSignature.signature],
      (Base64.decode text).map List.length = some 64 := by decide
  obtain ⟨key, hkey, hsize⟩ := Option.map_eq_some_iff.mp hpublic
  have hmember : detached.signature ∈ [deniedSignature.signature, forgedSignature.signature] :=
    List.mem_map_of_mem (f := Prod.snd) hrow
  obtain ⟨signature, hsignature, hlength⟩ := Option.map_eq_some_iff.mp (hlengths _ hmember)
  have hverifies : forgedEd25519.verifies key (canonicalJsonBytes value) signature := by
    simp only [forgedEd25519, decide_eq_true_eq]
    refine ⟨hkey.symm, List.any_eq_true.mpr ⟨_, hrow, ?_⟩⟩
    simp [hsignature]
  have hverify : verifyJson forgedEd25519 value detached = .ok () := by
    rw [hdetached]
    refine Except.bind_eq_ok.mpr ⟨key, decodeExact_ok hkey hsize, ?_⟩
    refine Except.bind_eq_ok.mpr ⟨signature, decodeExact_ok hsignature hlength, ?_⟩
    have hisKey : forgedEd25519.isKey key = true := decide_eq_true hkey.symm
    rw [hisKey, hverifies]
    rfl
  have henv : forgedEnvironment.ed = forgedEd25519 := rfl
  rw [verifyJsonSignature, henv, hverify]

/-- The capsule is accepted. -/
theorem forgedCapsule_accepted :
    verifyCapsuleFrom forgedEnvironment (readLinked forgedFiles forgedCapsule) none =
      .ok (transferVerification forgedManifest false) := by
  obtain ⟨hmanifest, hsignature, hassessment, hdetached, hread⟩ := forgedCapsule_reads
  have hchecks : UInt64.ofNat demoTarball.length = forgedManifest.tarball.bytes ∧
      sha256File forgedEnvironment demoTarball = forgedManifest.tarball.sha256 ∧
      sha512File forgedEnvironment demoTarball = forgedManifest.tarball.sha512 ∧
      (verifyTarballMatchesAssessment forgedEnvironment demoTarball deniedAssessment).toOption =
        some () := by decide +kernel
  obtain ⟨hlength, hsha256, hsha512, hmatch⟩ := hchecks
  have htarball : tarballAt forgedEnvironment (readLinked forgedFiles forgedCapsule)
      forgedManifest.tarball = .ok demoTarball := by
    unfold tarballAt
    rw [bind_of_ok hread, ensure_bind (by simp [hlength]), ensure_bind (by simp [hsha256]),
      ensure_bind (by simp [hsha512])]
  have hassets : forgedManifest.evidence.forM
      (assetAt forgedEnvironment (readLinked forgedFiles forgedCapsule)) = .ok () := rfl
  have hmatches : verifyTarballMatchesAssessment forgedEnvironment demoTarball deniedAssessment =
      .ok () := by
    cases hresult : verifyTarballMatchesAssessment forgedEnvironment demoTarball deniedAssessment with
    | ok _ => rfl
    | error message =>
      rw [hresult] at hmatch
      cases hmatch
  unfold verifyCapsuleFrom
  rw [bind_of_ok hmanifest, ensure_bind (by rfl), bind_of_ok hsignature,
    bind_of_ok (forged_verifies _ (by simp [forgedSigned]) rfl), ensure_bind (by decide),
    bind_of_ok htarball, bind_of_ok hassets, bind_of_ok hassessment, bind_of_ok hmatches,
    bind_of_ok hdetached, bind_of_ok (forged_verifies _ (by simp [forgedSigned]) rfl),
    ensure_bind (by decide), ensure_bind (by decide)]
  rfl

/-- The key that signed a message. -/
def ForgedSigned (key message : List UInt8) : Prop :=
  some key = Base64.decode demoKey.publicKey ∧ message ∈ forgedSigned.map Prod.fst

theorem forgedEd25519_signed (key message signature : List UInt8)
    (h : forgedEnvironment.ed.verifies key message signature) : ForgedSigned key message := by
  have hverifies : forgedEd25519.verifies key message signature := h
  simp only [forgedEd25519, decide_eq_true_eq] at hverifies
  obtain ⟨hkey, hany⟩ := hverifies
  obtain ⟨row, hrow, hboth⟩ := List.any_eq_true.mp hany
  exact ⟨hkey, List.mem_map.mpr ⟨row, hrow, (of_decide_eq_true hboth).1⟩⟩

/-- The manifest allows what the assessment denies, under one key. -/
theorem verifyCapsule_unsound : ∃ verification,
    verifyCapsuleFrom forgedEnvironment (readLinked forgedFiles forgedCapsule) none =
      .ok verification ∧
    recordAt forgedEnvironment (readLinked forgedFiles forgedCapsule) "transfer.json"
      TransferManifest.ofValue? = .ok forgedManifest ∧
    recordAt forgedEnvironment (readLinked forgedFiles forgedCapsule) "evidence/assessment.json"
      PublishAssessmentV2.ofValue? = .ok deniedAssessment ∧
    ¬ CapsuleSound forgedEnvironment forgedFiles forgedCapsule ForgedSigned forgedManifest
      deniedAssessment [demoTarEntry] := by
  obtain ⟨hmanifest, -, hassessment, -, -⟩ := forgedCapsule_reads
  refine ⟨_, forgedCapsule_accepted, hmanifest, hassessment, fun hsound => ?_⟩
  have hdecision := hsound.decision
  exact absurd hdecision (by decide)

theorem verifyCapsule_sound_iff_forged :
    CapsuleSound forgedEnvironment forgedFiles forgedCapsule ForgedSigned forgedManifest
        deniedAssessment [demoTarEntry] ↔
      CapsuleUnchecked forgedFiles forgedCapsule forgedManifest deniedAssessment := by
  obtain ⟨hmanifest, -, hassessment, -, hread⟩ := forgedCapsule_reads
  have hentries : forgedEnvironment.decodeTarball demoTarball = .ok ([demoTarEntry].map .ok) := by
    have hdecode : forgedEnvironment.decodeTarball demoTarball = if demoTarball = demoTarball then
      .ok [.ok demoTarEntry] else .error "invalid gzip header" := rfl
    rw [hdecode, if_pos rfl]
    rfl
  exact verifyCapsule_sound_iff forgedEd25519_signed hmanifest hassessment hread hentries
    forgedCapsule_accepted

end Oath.Cli
