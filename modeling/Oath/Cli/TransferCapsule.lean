import Oath.Contracts.Assessments
import Oath.Contracts.SignedRecords
import Oath.Library.OrderedMap
import Oath.Library.Utf8
import Oath.Registry.Archive

/-! The manifest of a package transfer as a JSON value, the evidence of a publish assessment, the
capsule in which a package is handed over with it, and the check of such a capsule. -/

namespace Oath.Cli
open Contracts Value

def transferSchemaVersion : UInt32 := 1

structure TransferAsset where
  path : String
  bytes : UInt64
  sha256 : String
deriving DecidableEq, Repr

structure TransferTarball where
  path : String
  bytes : UInt64
  sha256 : String
  sha512 : String
deriving DecidableEq, Repr

structure TransferManifest where
  schemaVersion : UInt32
  format : String
  name : String
  version : String
  packageDigest : String
  assessmentDecision : String
  assessmentReasonCode : String
  capabilities : List String
  signingPublicKey : String
  tarball : TransferTarball
  evidence : List TransferAsset
  consumerDecision : String
  limitations : List String
deriving DecidableEq, Repr

def TransferAsset.fields (asset : TransferAsset) : List (String × Value) :=
  [("path", .string asset.path), ("bytes", .int asset.bytes.toNat),
    ("sha256", .string asset.sha256)]

def TransferAsset.toValue (asset : TransferAsset) : Value := .json asset.fields

def TransferAsset.ofValue? (value : Value) : Option TransferAsset := do
  let value ← value.record? ["path", "bytes", "sha256"] 3
  let path ← value.field? "path" asStr?
  let bytes ← value.field? "bytes" asU64?
  let sha256 ← value.field? "sha256" asStr?
  some ⟨path, bytes, sha256⟩

theorem TransferAsset.ofValue?_toValue (asset : TransferAsset) :
    ofValue? asset.toValue = some asset := by
  have hnodup : (asset.fields.map Prod.fst).Nodup := by simp [fields]
  have hget := Value.get?_json_of_nodup hnodup
  simp only [fields, List.forall_mem_cons] at hget
  obtain ⟨h1, h2, h3, -⟩ := hget
  refine Option.bind_of_eq_some (a := asset.toValue) rfl ?_
  refine Option.bind_of_eq_some (Value.field?_of_get? _ h1) ?_
  refine Option.bind_of_eq_some ((Value.field?_of_get? _ h2).trans (asU64?_int _)) ?_
  exact Option.bind_of_eq_some (Value.field?_of_get? _ h3) rfl

def TransferTarball.fields (tarball : TransferTarball) : List (String × Value) :=
  [("path", .string tarball.path), ("bytes", .int tarball.bytes.toNat),
    ("sha256", .string tarball.sha256), ("sha512", .string tarball.sha512)]

def TransferTarball.toValue (tarball : TransferTarball) : Value := .json tarball.fields

def TransferTarball.ofValue? (value : Value) : Option TransferTarball := do
  let value ← value.record? ["path", "bytes", "sha256", "sha512"] 4
  let path ← value.field? "path" asStr?
  let bytes ← value.field? "bytes" asU64?
  let sha256 ← value.field? "sha256" asStr?
  let sha512 ← value.field? "sha512" asStr?
  some ⟨path, bytes, sha256, sha512⟩

theorem TransferTarball.ofValue?_toValue (tarball : TransferTarball) :
    ofValue? tarball.toValue = some tarball := by
  have hnodup : (tarball.fields.map Prod.fst).Nodup := by simp [fields]
  have hget := Value.get?_json_of_nodup hnodup
  simp only [fields, List.forall_mem_cons] at hget
  obtain ⟨h1, h2, h3, h4, -⟩ := hget
  refine Option.bind_of_eq_some (a := tarball.toValue) rfl ?_
  refine Option.bind_of_eq_some (Value.field?_of_get? _ h1) ?_
  refine Option.bind_of_eq_some ((Value.field?_of_get? _ h2).trans (asU64?_int _)) ?_
  refine Option.bind_of_eq_some (Value.field?_of_get? _ h3) ?_
  exact Option.bind_of_eq_some (Value.field?_of_get? _ h4) rfl

def TransferManifest.fields (m : TransferManifest) : List (String × Value) :=
  [("schema_version", .int m.schemaVersion.toNat), ("format", .string m.format),
    ("name", .string m.name), ("version", .string m.version),
    ("package_digest", .string m.packageDigest),
    ("assessment_decision", .string m.assessmentDecision),
    ("assessment_reason_code", .string m.assessmentReasonCode),
    ("capabilities", strings m.capabilities),
    ("signing_public_key", .string m.signingPublicKey), ("tarball", m.tarball.toValue),
    ("evidence", .array (m.evidence.map TransferAsset.toValue)),
    ("consumer_decision", .string m.consumerDecision), ("limitations", strings m.limitations)]

def TransferManifest.toValue (m : TransferManifest) : Value := .json m.fields

def TransferManifest.ofValue? (value : Value) : Option TransferManifest := do
  let value ← value.record? ["schema_version", "format", "name", "version", "package_digest",
    "assessment_decision", "assessment_reason_code", "capabilities", "signing_public_key",
    "tarball", "evidence", "consumer_decision", "limitations"] 13
  let schemaVersion ← value.field? "schema_version" asU32?
  let format ← value.field? "format" asStr?
  let name ← value.field? "name" asStr?
  let version ← value.field? "version" asStr?
  let packageDigest ← value.field? "package_digest" asStr?
  let assessmentDecision ← value.field? "assessment_decision" asStr?
  let assessmentReasonCode ← value.field? "assessment_reason_code" asStr?
  let capabilities ← value.field? "capabilities" strings?
  let signingPublicKey ← value.field? "signing_public_key" asStr?
  let tarball ← value.field? "tarball" TransferTarball.ofValue?
  let evidence ← value.field? "evidence" (listOf? TransferAsset.ofValue?)
  let consumerDecision ← value.field? "consumer_decision" asStr?
  let limitations ← value.field? "limitations" strings?
  some ⟨schemaVersion, format, name, version, packageDigest, assessmentDecision,
    assessmentReasonCode, capabilities, signingPublicKey, tarball, evidence, consumerDecision,
    limitations⟩

theorem TransferManifest.ofValue?_toValue (m : TransferManifest) :
    ofValue? m.toValue = some m := by
  have hnodup : (m.fields.map Prod.fst).Nodup := by simp [fields]
  have hget := Value.get?_json_of_nodup hnodup
  simp only [fields, List.forall_mem_cons] at hget
  obtain ⟨h1, h2, h3, h4, h5, h6, h7, h8, h9, h10, h11, h12, h13, -⟩ := hget
  have hstrings := Value.strings?_strings
  have htarball := TransferTarball.ofValue?_toValue m.tarball
  have hevidence := Value.listOf?_map TransferAsset.ofValue?_toValue m.evidence
  refine Option.bind_of_eq_some (a := m.toValue) rfl ?_
  refine Option.bind_of_eq_some ((Value.field?_of_get? _ h1).trans (asU32?_int _)) ?_
  refine Option.bind_of_eq_some (Value.field?_of_get? _ h2) ?_
  refine Option.bind_of_eq_some (Value.field?_of_get? _ h3) ?_
  refine Option.bind_of_eq_some (Value.field?_of_get? _ h4) ?_
  refine Option.bind_of_eq_some (Value.field?_of_get? _ h5) ?_
  refine Option.bind_of_eq_some (Value.field?_of_get? _ h6) ?_
  refine Option.bind_of_eq_some (Value.field?_of_get? _ h7) ?_
  refine Option.bind_of_eq_some ((Value.field?_of_get? _ h8).trans (hstrings _)) ?_
  refine Option.bind_of_eq_some (Value.field?_of_get? _ h9) ?_
  refine Option.bind_of_eq_some ((Value.field?_of_get? _ h10).trans htarball) ?_
  refine Option.bind_of_eq_some ((Value.field?_of_get? _ h11).trans hevidence) ?_
  refine Option.bind_of_eq_some (Value.field?_of_get? _ h12) ?_
  exact Option.bind_of_eq_some ((Value.field?_of_get? _ h13).trans (hstrings _)) rfl

open Registry Unix

/-! ## Files -/

/-- The files that there are, and the directories that were made. Paths are the places they
lead to. -/
structure Disk where
  files : Table (Prod.fst : Location × List UInt8 → Location)
  directories : List Location

namespace Disk

def file? (disk : Disk) (loc : Location) : Option (List UInt8) :=
  (disk.files.find? loc).map Prod.snd

def write (disk : Disk) (loc : Location) (bytes : List UInt8) : Disk :=
  { disk with files := disk.files.upsert (loc, bytes) }

def remove (disk : Disk) (loc : Location) : Disk :=
  { disk with files := disk.files.delete fun row => row.1 = loc }

def createDirAll (disk : Disk) (loc : Location) : Disk :=
  { disk with directories := loc :: disk.directories }

/-- A directory is there as long as there is something in it. -/
def pathExists (disk : Disk) (loc : Location) : Bool :=
  (disk.files.rows.any fun row => loc.isPrefixOf row.1) ||
    disk.directories.any fun directory => loc.isPrefixOf directory

def read (disk : Disk) (loc : Location) : Except String (List UInt8) :=
  match disk.file? loc with
  | some bytes => .ok bytes
  | none => .error "No such file or directory (os error 2)"

@[simp] theorem file?_write (disk : Disk) (loc other : Location) (bytes : List UInt8) :
    (disk.write loc bytes).file? other = if loc = other then some bytes else disk.file? other := by
  rw [file?, write, Table.find?_upsert]
  by_cases h : loc = other <;> simp [h, file?]

@[simp] theorem file?_createDirAll (disk : Disk) (loc other : Location) :
    (disk.createDirAll loc).file? other = disk.file? other := rfl

theorem read_ok {disk : Disk} {loc : Location} {bytes : List UInt8} :
    disk.read loc = .ok bytes ↔ disk.file? loc = some bytes := by
  unfold read
  cases disk.file? loc <;> simp

/-- Nothing stands at a path that does not exist, or below it. -/
theorem not_prefix_of_not_exists {disk : Disk} {loc other : Location} {bytes : List UInt8}
    (h : disk.pathExists loc = false) (hfile : disk.file? other = some bytes) :
    ¬loc <+: other := by
  intro hprefix
  obtain ⟨row, hrow, -⟩ := Option.map_eq_some_iff.mp hfile
  have hany : (disk.files.rows.any fun row => loc.isPrefixOf row.1) = true := by
    refine List.any_eq_true.mpr ⟨row, Table.mem_of_find? hrow, ?_⟩
    rw [Table.key_of_find? hrow]
    exact List.isPrefixOf_iff_prefix.mpr hprefix
  rw [pathExists, hany, Bool.true_or] at h
  cases h

end Disk

/-- `join` with a relative or absolute path. -/
def join (loc : Location) (path : List UInt8) : Location := resolve loc (components path)

/-! ## What the commands find outside -/

structure TransferEnvironment where
  sha : Sha256
  sha512 : List UInt8 → List UInt8
  parse : List UInt8 → Except String Value
  pretty : Value → List UInt8
  decodeTarball : DecodeTarball
  /-- `npm pack` of these files: the name of the tarball and its bytes. -/
  npmPack : List (String × List UInt8) → Except String (List UInt8 × List UInt8)
  ed : Ed25519
  signingKey : SigningKey
  home : Option Location
  packageVersion : String

section Operations
variable (env : TransferEnvironment)

def sha256File (bytes : List UInt8) : String := "sha256:" ++ hexSha256 env.sha bytes

def sha512File (bytes : List UInt8) : String := "sha512:" ++ hexEncode (env.sha512 bytes)

/-! ## Evidence -/

/-- Every leading occurrence of the pattern goes. -/
def trimStart (pattern : List Char) : ℕ → List Char → List Char
  | 0, text => text
  | fuel + 1, text =>
    if pattern.isPrefixOf text then trimStart pattern fuel (text.drop pattern.length) else text

def digestText (packageDigest : String) : String :=
  String.ofList
    (trimStart "sha256:".toList packageDigest.toList.length packageDigest.toList)

def safeName (name : String) : String :=
  String.ofList (name.toList.map fun c => if c = '@' ∨ c = '/' then '-' else c)

def sbomDependency (dependency : String × Value) : Value := .json [
  ("SPDXID", .string ("SPDXRef-Dependency-" ++ safeName dependency.1)),
  ("name", .string dependency.1),
  ("versionInfo", .string (dependency.2.asStr?.getD "NOASSERTION")),
  ("downloadLocation", .string "NOASSERTION"), ("filesAnalyzed", .bool false)]

def sbomDependencies (package : Value) : List Value :=
  ["dependencies", "optionalDependencies", "peerDependencies"].flatMap fun key =>
    (((package.get? key).bind Value.asObject?).getD []).map sbomDependency

def spdxSbom (package : Value) (assessment : PublishAssessmentV2) : Value := .json [
  ("spdxVersion", .string "SPDX-2.3"), ("dataLicense", .string "CC0-1.0"),
  ("SPDXID", .string "SPDXRef-DOCUMENT"),
  ("name", .string (assessment.name ++ "-" ++ assessment.version)),
  ("documentNamespace", .string ("https://oath.dev/spdx/" ++ assessment.name ++ "/" ++
    digestText assessment.packageDigest)),
  ("creationInfo", .json [("created", .string "1970-01-01T00:00:00Z"),
    ("creators", Value.strings ["Tool: oath-" ++ env.packageVersion])]),
  ("packages", .array (.json [
    ("SPDXID", .string "SPDXRef-RootPackage"), ("name", .string assessment.name),
    ("versionInfo", .string assessment.version), ("downloadLocation", .string "NOASSERTION"),
    ("filesAnalyzed", .bool true),
    ("checksums", .array [.json [("algorithm", .string "SHA256"),
      ("checksumValue", .string (digestText assessment.packageDigest))]])] ::
    sbomDependencies package))]

def assessmentAttestation (assessment : PublishAssessmentV2) : Value := .json [
  ("_type", .string "https://in-toto.io/Statement/v1"),
  ("subject", .array [.json [
    ("name", .string (assessment.name ++ "@" ++ assessment.version)),
    ("digest", .json [("sha256", .string (digestText assessment.packageDigest))])]]),
  ("predicateType", .string "https://oath.dev/attestation/publish-assessment/v1"),
  ("predicate", .json [
    ("assessor", .string ("oath/" ++ env.packageVersion)),
    ("assessment_time", .int assessment.generatedAt.toNat), ("tag", .string assessment.tag),
    ("access", Value.optString assessment.access),
    ("decision", .string assessment.decision.asStr),
    ("reason_code", .string assessment.reasonCode.asStr),
    ("evidence_digest", .string assessment.evidenceDigest),
    ("note", .string ("This attests the local package snapshot and assessment, " ++
      "not source-build provenance."))])]

structure PersistedEvidence where
  directory : Location
  assessmentSignature : String
  signingPublicKey : String
  sbomPath : Location
  provenancePath : Location

/-- A file is written beside its place and renamed; its extension is `json`. -/
def atomicJson (disk : Disk) (directory : Location) (stem : String) (value : Value) : Disk :=
  let temp := directory ++ [asBytes (stem ++ ".tmp")]
  let bytes := env.pretty value
  ((disk.write temp bytes).remove temp).write (directory ++ [asBytes (stem ++ ".json")]) bytes

/-- The path of a place. -/
def pathText (loc : Location) : List UInt8 := slash :: [slash].intercalate loc

def publishAssessmentRoot (root : Location) : Except String Location :=
  match env.home with
  | none => .error "HOME or USERPROFILE is required for publish evidence"
  | some home =>
    let lossy := asBytes (String.ofList (Utf8.lossy (pathText root)))
    .ok (home ++ [asBytes ".oath", asBytes "publish-assessments", asBytes "projects",
      asBytes (hexSha256 env.sha lossy)])

def evidenceName (assessment : PublishAssessmentV2) : List UInt8 :=
  asBytes (safeName assessment.name ++ "-" ++ assessment.version ++ "-") ++
    (asBytes (digestText assessment.packageDigest)).take 12

def signatureValue (detached : DetachedSignature) : Value := .json [
  ("algorithm", .string detached.algorithm),
  ("canonicalization", .string detached.canonicalization),
  ("signature", .string detached.signature), ("public_key", .string detached.publicKey),
  ("subject", .string "assessment.json")]

def persistSigned (root : Location) (assessment : PublishAssessmentV2) (package : Value)
    (disk : Disk) : Except String (PersistedEvidence × Disk) := do
  let projectRoot ← publishAssessmentRoot env root
  let directory := join projectRoot (evidenceName assessment)
  let disk := disk.createDirAll directory
  let disk := atomicJson env disk directory "assessment" assessment.toValue
  let disk := atomicJson env disk directory "sbom.spdx" (spdxSbom env package assessment)
  let disk := atomicJson env disk directory "provenance.intoto"
    (assessmentAttestation env assessment)
  let detached := signJson assessment.toValue env.signingKey
  let disk := atomicJson env disk directory "signature" (signatureValue detached)
  .ok (⟨directory, detached.signature, detached.publicKey,
    directory ++ [asBytes "sbom.spdx.json"], directory ++ [asBytes "provenance.intoto.json"]⟩, disk)

/-! ## The tarball -/

def emptyPiece (piece : Name) : Bool := piece = [] || piece = [dot]

/-- What stands below `package`, as `strip_prefix` leaves it. -/
def packageRelative? (path : List UInt8) : Option (List Name) :=
  match pieces path with
  | [] => none
  | first :: rest =>
    if first = asBytes "package" then
      some ((rest.dropWhile emptyPiece).reverse.dropWhile emptyPiece).reverse
    else none

def relativeText (names : List Name) : String :=
  String.ofList ((Utf8.lossy ([slash].intercalate names)).map fun c => if c = '\\' then '/' else c)

def checkTarEntry (expected : OrderedMap String PublishFile) (seen : List String)
    (entry : TarEntry) : Except String (List String) := do
  if entry.entryType = .directory then .ok seen
  else if entry.entryType ≠ .regular then
    .error "transfer tarball contains a non-regular entry"
  else match packageRelative? entry.path with
    | none => .error "transfer tarball entry is outside package/"
    | some names =>
      if names.any fun name => name = [dot, dot] then .error "transfer tarball contains an unsafe path"
      else
        let relative := relativeText names
        match expected.find? relative with
        | none => .error ("tarball contains unassessed file " ++ relative)
        | some file =>
          if relative ∈ seen then .error ("duplicate tarball entry " ++ relative)
          else do
            let bytes ← entry.data.readToEnd
            if UInt64.ofNat bytes.length ≠ file.bytes then
              .error ("tarball byte length changed after assessment for " ++ relative)
            else if hexSha256 env.sha bytes ≠ file.sha256 then
              .error ("tarball bytes changed after assessment for " ++ relative)
            else .ok (relative :: seen)

def checkTarEntries (expected : OrderedMap String PublishFile) (seen : List String) :
    List (Except String TarEntry) → Except String (List String)
  | [] => .ok seen
  | item :: rest => do
    let entry ← item
    let seen ← checkTarEntry env expected seen entry
    checkTarEntries expected seen rest

def verifyTarballMatchesAssessment (tarball : List UInt8) (assessment : PublishAssessmentV2) :
    Except String Unit := do
  let expected : OrderedMap String PublishFile :=
    .ofList (assessment.files.map fun file => (file.path, file))
  let items ← env.decodeTarball tarball
  let seen ← checkTarEntries env expected [] items
  if seen.length ≠ expected.keys.length then .error "tarball contains too few assessed files"
  else if expected.keys.all fun path => path ∈ seen then .ok ()
  else .error "tarball omitted assessed file"

/-! ## Creating a capsule -/

def Component.isNormal : Component → Bool
  | .normal _ => true
  | _ => false

def stageAssessedFiles (disk : Disk) (root : Location) (assessment : PublishAssessmentV2) :
    Except String (List (String × List UInt8)) :=
  assessment.files.mapM fun file =>
    if (components (asBytes file.path)).all Component.isNormal then do
      let bytes ← disk.read (join root (asBytes file.path))
      .ok (file.path, bytes)
    else .error ("assessed package contains an unsafe path " ++ file.path)

/-- `file_name` as a string. -/
def fileName? (path : List UInt8) : Option String :=
  match (components path).getLast? with
  | some (.normal name) => String.fromUTF8? ⟨name.toArray⟩
  | _ => none

def evidenceFiles : List String :=
  ["assessment.json", "signature.json", "sbom.spdx.json", "provenance.intoto.json"]

def copyAsset (source : Location) (capsule : Location) (relative : String) (disk : Disk) :
    Except String (TransferAsset × Disk) := do
  let bytes ← disk.read source
  .ok (⟨relative, UInt64.ofNat bytes.length, sha256File env bytes⟩,
    disk.write (join capsule (asBytes relative)) bytes)

def copyEvidence (evidenceRoot capsule : Location) (disk : Disk) :
    List String → Except String (List TransferAsset × Disk)
  | [] => .ok ([], disk)
  | filename :: rest => do
    let (asset, disk) ← copyAsset env (evidenceRoot ++ [asBytes filename]) capsule
      ("evidence/" ++ filename) disk
    let (assets, disk) ← copyEvidence evidenceRoot capsule disk rest
    .ok (asset :: assets, disk)

def transferLimitations : List String := [
  "Hash and signature verification proves integrity; signer identity is established only when " ++
    "the public key is anchored through a separate trusted channel.",
  "Lifecycle scripts are disabled while packing; build artifacts must already exist.",
  "Run an Oath execution assessment and enforce an OS sandbox before executing transferred code."]

def transferManifest (assessment : PublishAssessmentV2) (persisted : PersistedEvidence)
    (tarballPath : String) (tarball : List UInt8) (evidence : List TransferAsset) :
    TransferManifest where
  schemaVersion := transferSchemaVersion
  format := "oath-package-transfer"
  name := assessment.name
  version := assessment.version
  packageDigest := assessment.packageDigest
  assessmentDecision := assessment.decision.asStr
  assessmentReasonCode := assessment.reasonCode.asStr
  capabilities := assessment.capabilities
  signingPublicKey := persisted.signingPublicKey
  tarball := ⟨tarballPath, UInt64.ofNat tarball.length, sha256File env tarball,
    sha512File env tarball⟩
  evidence
  consumerDecision := "review-required"
  limitations := transferLimitations

def writeJson (disk : Disk) (loc : Location) (value : Value) : Disk :=
  disk.write loc (env.pretty value)

def createCapsule (root output : Location) (assessment : PublishAssessmentV2)
    (persisted : PersistedEvidence) (disk : Disk) : Except String (TransferManifest × Disk) := do
  if output = root then .error "transfer output cannot be the package root"
  else if disk.pathExists output then
    .error "transfer output already exists; refusing to overwrite"
  else do
    let staged ← stageAssessedFiles disk root assessment
    let (packed, tarball) ← env.npmPack staged
    verifyTarballMatchesAssessment env tarball assessment
    let disk := disk.createDirAll output
    match fileName? packed with
    | none => .error "npm produced a non-UTF-8 tarball name"
    | some tarballName =>
      let tarballRelative := "package/" ++ tarballName
      let disk := disk.write (join output (asBytes tarballRelative)) tarball
      let (evidence, disk) ← copyEvidence env persisted.directory output disk evidenceFiles
      let manifest := transferManifest env assessment persisted tarballRelative tarball evidence
      let signature := signJson manifest.toValue env.signingKey
      let disk := writeJson env disk (output ++ [asBytes "transfer.json"]) manifest.toValue
      let disk := writeJson env disk (output ++ [asBytes "transfer.signature.json"])
        signature.toValue
      .ok (manifest, disk)

/-! ## Verifying a capsule -/

structure TransferVerification where
  schemaVersion : UInt32
  name : String
  version : String
  verified : Bool
  integrityVerified : Bool
  packageSha512 : String
  signatureValid : Bool
  signatureTrusted : Bool
  signatureTrust : String
  signingPublicKey : String
  consumerDecision : String
  limitations : List String
deriving DecidableEq, Repr

/-- A JSON file with a record in it. -/
def readRecord {α : Type} (disk : Disk) (loc : Location) (ofValue? : Value → Option α) :
    Except String α := do
  let bytes ← disk.read loc
  let value ← env.parse bytes
  match ofValue? value with
  | some record => .ok record
  | none => .error "invalid record"

def ensure (condition : Bool) (message : String) : Except String Unit :=
  if condition then .ok () else .error message

def verifyJsonSignature (value : Value) (detached : DetachedSignature) (message : String) :
    Except String Unit :=
  match verifyJson env.ed value detached with
  | .ok () => .ok ()
  | .error _ => .error message

def verifyTarballFile (disk : Disk) (capsule : Location) (tarball : TransferTarball) :
    Except String (List UInt8) := do
  let bytes ← disk.read (join capsule (asBytes tarball.path))
  ensure (UInt64.ofNat bytes.length = tarball.bytes) "tarball length does not match transfer manifest"
  ensure (sha256File env bytes = tarball.sha256) "tarball SHA-256 does not match transfer manifest"
  ensure (sha512File env bytes = tarball.sha512) "tarball SHA-512 does not match transfer manifest"
  .ok bytes

def verifyAsset (disk : Disk) (capsule : Location) (asset : TransferAsset) :
    Except String Unit := do
  let bytes ← disk.read (join capsule (asBytes asset.path))
  ensure (UInt64.ofNat bytes.length = asset.bytes)
    (asset.path ++ " length does not match transfer manifest")
  ensure (sha256File env bytes = asset.sha256)
    (asset.path ++ " SHA-256 does not match transfer manifest")

/-- A missing member counts as the empty text. -/
def detachedOf (value : Value) : DetachedSignature where
  algorithm := ((value.index "algorithm").asStr?).getD ""
  canonicalization := ((value.index "canonicalization").asStr?).getD ""
  publicKey := ((value.index "public_key").asStr?).getD ""
  signature := ((value.index "signature").asStr?).getD ""

def transferVerification (manifest : TransferManifest) (signatureTrusted : Bool) :
    TransferVerification where
  schemaVersion := transferSchemaVersion
  name := manifest.name
  version := manifest.version
  verified := signatureTrusted
  integrityVerified := true
  packageSha512 := manifest.tarball.sha512
  signatureValid := true
  signatureTrusted
  signatureTrust := if signatureTrusted then "anchored" else "unanchored"
  signingPublicKey := manifest.signingPublicKey
  consumerDecision := if signatureTrusted then "review-required" else "abstain"
  limitations := manifest.limitations

/-- What a key given as trusted makes of the capsule. -/
def anchor (manifest : TransferManifest) : Option String → Except String TransferVerification
  | none => .ok (transferVerification manifest false)
  | some expected =>
    if expected = manifest.signingPublicKey then .ok (transferVerification manifest true)
    else .error "transfer signing key does not match --trusted-public-key"

def verifyCapsule (disk : Disk) (capsule : Location) (trustedPublicKey : Option String) :
    Except String TransferVerification := do
  let manifest ← readRecord env disk (capsule ++ [asBytes "transfer.json"])
    TransferManifest.ofValue?
  ensure (manifest.schemaVersion = transferSchemaVersion &&
    manifest.format = "oath-package-transfer") "unsupported Oath transfer format"
  let transferSignature ← readRecord env disk (capsule ++ [asBytes "transfer.signature.json"])
    DetachedSignature.ofValue?
  verifyJsonSignature env manifest.toValue transferSignature
    "transfer manifest signature is invalid"
  ensure (transferSignature.publicKey = manifest.signingPublicKey)
    "transfer signature key does not match the signed manifest"
  let tarball ← verifyTarballFile env disk capsule manifest.tarball
  manifest.evidence.forM (verifyAsset env disk capsule)
  let assessment ← readRecord env disk (join capsule (asBytes "evidence/assessment.json"))
    PublishAssessmentV2.ofValue?
  verifyTarballMatchesAssessment env tarball assessment
  let detached ← readRecord env disk (join capsule (asBytes "evidence/signature.json"))
    fun value => some (detachedOf value)
  verifyJsonSignature env assessment.toValue detached "publish assessment signature is invalid"
  ensure (detached.publicKey = manifest.signingPublicKey)
    "assessment and transfer manifest were signed by different keys"
  ensure (assessment.name = manifest.name && assessment.version = manifest.version &&
    assessment.packageDigest = manifest.packageDigest)
    "signed assessment identity does not match transfer manifest"
  anchor manifest trustedPublicKey

end Operations

end Oath.Cli
