import Oath.Library.Base64
import Oath.Library.Service
import Oath.Registry.ArtifactStore
import Oath.Registry.Assessment
import Oath.Registry.ControlPlane
import Oath.Registry.Manifest

/-! The registry's request handlers over the control plane and the artifact store, and the
states a registry can come to by serving requests. -/

namespace Oath.Registry
open Contracts Service Unix

structure RegistryState where
  db : Database
  objects : ArtifactStore

def RegistryState.empty (replicas : ℕ) : RegistryState := ⟨.empty, .empty replicas⟩

structure PostgresRegistry where
  assess : AssessEnv
  semver : SemVer
  signingKey : SigningKey
  publicUrl : String
  requireStepUpApproval : Bool
  maximumPendingStages : ℕ

abbrev Handler (α : Type) := EStateM ApiError (World RegistryState) α

def internal {α : Type} (x : Service RegistryState α) : Handler α := mapError .internal x

def query {α : Type} (f : Database → α) : Handler α := internal (read fun s => f s.db)

def execute {α : Type} (f : Database → Except String (α × Database)) : Handler α :=
  internal (call fun s => do
    let (a, db) ← f s.db
    .ok (a, { s with db }))

def onObjects {α : Type} (x : Service ArtifactStore α) : Handler α :=
  internal (within RegistryState.objects (fun objects s => { s with objects }) x)

def reject (condition : Bool) (error : ApiError) : Handler Unit :=
  if condition then throw error else pure ()

def found {α : Type} (x : Option α) (error : ApiError) : Handler α :=
  match x with
  | some a => pure a
  | none => throw error

def ofResult {α : Type} (x : Except ApiError α) : Handler α :=
  match x with
  | .ok a => pure a
  | .error error => throw error

/-! ## Who asks -/

/-- What the bearer token of a request, if it has one, stands for. -/
abbrev Caller := Except ApiError (Option Principal)

def authenticateOptional (caller : Caller) : Handler (Option Principal) := ofResult caller

def authenticate (caller : Caller) : Handler Principal := do
  found (← authenticateOptional caller) .unauthorized

def canPublish (role : String) : Bool := role = "publisher" || role = "admin"

/-- The scope of `@scope/name`. -/
def packageScope (name : String) : Option String :=
  match name.toList with
  | '@' :: rest => some (String.ofList (rest.takeWhile (· ≠ '/')))
  | _ => none

def roleAllows (write : Bool) : Option String → Bool
  | some role => !write || canPublish role
  | none => false

def authorizeName (principal : Principal) (name : String) (write : Bool) : Handler String := do
  match ← query (·.package name) with
  | some package =>
    if package.organization = principal.organization then
      reject (write && !canPublish principal.role) (.forbidden "publisher role required")
      pure package.organization
    else
      let role ← query (·.packageRole name principal.organization)
      reject (!roleAllows write role) (.forbidden "package belongs to another organization")
      pure package.organization
  | none =>
    reject (!write) (.notFound "package not found")
    reject (!canPublish principal.role) (.forbidden "publisher role required")
    reject ((packageScope name).any (· ≠ principal.organization))
      (.forbidden "package scope belongs to another organization")
    pure principal.organization

def authorizeReader (caller : Caller) (name : String) : Handler Unit := do
  let principal ← authenticate caller
  let _ ← authorizeName principal name false
  pure ()

/-! ## Stages -/

def signVerdict (registry : PostgresRegistry) (verdict : RegistryVerdictV1) : RegistryVerdictV1 :=
  { verdict with signature := some (signJson verdict.toValue registry.signingKey) }

def PostgresRegistry.assessAt (registry : PostgresRegistry) (clock : ℕ) : AssessEnv :=
  { registry.assess with clock }

def ofAssessment (result : EStateM.Result String FileSystem RegistryAssessmentBundle) :
    Handler RegistryAssessmentBundle :=
  match result with
  | .ok bundle _ => pure bundle
  | .error message _ => throw (.bad ("server assessment failed: " ++ message))

/-- The assessment runs on `host`, where it makes its temporary directory. -/
def serverAssessment (registry : PostgresRegistry) (host : FileSystem) (tarball : List UInt8)
    (manifest : Value) (name version publisher : String) : Handler RegistryAssessmentBundle := do
  let clock ← now
  ofAssessment (assessTarball (registry.assessAt clock) tarball manifest name version publisher
    registry.publicUrl host)

def stageId (registry : PostgresRegistry) (owner name version digest : String)
    (createdAt : ℕ) : String :=
  hexSha256 registry.assess.sha (asBytes (":".intercalate
    [owner, name, version, digest, toString createdAt]))

def stageOf (registry : PostgresRegistry) (request : StageRequest) (owner : String)
    (tarball : List UInt8) (manifest : Value) (bundle : RegistryAssessmentBundle)
    (createdAt : ℕ) : StageRecord :=
  let digest := hexSha256 registry.assess.sha tarball
  { id := stageId registry owner request.name request.version digest createdAt
    organization := owner
    name := request.name
    version := request.version
    tag := request.tag
    digest
    status := "staged"
    isPrivate := request.isPrivate
    manifest
    publisherAssessment := request.assessment
    assessment := (signVerdict registry bundle.verdict).toValue
    serverEvidence := bundle.evidence
    sbom := bundle.sbom
    provenance := bundle.provenance
    createdAt }

def stageEvent (stage : StageRecord) (principal : Principal) : Value := Value.json [
  ("type", .string "stage.created"),
  ("id", .string stage.id),
  ("organization", .string stage.organization),
  ("actor_org", .string principal.organization),
  ("name", .string stage.name),
  ("version", .string stage.version),
  ("digest", .string stage.digest)]

def createStage (registry : PostgresRegistry) (caller : Caller) (host : FileSystem)
    (request : StageRequest) : Handler StageRecord := do
  let principal ← authenticate caller
  let owner ← authorizeName principal request.name true
  let package ← query (·.package request.name)
  reject (package.any fun package => package.isPrivate != request.isPrivate)
    (.conflict "package visibility cannot change between versions")
  reject (registry.semver.parse request.version).isNone (.bad "invalid semantic version")
  let tarball ← found (Base64.decode request.tarballBase64) (.bad "invalid tarball base64")
  let manifest ← ofResult (manifestFromTarball registry.assess.decode registry.assess.parseJson
    tarball request.name request.version)
  let bundle ← serverAssessment registry host tarball manifest request.name request.version
    principal.organization
  onObjects (ArtifactStore.putImmutable (hexSha256 registry.assess.sha tarball) tarball)
  let createdAt ← now
  let stage := stageOf registry request owner tarball manifest bundle createdAt
  let insertedAt ← now
  let accepted ← execute fun db => ControlPlane.createStage db stage
    ("stage.created:" ++ stage.id) (stageEvent stage principal) registry.maximumPendingStages
    insertedAt
  reject (!accepted) (.tooManyRequests "organization pending-stage quota reached")
  pure stage

def isDenied (assessment : Value) : Bool :=
  (assessment.get? "decision").bind Value.asStr? == some "deny"

def decisionEvent (stage : StageRecord) (id : String) (approve : Bool) (reason : Option String)
    (principal : Principal) : Value := Value.json [
  ("type", .string (if approve then "stage.approved" else "stage.rejected")),
  ("id", .string id),
  ("organization", .string principal.organization),
  ("name", .string stage.name),
  ("version", .string stage.version),
  ("reason", Value.optString reason)]

def decide (registry : PostgresRegistry) (caller : Caller) (id : String) (approve : Bool)
    (reason : Option String) : Handler StageRecord := do
  let principal ← authenticate caller
  reject (principal.role != "admin") (.forbidden "admin approval required")
  reject (approve && registry.requireStepUpApproval && principal.kind != "oidc-mfa")
    (.forbidden
      "approval requires a fresh OIDC identity with MFA or phishing-resistant authentication")
  let stage ← found (← query (·.readStage id)) (.notFound "stage not found")
  reject (stage.organization != principal.organization)
    (.forbidden "only the owning organization may approve or reject a stage")
  reject (approve && isDenied stage.assessment)
    (.conflict "server assessment denied this exact artifact; approval is not permitted")
  let publishedAt ← now
  let insertedAt ← now
  let decided ← execute fun db => ControlPlane.decideStage db stage approve reason
    ("stage." ++ (if approve then "approved" else "rejected") ++ ":" ++ id)
    (decisionEvent stage id approve reason principal) publishedAt insertedAt
  reject (!decided) (.conflict "stage has already been decided")
  found (← query (·.readStage id)) (.internal "stage disappeared")

/-! ## Packages -/

/-- `form_urlencoded::byte_serialize`. -/
def urlEncode (s : String) : String :=
  String.ofList ((asBytes s).flatMap fun b =>
    let c := Char.ofNat b.toNat
    if c.isAlphanum || c ∈ ['*', '-', '.', '_'] then [c]
    else if c = ' ' then ['+']
    else '%' :: (hexDigits b).map Char.toUpper)

def oathMetadata (row : VersionRow) (time : ℕ) : Value := Value.json [
  ("status", .string row.status),
  ("private", .bool row.isPrivate),
  ("publisher_organization", .string row.organization),
  ("published_at", .int row.publishedAt),
  ("release_age_seconds", .int ((time : ℤ) - row.publishedAt)),
  ("downloads", .int row.downloadCount),
  ("source_available", .bool ((row.assessment.index "package").index "repository").isString),
  ("risk_score", row.assessment.index "risk_score"),
  ("assessment", row.assessment),
  ("server_evidence", row.serverEvidence),
  ("sbom", row.sbom),
  ("provenance", row.provenance)]

/-- The manifest with what the registry says of the version. -/
def versionMetadata (registry : PostgresRegistry) (name : String) (row : VersionRow)
    (time : ℕ) : Except ApiError Value :=
  match hexDecode row.digest with
  | .error error => .error (.internal error)
  | .ok digest =>
    if digest.length ≠ 32 then .error (.internal "stored SHA-256 digest has invalid length")
    else match row.manifest.asObject? with
      | none => .error (.internal "stored package manifest is not an object")
      | some fields =>
        let tarball := registry.publicUrl ++ "/-/oath/tarballs/" ++ urlEncode name ++ "/" ++
          urlEncode row.version
        let dist := Value.json [
          ("integrity", .string ("sha256-" ++ Base64.encode digest)),
          ("tarball", .string tarball)]
        .ok (.object (Value.insertField "oath" (oathMetadata row time)
          (Value.insertField "dist" dist
            (Value.insertField "version" (.string row.version)
              (Value.insertField "name" (.string name) fields)))))

def metadataLoop (registry : PostgresRegistry) (name : String) :
    List VersionRow → List (String × Value) → Handler (List (String × Value))
  | [], versions => pure versions
  | row :: rest, versions => do
    let metadata ← ofResult (versionMetadata registry name row (← now))
    metadataLoop registry name rest (Value.insertField row.version metadata versions)

def packageMetadata (registry : PostgresRegistry) (caller : Caller) (name : String) :
    Handler Value := do
  let package ← found (← query (·.package name)) (.notFound "package not found")
  let _ ← (if package.isPrivate then authorizeReader caller name
    else discard (authenticateOptional caller) : Handler Unit)
  let versions ← metadataLoop registry name (← query (·.packageVersions name)) []
  reject versions.isEmpty (.notFound "package has no published versions")
  let tags ← query (·.distTagsOf name)
  pure (Value.json [
    ("name", .string name),
    ("dist-tags", Value.json (tags.map fun (tag, version) => (tag, .string version))),
    ("versions", .object versions)])

def tombstonePayload (tombstone : TombstoneRow) : Value := Value.json [
  ("name", .string tombstone.name),
  ("version", .string tombstone.version),
  ("status", .string tombstone.status),
  ("reason", .string tombstone.reason),
  ("actor_org", .string tombstone.actorOrg),
  ("created_at", .int tombstone.createdAt)]

def revokedStatus (request : RevokeRequest) : String :=
  if request.quarantine then "quarantined" else "revoked"

def tombstoneOf (registry : PostgresRegistry) (principal : Principal) (name version : String)
    (request : RevokeRequest) (createdAt : ℕ) : TombstoneRow :=
  let unsigned : TombstoneRow := {
    name
    version
    status := revokedStatus request
    reason := request.reason
    actorOrg := principal.organization
    createdAt
    signature := ""
    publicKey := registry.signingKey.publicKey }
  { unsigned with
    signature := registry.signingKey.sign (canonicalJsonBytes (tombstonePayload unsigned)) }

def revocationEvent (tombstone : TombstoneRow) : Value := Value.json [
  ("type", .string "version.revoked"),
  ("tombstone", tombstonePayload tombstone),
  ("signature", .string tombstone.signature),
  ("public_key", .string tombstone.publicKey)]

def revokeVersion (registry : PostgresRegistry) (caller : Caller) (name version : String)
    (request : RevokeRequest) : Handler Value := do
  let principal ← authenticate caller
  let _ ← authorizeName principal name true
  let createdAt ← now
  let tombstone := tombstoneOf registry principal name version request createdAt
  let insertedAt ← now
  let revoked ← execute fun db => ControlPlane.revokeVersion registry.semver db tombstone
    ("version." ++ tombstone.status ++ ":" ++ name ++ "@" ++ version)
    (revocationEvent tombstone) insertedAt
  reject (!revoked) (.notFound "package version not found")
  pure (Value.json [("tombstone", Value.json [
    ("payload", tombstonePayload tombstone),
    ("algorithm", .string "ed25519"),
    ("canonicalization", .string "oath-json-v1"),
    ("signature", .string tombstone.signature),
    ("public_key", .string tombstone.publicKey)])])

def downloadVersion (caller : Caller) (name version : String) : Handler (List UInt8) := do
  let row ← found (← query (·.version name version)) (.notFound "package version not found")
  let _ ← (if row.isPrivate then authorizeReader caller name else pure () : Handler Unit)
  reject (row.status != "active") (.forbidden ("package version is " ++ row.status))
  let bytes ← onObjects (ArtifactStore.get row.digest)
  execute fun db => .ok ((), db.recordDownload name version)
  pure bytes

/-- The event that is appended afterwards is not kept here; only that it can fail. -/
def grantRole (caller : Caller) (name : String) (request : PackageRoleRequest) :
    Handler Value := do
  let principal ← authenticate caller
  reject (principal.role != "admin") (.forbidden "admin role required")
  let owner ← authorizeName principal name true
  reject (owner != principal.organization)
    (.forbidden "only the package-owning organization may grant roles")
  reject (request.role ∉ ["reader", "publisher", "admin"]) (.bad "invalid package role")
  let package ← found (← query (·.package name)) (.internal "package not found")
  reject (package.organization != principal.organization)
    (.internal "only the package-owning organization may grant roles")
  execute fun db => .ok ((), ControlPlane.grantPackageRole db {
    name
    organization := principal.organization
    principalOrg := request.principalOrg
    role := request.role })
  query fun _ => ()
  pure (Value.json [
    ("name", .string name),
    ("principal_org", .string request.principalOrg),
    ("role", .string request.role)])

/-! ## Serving requests -/

inductive Request
  | createStage (caller : Caller) (host : FileSystem) (request : StageRequest)
  | decide (caller : Caller) (id : String) (approve : Bool) (reason : Option String)
  | revokeVersion (caller : Caller) (name version : String) (request : RevokeRequest)
  | grantRole (caller : Caller) (name : String) (request : PackageRoleRequest)
  | packageMetadata (caller : Caller) (name : String)
  | downloadVersion (caller : Caller) (name version : String)

/-- A request with what becomes of its calls and the times it reads. -/
structure Call where
  request : Request
  faults : List Fault
  times : List ℕ

def Request.handle (registry : PostgresRegistry) (w : World RegistryState) :
    Request → World RegistryState
  | .createStage caller host request => (Registry.createStage registry caller host request w).state
  | .decide caller id approve reason => (Registry.decide registry caller id approve reason w).state
  | .revokeVersion caller name version request =>
    (Registry.revokeVersion registry caller name version request w).state
  | .grantRole caller name request => (Registry.grantRole caller name request w).state
  | .packageMetadata caller name => (Registry.packageMetadata registry caller name w).state
  | .downloadVersion caller name version => (Registry.downloadVersion caller name version w).state

def serve (registry : PostgresRegistry) (s : RegistryState) (call : Call) : RegistryState :=
  (call.request.handle registry ⟨s, call.faults, call.times⟩).state

/-- The state after a history of requests. -/
def run (registry : PostgresRegistry) (s : RegistryState) (calls : List Call) : RegistryState :=
  calls.foldl (serve registry) s

/-! ## A concrete registry -/

/-- Releases without a pre-release or a build part. -/
def SemVer.releases : SemVer where
  Version := ℕ × ℕ × ℕ
  parse s :=
    match s.toList.splitOn '.' with
    | [major, minor, patch] =>
      if [major, minor, patch].all (fun part => part ≠ [] ∧ part.all Char.isDigit) then
        let number := List.foldl (fun n (c : Char) => 10 * n + (c.toNat - '0'.toNat)) 0
        some (number major, number minor, number patch)
      else none
    | _ => none
  cmp a b := (compare a.1 b.1).then ((compare a.2.1 b.2.1).then (compare a.2.2 b.2.2))

/-- A gzip tarball with `package/package.json` and `package/index.js`. -/
def demoTarball : List UInt8 :=
  [31, 139, 8, 0, 0, 0, 0, 0, 2, 255, 237, 211, 189, 10, 194, 48, 20, 134, 225, 204, 94, 69, 56,
    179, 164, 73, 13, 29, 4, 47, 38, 152, 131, 84, 205, 15, 73, 43, 5, 241, 222, 77, 85, 16, 186,
    184, 104, 7, 123, 158, 229, 11, 103, 201, 244, 70, 179, 63, 153, 3, 86, 241, 185, 226, 152,
    131, 103, 95, 38, 139, 70, 235, 199, 22, 211, 149, 82, 171, 247, 123, 188, 43, 213, 212, 138,
    113, 201, 102, 208, 231, 206, 164, 242, 61, 91, 166, 43, 120, 227, 16, 182, 96, 209, 5, 88,
    195, 5, 83, 110, 131, 47, 7, 37, 164, 144, 112, 99, 228, 159, 189, 186, 175, 90, 111, 113, 40,
    245, 255, 226, 143, 143, 253, 215, 155, 105, 255, 227, 80, 255, 51, 112, 193, 246, 103, 20,
    56, 196, 144, 186, 204, 119, 92, 173, 40, 10, 66, 8, 89, 128, 59, 228, 182, 195, 236, 0, 12,
    0, 0]

def demoPackageJson : List UInt8 :=
  asBytes "\x7b\"name\":\"demo\",\"version\":\"1.0.0\"\x7d"

def demoManifest : Value := Value.json [("name", .string "demo"), ("version", .string "1.0.0")]

def demoEntries : List TarEntry := [
  { entryType := .regular
    path := asBytes "package/package.json"
    size := 33
    ustar := true
    mode := some 0o644
    data := { bytes := demoPackageJson } },
  { entryType := .regular
    path := asBytes "package/index.js"
    size := 19
    ustar := true
    mode := some 0o644
    data := { bytes := asBytes "module.exports = 1\n" } }]

def demoRegistry : PostgresRegistry where
  assess := hostEnv demoTarball demoEntries demoPackageJson demoManifest
  semver := .releases
  signingKey := { publicKey := "", sign := fun _ => "" }
  publicUrl := "https://registry.example"
  requireStepUpApproval := true
  maximumPendingStages := 100

def demoTime : ℕ := 1_700_000_000

def demoAdmin : Principal := { organization := "acme", role := "admin", kind := "oidc-mfa" }

def demoStageId : String :=
  stageId demoRegistry "acme" "demo" "1.0.0" (hexSha256 demoRegistry.assess.sha demoTarball)
    demoTime

/-- An administrator stages the package and approves it. -/
def demoCalls : List Call := [
  { request := .createStage (.ok (some demoAdmin)) emptyHost {
      name := "demo"
      version := "1.0.0"
      tag := "latest"
      tarballBase64 := Base64.encode demoTarball
      assessment := .null
      isPrivate := false }
    faults := []
    times := [demoTime, demoTime, demoTime] },
  { request := .decide (.ok (some demoAdmin)) demoStageId true none
    faults := []
    times := [demoTime, demoTime] }]

end Oath.Registry
