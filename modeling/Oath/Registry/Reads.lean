import Oath.Library.Service
import Oath.Registry.Merkle
import Oath.Registry.TombstoneBundle

/-! The reading requests with their answers, those with the transparency log's checkpoint and
the public feed included, and which packages are hidden from a caller. -/

namespace Oath.Registry
open Contracts Service Unix Database

/-! ## Verdict bundles -/

/-- The version's row `LEFT JOIN` its tombstone. -/
def Database.versionBundle (db : Database) (name version : String) :
    Option (VersionRow × Option Value) :=
  (db.version name version).map fun row =>
    (row, (db.tombstones.find? (name, version)).map TombstoneRow.toJsonb)

def checkpointPayload (registry : PostgresRegistry) (hashes : List String) : Value := Value.json [
  ("schema_version", .int 2),
  ("event_count", .int hashes.length),
  ("merkle_root", .string (merkleRoot registry.assess.sha hashes)),
  ("latest_hash", Value.optString hashes.getLast?)]

def checkpointOf (registry : PostgresRegistry) (hashes : List String) : Value := Value.json [
  ("payload", checkpointPayload registry hashes),
  ("algorithm", .string "ed25519"),
  ("canonicalization", .string "oath-json-v1"),
  ("public_key", .string registry.signingKey.publicKey),
  ("signature",
    .string (registry.signingKey.sign (canonicalJsonBytes (checkpointPayload registry hashes))))]

def bundleFields (name version : String) (row : VersionRow) (tombstone : Value) :
    List (String × Value) := [
  ("schema_version", .int 1),
  ("package", Value.json [
    ("name", .string name),
    ("version", .string version),
    ("organization", .string row.organization)]),
  ("digest", .string ("sha256:" ++ row.digest)),
  ("status", .string row.status),
  ("published_at", .int row.publishedAt),
  ("downloads", .int row.downloadCount),
  ("verdict", row.assessment),
  ("server_evidence", row.serverEvidence),
  ("sbom", row.sbom),
  ("provenance", row.provenance),
  ("tombstone", tombstone)]

def bundledTombstone : Option Value → Except ApiError Value
  | some tombstone => tombstoneBundle tombstone
  | none => .ok .null

/-- `hashes` is what the event log holds when it is read. -/
def verdictBundle (registry : PostgresRegistry) (hashes : List String) (caller : Caller)
    (name version : String) : Handler Value := do
  let record ← found (← query (·.versionBundle name version)) (.notFound "package version not found")
  let _ ← (if record.1.isPrivate then authorizeReader caller name else pure () : Handler Unit)
  let hashes ← query fun _ => hashes
  let tombstone ← ofResult (bundledTombstone record.2)
  pure (Value.json (bundleFields name version record.1 tombstone ++
    [("checkpoint", checkpointOf registry hashes)]))

/-! ## The feed of quarantined versions -/

/-- A time in a signed column of 64 bits. -/
def storedTime (time : ℕ) : ℤ := (time : ℤ).bmod (2 ^ 64)

/-- The tombstones `JOIN` their packages, the earliest first. -/
def Database.publicQuarantines (db : Database) : List TombstoneRow :=
  (db.tombstones.rows.filter fun row => row.status = "quarantined" &&
    (db.package row.name).any fun package => !package.isPrivate).mergeSort
      fun a b => storedTime a.createdAt ≤ storedTime b.createdAt

def osvId (registry : PostgresRegistry) (row : TombstoneRow) : String :=
  let digest := hexSha256 registry.assess.sha (asBytes (row.name ++ "@" ++ row.version))
  "OATH-MAL-" ++ String.ofList ((digest.toList.take 16).map Char.toUpper)

/-- `rfc3339` writes a time, and the epoch in place of one that is out of range. -/
def osvEntry (registry : PostgresRegistry) (rfc3339 : ℤ → String) (row : TombstoneRow) : Value :=
  let modified := rfc3339 (storedTime row.createdAt)
  Value.json [
    ("schema_version", .string "1.6.0"),
    ("id", .string (osvId registry row)),
    ("modified", .string modified),
    ("published", .string modified),
    ("summary", .string ("Oath quarantined " ++ row.name ++ "@" ++ row.version)),
    ("details", .string row.reason),
    ("affected", .array [Value.json [
      ("package", Value.json [("ecosystem", .string "npm"), ("name", .string row.name)]),
      ("versions", .array [.string row.version]),
      ("database_specific", Value.json [
        ("source", .string "oath-registry"),
        ("status", .string "quarantined")])]])]

def osvFeed (registry : PostgresRegistry) (rfc3339 : ℤ → String) : Handler Value := do
  let rows ← query publicQuarantines
  pure (Value.json [
    ("schema_version", .int 1),
    ("vulns", .array (rows.map (osvEntry registry rfc3339)))])

/-! ## Requests that read -/

inductive ReadRequest
  | packageMetadata (name : String)
  | downloadVersion (name version : String)
  | verdictBundle (name version : String)
  | listStages
  | viewStage (id : String)
  | downloadStage (id : String)
  | osvFeed
deriving DecidableEq, Repr

inductive Response
  | json (value : Value)
  | bundle (value : Value)
  | stage (stage : StageRecord)
  | stages (stages : List StageRecord)
  | bytes (bytes : List UInt8)

def ReadRequest.handle (registry : PostgresRegistry) (rfc3339 : ℤ → String) (hashes : List String)
    (caller : Option Principal) : ReadRequest → Handler Response
  | .packageMetadata name => do
    let value ← Registry.packageMetadata registry (.ok caller) name
    pure (.json value)
  | .downloadVersion name version => do
    let bytes ← Registry.downloadVersion (.ok caller) name version
    pure (.bytes bytes)
  | .verdictBundle name version => do
    let value ← Registry.verdictBundle registry hashes (.ok caller) name version
    pure (.bundle value)
  | .listStages => do
    let stages ← Registry.listStages (.ok caller)
    pure (.stages stages)
  | .viewStage id => do
    let stage ← Registry.viewStage (.ok caller) id
    pure (.stage stage)
  | .downloadStage id => do
    let bytes ← Registry.downloadStage (.ok caller) id
    pure (.bytes bytes)
  | .osvFeed => do
    let value ← Registry.osvFeed registry rfc3339
    pure (.json value)

/-- An object without the field. -/
def withoutField (key : String) : Value → Value
  | .object fields => .object (fields.filter fun field => field.1 ≠ key)
  | value => value

/-- What a response says apart from the log. -/
def Response.withoutLog : Response → Response
  | .bundle value => .bundle (withoutField "checkpoint" value)
  | response => response

/-- The answer apart from what the transparency log says. -/
def ReadRequest.response (registry : PostgresRegistry) (rfc3339 : ℤ → String)
    (hashes : List String) (caller : Option Principal) (w : World RegistryState)
    (request : ReadRequest) : Except ApiError Response :=
  (request.handle registry rfc3339 hashes caller w).answer.map Response.withoutLog

/-- The version or the stage that is named is there. Stages are looked up for principals only. -/
def ReadRequest.finds (db : Database) (caller : Option Principal) : ReadRequest → Bool
  | .downloadVersion name version | .verdictBundle name version => (db.version name version).isSome
  | .viewStage id | .downloadStage id => caller.isSome && (db.readStage id).isSome
  | .packageMetadata _ | .listStages | .osvFeed => true

/-! ## Hidden packages -/

/-- The package is private and the caller, if there is a principal, neither owns it nor has a
role on it. -/
def Database.hides (db : Database) (caller : Option Principal) (name : String) : Bool :=
  (db.package name).any fun package => package.isPrivate &&
    caller.all fun principal => package.organization ≠ principal.organization &&
      (db.packageRole name principal.organization).isNone

/-- The digest is that of a version or a stage which is not hidden. -/
def Shown (db : Database) (caller : Option Principal) (digest : String) : Prop :=
  (∃ row ∈ db.versions.rows, db.hides caller row.name = false ∧ row.digest = digest) ∨
    ∃ row ∈ db.stages.rows, db.hides caller row.name = false ∧ row.digest = digest

/-- Every store holds the same under the digest. -/
structure SameObject (digest : String) (a b : ArtifactStore) : Prop where
  primary : a.primary.find? digest = b.primary.find? digest
  replicas : a.replicas.map (·.find? digest) = b.replicas.map (·.find? digest)

/-- The states differ at most in the stages, the versions with what is kept for them and the
objects of packages that are hidden from the caller. -/
structure DifferInHidden (caller : Option Principal) (s t : RegistryState) : Prop where
  package (name : String) : s.db.package name = t.db.package name
  packageRole (name organization : String) :
    s.db.packageRole name organization = t.db.packageRole name organization
  stages : s.db.stages.rows.filter (fun row => !s.db.hides caller row.name) =
    t.db.stages.rows.filter (fun row => !t.db.hides caller row.name)
  versions : s.db.versions.rows.filter (fun row => !s.db.hides caller row.name) =
    t.db.versions.rows.filter (fun row => !t.db.hides caller row.name)
  distTags : s.db.distTags.rows.filter (fun row => !s.db.hides caller row.name) =
    t.db.distTags.rows.filter (fun row => !t.db.hides caller row.name)
  tombstones : s.db.tombstones.rows.filter (fun row => !s.db.hides caller row.name) =
    t.db.tombstones.rows.filter (fun row => !t.db.hides caller row.name)
  object (digest : String) (h : Shown s.db caller digest) : SameObject digest s.objects t.objects

end Oath.Registry
