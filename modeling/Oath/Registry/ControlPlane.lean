import Oath.Library.Outcome
import Oath.Library.Table
import Oath.Registry.Manifest

/-! The tables of the registry's control plane and the transactions on them. A transaction
that fails leaves every table as it was. -/

namespace Oath.Registry
open Contracts

/-! ## Tables -/

structure PackageRow where
  name : String
  organization : String
  isPrivate : Bool
  createdAt : ℕ
deriving DecidableEq, Repr

structure PackageRoleRow where
  name : String
  organization : String
  principalOrg : String
  role : String
deriving DecidableEq, Repr

structure StageRow extends StageRecord where
  decisionReason : Option String

structure VersionRow where
  name : String
  version : String
  organization : String
  digest : String
  status : String
  isPrivate : Bool
  manifest : Value
  publisherAssessment : Value
  assessment : Value
  serverEvidence : Value
  sbom : Value
  provenance : Value
  publishedAt : ℕ
  downloadCount : ℕ

structure DistTagRow where
  name : String
  tag : String
  version : String
deriving DecidableEq, Repr

structure TombstoneRow where
  name : String
  version : String
  status : String
  reason : String
  actorOrg : String
  createdAt : ℕ
  signature : String
  publicKey : String
deriving DecidableEq, Repr

structure OutboxRow where
  eventKey : String
  event : Value
  availableAt : ℕ
  createdAt : ℕ

def PackageRoleRow.key (row : PackageRoleRow) : String × String := (row.name, row.principalOrg)
def StageRow.key (row : StageRow) : String := row.id
def VersionRow.key (row : VersionRow) : String × String := (row.name, row.version)
def DistTagRow.key (row : DistTagRow) : String × String := (row.name, row.tag)
def TombstoneRow.key (row : TombstoneRow) : String × String := (row.name, row.version)

structure Database where
  packages : Table PackageRow.name
  packageRoles : Table PackageRoleRow.key
  stages : Table StageRow.key
  versions : Table VersionRow.key
  distTags : Table DistTagRow.key
  tombstones : Table TombstoneRow.key
  outbox : Table OutboxRow.eventKey

def Database.empty : Database where
  packages := .empty
  packageRoles := .empty
  stages := .empty
  versions := .empty
  distTags := .empty
  tombstones := .empty
  outbox := .empty

def duplicateKey (constraint : String) : String :=
  "error returned from database: duplicate key value violates unique constraint \"" ++
    constraint ++ "\""

def unique {α : Type} (constraint : String) : Option α → Except String α
  | some a => .ok a
  | none => .error (duplicateKey constraint)

theorem unique_eq_ok {α : Type} {constraint : String} {x : Option α} {a : α} :
    unique constraint x = .ok a ↔ x = some a := by
  cases x <;> simp [unique]

/-! ## Queries -/

namespace Database

def package (db : Database) (name : String) : Option PackageRow := db.packages.find? name

def packageRole (db : Database) (name organization : String) : Option String :=
  (db.packageRoles.find? (name, organization)).map PackageRoleRow.role

def readStage (db : Database) (id : String) : Option StageRecord :=
  (db.stages.find? id).map StageRow.toStageRecord

def version (db : Database) (name version : String) : Option VersionRow :=
  db.versions.find? (name, version)

/-- The active versions in the order they were published. -/
def packageVersions (db : Database) (name : String) : List VersionRow :=
  (db.versions.rows.filter fun row => row.name = name ∧ row.status = "active").mergeSort
    fun a b => a.publishedAt ≤ b.publishedAt

def distTagsOf (db : Database) (name : String) : List (String × String) :=
  (db.distTags.rows.filter fun row => row.name = name).map fun row => (row.tag, row.version)

def activeVersions (db : Database) (name : String) : List String :=
  (db.versions.rows.filter fun row => row.name = name ∧ row.status = "active").map
    VersionRow.version

def pendingStages (db : Database) (organization : String) : ℕ :=
  db.stages.rows.countP fun row => row.organization = organization ∧ row.status = "staged"

/-! ## Statements -/

def insertOutbox (db : Database) (eventKey : String) (event : Value) (now : ℕ) :
    Except String Database := do
  let outbox ← unique "registry_outbox_event_key_key"
    (db.outbox.insert? { eventKey, event, availableAt := now, createdAt := now })
  .ok { db with outbox }

/-- `INSERT … ON CONFLICT (name) DO NOTHING`. -/
def claimPackage (db : Database) (row : PackageRow) : Database :=
  { db with packages := (db.packages.insert? row).getD db.packages }

def insertStage (db : Database) (stage : StageRecord) : Except String Database := do
  let stages ← unique "stages_pkey" (db.stages.insert? { stage with decisionReason := none })
  if db.stages.rows.any fun row => row.name = stage.name ∧ row.version = stage.version then
    .error (duplicateKey "stages_name_version_key")
  else .ok { db with stages }

def decided (status : String) (reason : Option String) (row : StageRow) : StageRow :=
  { row with status, decisionReason := reason }

theorem decided_key (status : String) (reason : Option String) (row : StageRow) :
    (decided status reason row).key = row.key := rfl

def markStage (db : Database) (id status : String) (reason : Option String) : Database :=
  { db with
    stages := db.stages.update (fun row => row.id = id) (decided status reason)
      (decided_key status reason) }

def versionOf (stage : StageRecord) (publishedAt : ℕ) : VersionRow where
  name := stage.name
  version := stage.version
  organization := stage.organization
  digest := stage.digest
  status := "active"
  isPrivate := stage.isPrivate
  manifest := stage.manifest
  publisherAssessment := stage.publisherAssessment
  assessment := stage.assessment
  serverEvidence := stage.serverEvidence
  sbom := stage.sbom
  provenance := stage.provenance
  publishedAt
  downloadCount := 0

def insertVersion (db : Database) (row : VersionRow) : Except String Database := do
  let versions ← unique "versions_pkey" (db.versions.insert? row)
  .ok { db with versions }

def setTag (db : Database) (row : DistTagRow) : Database :=
  { db with distTags := db.distTags.upsert row }

def withStatus (status : String) (row : VersionRow) : VersionRow := { row with status }

theorem withStatus_key (status : String) (row : VersionRow) :
    (withStatus status row).key = row.key := rfl

def markVersion (db : Database) (name version status : String) : Database :=
  { db with
    versions := db.versions.update (fun row => row.name = name ∧ row.version = version)
      (withStatus status) (withStatus_key status) }

def setTombstone (db : Database) (row : TombstoneRow) : Database :=
  { db with tombstones := db.tombstones.upsert row }

def withVersion (version : String) (row : DistTagRow) : DistTagRow := { row with version }

theorem withVersion_key (version : String) (row : DistTagRow) :
    (withVersion version row).key = row.key := rfl

/-- Tags of the version move to the rollback version or go. -/
def moveTags (db : Database) (name version : String) (rollback : Option String) : Database :=
  let tagged := fun row : DistTagRow => decide (row.name = name ∧ row.version = version)
  match rollback with
  | some rollback =>
    { db with
      distTags := db.distTags.update tagged (withVersion rollback) (withVersion_key rollback) }
  | none => { db with distTags := db.distTags.delete tagged }

def countDownload (row : VersionRow) : VersionRow :=
  { row with downloadCount := row.downloadCount + 1 }

theorem countDownload_key (row : VersionRow) : (countDownload row).key = row.key := rfl

def recordDownload (db : Database) (name version : String) : Database :=
  { db with
    versions := db.versions.update (fun row => row.name = name ∧ row.version = version)
      countDownload countDownload_key }

end Database

/-! ## Transactions -/

/-- Parsed versions and their precedence, as the `node-semver` crate has them. -/
structure SemVer where
  Version : Type
  parse : String → Option Version
  cmp : Version → Version → Ordering

/-- `max_by` over the versions that parse: of equal ones the last. -/
def SemVer.rollback (semver : SemVer) (active : List String) : Option String :=
  let parsed := active.filterMap fun value => (semver.parse value).map fun v => (v, value)
  (parsed.foldl (fun best x =>
    match best with
    | some b => if semver.cmp b.1 x.1 = .gt then some b else some x
    | none => some x) none).map Prod.snd

namespace ControlPlane
open Database

def createStage (db : Database) (stage : StageRecord) (eventKey : String) (event : Value)
    (maximumPendingStages now : ℕ) : Except String (Bool × Database) := do
  if maximumPendingStages ≤ db.pendingStages stage.organization then .ok (false, db)
  else
    let db := db.claimPackage {
      name := stage.name
      organization := stage.organization
      isPrivate := stage.isPrivate
      createdAt := stage.createdAt }
    match db.package stage.name with
    | none =>
      .error "no rows returned by a query that expected to return at least one row"
    | some package =>
      if package.organization ≠ stage.organization then
        .error "package belongs to another organization"
      else if package.isPrivate ≠ stage.isPrivate then
        .error "package visibility cannot change between versions"
      else
        let db ← db.insertStage stage
        let db ← db.insertOutbox eventKey event now
        .ok (true, db)

/-- What the decision changes besides the outbox. -/
def applyDecision (db : Database) (stage : StageRecord) (approve : Bool)
    (reason : Option String) (publishedAt : ℕ) : Except String Database :=
  if approve then do
    let db := db.markStage stage.id "approved" reason
    let db ← db.insertVersion (versionOf stage publishedAt)
    .ok (db.setTag { name := stage.name, tag := stage.tag, version := stage.version })
  else .ok (db.markStage stage.id "rejected" reason)

def decideStage (db : Database) (stage : StageRecord) (approve : Bool) (reason : Option String)
    (eventKey : String) (event : Value) (publishedAt now : ℕ) :
    Except String (Bool × Database) := do
  if (db.stages.find? stage.id).map (fun row => row.status) ≠ some "staged" then .ok (false, db)
  else
    let db ← applyDecision db stage approve reason publishedAt
    let db ← db.insertOutbox eventKey event now
    .ok (true, db)

/-- The tombstone has the columns of the call's other arguments. -/
def revokeVersion (semver : SemVer) (db : Database) (tombstone : TombstoneRow)
    (eventKey : String) (event : Value) (now : ℕ) : Except String (Bool × Database) := do
  if (db.version tombstone.name tombstone.version).isNone then .ok (false, db)
  else
    let db := db.markVersion tombstone.name tombstone.version tombstone.status
    let db := db.setTombstone tombstone
    let rollback := semver.rollback (db.activeVersions tombstone.name)
    let db := db.moveTags tombstone.name tombstone.version rollback
    let db ← db.insertOutbox eventKey event now
    .ok (true, db)

def grantPackageRole (db : Database) (row : PackageRoleRow) : Database :=
  { db with packageRoles := db.packageRoles.upsert row }

end ControlPlane

end Oath.Registry
