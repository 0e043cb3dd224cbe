import Oath.Registry.StageAccess

/-! A revocation against everything that was revoked before it: when it takes effect, and what
it commits when it does. -/

namespace Oath.Registry
open Contracts Service Unix Database

/-- The key of the outbox row of a revocation. -/
def revocationKey (tombstone : TombstoneRow) : String :=
  "version." ++ tombstone.status ++ ":" ++ tombstone.name ++ "@" ++ tombstone.version

/-- Everything a revocation commits: the version's status, its tombstone, the tags that named it
and the event. -/
structure RevocationCommitted (semver : SemVer) (db : Database) (tombstone : TombstoneRow)
    (event : Value) (now : ℕ) (db' : Database) : Prop extends Revoked db tombstone db' where
  distTags : db'.distTags = (db.moveTags tombstone.name tombstone.version
    (semver.rollback (db'.activeVersions tombstone.name))).distTags
  outbox (key : String) : db'.outbox.find? key =
    if revocationKey tombstone = key then
      some { eventKey := revocationKey tombstone, event, availableAt := now, createdAt := now }
    else db.outbox.find? key

/-! ## The transaction -/

section Transaction
variable {semver : SemVer} {db : Database} {tombstone : TombstoneRow} {event : Value} {now : ℕ}

theorem insertOutbox_free {eventKey : String} (event : Value) (now : ℕ)
    (hfree : db.outbox.find? eventKey = none) :
    ∃ outbox, db.insertOutbox eventKey event now = .ok { db with outbox } ∧
      ∀ key, outbox.find? key = if eventKey = key then
        some { eventKey, event, availableAt := now, createdAt := now } else db.outbox.find? key := by
  have hinsert : db.outbox.insert? { eventKey, event, availableAt := now, createdAt := now } =
      some (db.outbox.append _ hfree) := dif_pos hfree
  refine ⟨db.outbox.append { eventKey, event, availableAt := now, createdAt := now } hfree, ?_,
    fun key => db.outbox.find?_append _ hfree key⟩
  unfold insertOutbox
  rw [hinsert]
  rfl

theorem insertOutbox_taken {eventKey : String} {row : OutboxRow}
    (htaken : db.outbox.find? eventKey = some row) :
    db.insertOutbox eventKey event now =
      .error (duplicateKey "registry_outbox_event_key_key") := by
  have hinsert : db.outbox.insert? { eventKey, event, availableAt := now, createdAt := now } =
      none := dif_neg (by simp [htaken])
  unfold insertOutbox
  rw [hinsert]
  rfl

theorem moveTags_outbox (db : Database) (name version : String) (rollback : Option String) :
    (db.moveTags name version rollback).outbox = db.outbox := by
  cases rollback <;> rfl

theorem moveTags_versions (db : Database) (name version : String) (rollback : Option String) :
    (db.moveTags name version rollback).versions = db.versions := by
  cases rollback <;> rfl

/-- Where the tags go depends on nothing but the tags. -/
theorem moveTags_distTags {db db' : Database} (htags : db'.distTags = db.distTags)
    (name version : String) (rollback : Option String) :
    (db'.moveTags name version rollback).distTags =
      (db.moveTags name version rollback).distTags := by
  cases rollback with
  | none =>
    simp only [moveTags, htags]
  | some rollback =>
    simp only [moveTags, htags]

/-- The statements before the event's. -/
def revokedTables (semver : SemVer) (db : Database) (tombstone : TombstoneRow) : Database :=
  let db := (db.markVersion tombstone.name tombstone.version tombstone.status).setTombstone
    tombstone
  db.moveTags tombstone.name tombstone.version
    (semver.rollback (db.activeVersions tombstone.name))

theorem revokedTables_outbox : (revokedTables semver db tombstone).outbox = db.outbox :=
  moveTags_outbox _ _ _ _

theorem revokedTables_distTags : (revokedTables semver db tombstone).distTags =
    (db.moveTags tombstone.name tombstone.version
      (semver.rollback
        ((revokedTables semver db tombstone).activeVersions tombstone.name))).distTags := by
  have hactive : (revokedTables semver db tombstone).activeVersions tombstone.name =
      ((db.markVersion tombstone.name tombstone.version tombstone.status).setTombstone
        tombstone).activeVersions tombstone.name := by
    unfold activeVersions revokedTables
    rw [moveTags_versions]
  rw [hactive]
  have htags : ((db.markVersion tombstone.name tombstone.version tombstone.status).setTombstone
      tombstone).distTags = db.distTags := rfl
  exact moveTags_distTags htags _ _ _

theorem revokeVersion_eq {row : VersionRow}
    (hversion : db.version tombstone.name tombstone.version = some row) :
    ControlPlane.revokeVersion semver db tombstone (revocationKey tombstone) event now =
      (((revokedTables semver db tombstone).insertOutbox (revocationKey tombstone) event now).bind
        fun db => .ok (true, db)) := by
  unfold ControlPlane.revokeVersion
  rw [if_neg (by simp [hversion])]
  rfl

/-- The version is there and the key is free: the revocation commits. -/
theorem revokeVersion_commits (semver : SemVer) (event : Value) (now : ℕ) {row : VersionRow}
    (hversion : db.version tombstone.name tombstone.version = some row)
    (hfree : db.outbox.find? (revocationKey tombstone) = none) :
    ∃ db', ControlPlane.revokeVersion semver db tombstone (revocationKey tombstone) event now =
        .ok (true, db') ∧ RevocationCommitted semver db tombstone event now db' := by
  have hfree' : (revokedTables semver db tombstone).outbox.find? (revocationKey tombstone) = none := by
    rw [revokedTables_outbox]
    exact hfree
  obtain ⟨outbox, hinsert, hrows⟩ := insertOutbox_free event now hfree'
  have hcommit : ControlPlane.revokeVersion semver db tombstone (revocationKey tombstone) event now =
      .ok (true, { revokedTables semver db tombstone with outbox }) := by
    rw [revokeVersion_eq hversion, hinsert]
    rfl
  refine ⟨_, hcommit, ?_⟩
  obtain ⟨hfalse, -⟩ | ⟨-, hrevoked⟩ := revokeVersion_ok hcommit
  · cases hfalse
  · refine { hrevoked with distTags := ?_, outbox := ?_ }
    · exact revokedTables_distTags
    · rw [revokedTables_outbox] at hrows
      exact hrows

/-- The key is taken: nothing is committed. -/
theorem revokeVersion_refused_key (semver : SemVer) (event : Value) (now : ℕ) {row : VersionRow}
    {earlier : OutboxRow}
    (hversion : db.version tombstone.name tombstone.version = some row)
    (htaken : db.outbox.find? (revocationKey tombstone) = some earlier) :
    ControlPlane.revokeVersion semver db tombstone (revocationKey tombstone) event now =
      .error (duplicateKey "registry_outbox_event_key_key") := by
  have htaken' : (revokedTables semver db tombstone).outbox.find? (revocationKey tombstone) =
      some earlier := by
    rw [revokedTables_outbox]
    exact htaken
  rw [revokeVersion_eq hversion, insertOutbox_taken htaken']
  rfl

end Transaction

/-! ## The request -/

section Handler
variable {registry : PostgresRegistry} {s : RegistryState} {principal : Principal}
  {name version owner : String} {times : List ℕ}

theorem execute_ok {α : Type} {f : Database → Except String (α × Database)} {a : α}
    {db : Database} (hf : f s.db = .ok (a, db)) :
    execute f ⟨s, [], times⟩ = .ok a ⟨{ s with db }, [], times⟩ := by
  unfold execute internal mapError call
  simp only [List.headD_nil, hf]
  rfl

theorem execute_error {α : Type} {f : Database → Except String (α × Database)}
    {message : String} (hf : f s.db = .error message) :
    execute f ⟨s, [], times⟩ = .error (.internal message) ⟨s, [], times⟩ := by
  unfold execute internal mapError call
  simp only [List.headD_nil, hf]
  rfl

theorem authorizeName_write (howner : AuthorizedWriter s.db principal name owner) :
    authorizeName principal name true ⟨s, [], times⟩ = .ok owner ⟨s, [], times⟩ := by
  unfold authorizeName
  rw [bind_available (query_available _)]
  cases howner with
  | owner hpackage hsame hrole =>
    rw [hpackage]
    simp only [if_pos hsame]
    rw [hrole]
    rfl
  | @granted package role hpackage hother hgrant hrole =>
    rw [hpackage]
    simp only [if_neg hother]
    rw [bind_available (query_available _), hgrant]
    simp only [roleAllows, hrole]
    rfl
  | claimed hpackage hrole hscope =>
    rw [hpackage]
    have hany : (packageScope name).any (· ≠ principal.organization) = false := by
      cases hname : packageScope name with
      | none => rfl
      | some scope => simp [hscope scope hname]
    simp only [hrole, hany]
    rfl

/-- The tombstone and the event that the request makes at these times. -/
def requestedTombstone (registry : PostgresRegistry) (principal : Principal)
    (name version : String) (request : RevokeRequest) (times : List ℕ) : TombstoneRow :=
  tombstoneOf registry principal name version request (times.headD 0)

theorem requested_key (registry : PostgresRegistry) (principal : Principal)
    (name version : String) (request : RevokeRequest) (times : List ℕ) :
    revocationKey (requestedTombstone registry principal name version request times) =
      "version." ++ revokedStatus request ++ ":" ++ name ++ "@" ++ version := rfl

/-- The request succeeds, and what it commits in its one transaction is the revocation. -/
def RevocationTakesEffect (registry : PostgresRegistry) (s : RegistryState)
    (principal : Principal) (name version : String) (request : RevokeRequest)
    (times : List ℕ) : Prop :=
  ∃ response w', revokeVersion registry (.ok (some principal)) name version request
      ⟨s, [], times⟩ = .ok response w' ∧ w'.state.objects = s.objects ∧
    RevocationCommitted registry.semver s.db
      (requestedTombstone registry principal name version request times)
      (revocationEvent (requestedTombstone registry principal name version request times))
      (times.tail.headD 0) w'.state.db

theorem revokeVersion_run (howner : AuthorizedWriter s.db principal name owner)
    (request : RevokeRequest) :
    let tombstone := requestedTombstone registry principal name version request times
    revokeVersion registry (.ok (some principal)) name version request ⟨s, [], times⟩ =
      (execute (fun db => ControlPlane.revokeVersion registry.semver db tombstone
          (revocationKey tombstone) (revocationEvent tombstone) (times.tail.headD 0)) >>=
        fun revoked => do
          reject (!revoked) (.notFound "package version not found")
          pure (Value.json [("tombstone", Value.json [
            ("payload", tombstonePayload tombstone),
            ("algorithm", .string "ed25519"),
            ("canonicalization", .string "oath-json-v1"),
            ("signature", .string tombstone.signature),
            ("public_key", .string tombstone.publicKey)])]))
        ⟨s, [], times.tail.tail⟩ := by
  intro tombstone
  unfold revokeVersion
  rw [bind_available (authenticate_available principal _),
    bind_available (authorizeName_write howner)]
  rfl

theorem takesEffect_iff (howner : AuthorizedWriter s.db principal name owner)
    (hversion : (s.db.version name version).isSome = true) (request : RevokeRequest) :
    RevocationTakesEffect registry s principal name version request times ↔
      s.db.outbox.find?
        ("version." ++ revokedStatus request ++ ":" ++ name ++ "@" ++ version) = none := by
  obtain ⟨row, hrow⟩ := Option.isSome_iff_exists.mp hversion
  unfold RevocationTakesEffect
  rw [revokeVersion_run howner request]
  have hkey := requested_key registry principal name version request times
  have hrow' : s.db.version
      (requestedTombstone registry principal name version request times).name
      (requestedTombstone registry principal name version request times).version = some row := hrow
  rw [← hkey]
  generalize requestedTombstone registry principal name version request times = tombstone
    at hkey hrow' ⊢
  constructor
  · intro ⟨response, w', hok, _, _⟩
    by_contra htaken
    obtain ⟨earlier, hearlier⟩ := Option.ne_none_iff_exists'.mp htaken
    have hrefused := revokeVersion_refused_key registry.semver (revocationEvent tombstone)
      (times.tail.headD 0) hrow' hearlier
    rw [bind_failed (execute_error hrefused)] at hok
    cases hok
  · intro hfree
    obtain ⟨db', hcommit, hcommitted⟩ := revokeVersion_commits registry.semver
      (revocationEvent tombstone) (times.tail.headD 0) hrow' hfree
    rw [bind_available (execute_ok hcommit)]
    exact ⟨_, _, rfl, rfl, hcommitted⟩

end Handler

/-- In every state a registry can come to, an authorized revocation of an existing version takes
effect exactly when no earlier one has given the version the same status. -/
theorem revocation_takes_effect_iff (registry : PostgresRegistry) (replicas : ℕ)
    (calls : List Call) (principal : Principal) (owner name version : String)
    (request : RevokeRequest) (times : List ℕ)
    (hversion : ((run registry (.empty replicas) calls).db.version name version).isSome = true)
    (howner : AuthorizedWriter (run registry (.empty replicas) calls).db principal name owner) :
    RevocationTakesEffect registry (run registry (.empty replicas) calls) principal name version
        request times ↔
      (run registry (.empty replicas) calls).db.outbox.find?
        ("version." ++ revokedStatus request ++ ":" ++ name ++ "@" ++ version) = none :=
  takesEffect_iff howner hversion request

/-! ## The second revocation of a version -/

def demoRevoke : RevokeRequest := { reason := "malware", quarantine := false }

def demoRevocation : Call where
  request := .revokeVersion (.ok (some demoAdmin)) "demo" "1.0.0" demoRevoke
  faults := []
  times := [demoTime, demoTime]

def demoPackage : PackageRow where
  name := "demo"
  organization := "acme"
  isPrivate := false
  createdAt := demoTime

theorem demo_published : (run demoRegistry (.empty 1) demoCalls).db.packages.rows = [demoPackage] ∧
    (run demoRegistry (.empty 1) demoCalls).db.packageRoles.rows = [] ∧
    ((run demoRegistry (.empty 1) demoCalls).db.version "demo" "1.0.0").isSome = true ∧
    ((run demoRegistry (.empty 1) demoCalls).db.outbox.find?
      "version.revoked:demo@1.0.0").isNone = true := by
  decide +kernel

theorem demo_revoked :
    (run demoRegistry (.empty 1) (demoCalls ++ [demoRevocation])).db.packages.rows = [demoPackage] ∧
    ((run demoRegistry (.empty 1) (demoCalls ++ [demoRevocation])).db.version "demo"
      "1.0.0").isSome = true ∧
    ((run demoRegistry (.empty 1) (demoCalls ++ [demoRevocation])).db.outbox.find?
      "version.revoked:demo@1.0.0").isSome = true := by
  decide +kernel

theorem package_of_rows {db : Database} (h : db.packages.rows = [demoPackage]) :
    db.package "demo" = some demoPackage := by
  unfold package Table.find?
  rw [h]
  rfl

theorem demo_owner {db : Database} (h : db.packages.rows = [demoPackage]) :
    AuthorizedWriter db demoAdmin "demo" "acme" := .owner (package_of_rows h) rfl rfl

theorem revocation_takes_effect_demo :
    (((run demoRegistry (.empty 1) demoCalls).db.version "demo" "1.0.0").isSome = true ∧
      AuthorizedWriter (run demoRegistry (.empty 1) demoCalls).db demoAdmin "demo" "acme") ∧
      RevocationTakesEffect demoRegistry (run demoRegistry (.empty 1) demoCalls) demoAdmin "demo"
        "1.0.0" demoRevoke [demoTime, demoTime] := by
  obtain ⟨hpackages, -, hversion, hfree⟩ := demo_published
  refine ⟨⟨hversion, demo_owner hpackages⟩, ?_⟩
  apply (revocation_takes_effect_iff demoRegistry 1 demoCalls demoAdmin "acme" "demo" "1.0.0"
    demoRevoke [demoTime, demoTime] hversion (demo_owner hpackages)).mpr
  exact Option.isNone_iff_eq_none.mp hfree

/-- The same revocation again fails with the database's error. -/
theorem revocation_repeated_fails : ¬ ∀ registry replicas calls principal owner name version
    request times,
    ((run registry (.empty replicas) calls).db.version name version).isSome = true →
    AuthorizedWriter (run registry (.empty replicas) calls).db principal name owner →
    RevocationTakesEffect registry (run registry (.empty replicas) calls) principal name version
      request times := by
  intro hall
  obtain ⟨hpackages, hversion, htaken⟩ := demo_revoked
  have heffect := hall demoRegistry 1 (demoCalls ++ [demoRevocation]) demoAdmin "acme" "demo"
    "1.0.0" demoRevoke [demoTime, demoTime] hversion (demo_owner hpackages)
  have hfree := (takesEffect_iff (demo_owner hpackages) hversion demoRevoke).mp heffect
  rw [show "version." ++ revokedStatus demoRevoke ++ ":" ++ "demo" ++ "@" ++ "1.0.0" =
    "version.revoked:demo@1.0.0" from rfl] at hfree
  rw [hfree] at htaken
  cases htaken

end Oath.Registry
