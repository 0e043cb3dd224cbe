import Oath.Registry.Consistency

/-! The two ways to a stage: the listing, where the database decides who sees what, and the
view, where the handler does. -/

namespace Oath.Registry
open Contracts Service Unix Database

/-! ## The handlers -/

/-- The stages of the organization and those of packages it has a role on, the latest first. -/
def Database.listStages (db : Database) (organization : String) : List StageRecord :=
  ((db.stages.rows.filter fun row => row.organization = organization ||
    db.packageRoles.rows.any fun role => role.name = row.name && role.principalOrg = organization)
      |>.mergeSort fun a b => b.createdAt ≤ a.createdAt).map StageRow.toStageRecord

def listStages (caller : Caller) : Handler (List StageRecord) := do
  let principal ← authenticate caller
  query (·.listStages principal.organization)

def viewStage (caller : Caller) (id : String) : Handler StageRecord := do
  let principal ← authenticate caller
  let stage ← found (← query (·.readStage id)) (.notFound "stage not found")
  let _ ← authorizeName principal stage.name false
  pure stage

def downloadStage (caller : Caller) (id : String) : Handler (List UInt8) := do
  let stage ← viewStage caller id
  onObjects (ArtifactStore.get stage.digest)

/-! ## Runs without faults -/

section Available
variable {s : RegistryState} {times : List ℕ} {α β : Type}

theorem query_available (f : Database → α) :
    query f ⟨s, [], times⟩ = .ok (f s.db) ⟨s, [], times⟩ := rfl

theorem bind_available {x : Handler α} {f : α → Handler β} {a : α} {w w' : World RegistryState}
    (hx : x w = .ok a w') : (x >>= f) w = f a w' := by
  change EStateM.bind x f w = f a w'
  unfold EStateM.bind
  rw [hx]

theorem bind_failed {x : Handler α} {f : α → Handler β} {error : ApiError}
    {w w' : World RegistryState} (hx : x w = .error error w') : (x >>= f) w = .error error w' := by
  change EStateM.bind x f w = .error error w'
  unfold EStateM.bind
  rw [hx]

theorem authenticate_available (principal : Principal) (w : World RegistryState) :
    authenticate (.ok (some principal)) w = .ok principal w := rfl

end Available

/-! ## Who may read a package -/

/-- The organization owns the package, or has any role on it. -/
def MayRead (db : Database) (organization name : String) : Prop :=
  ∃ package, db.package name = some package ∧
    (package.organization = organization ∨ (db.packageRole name organization).isSome)

/-- What the authorization of a read comes to. -/
def readAccess (db : Database) (organization name : String) : Except ApiError String :=
  match db.package name with
  | none => .error (.notFound "package not found")
  | some package =>
    if package.organization = organization || (db.packageRole name organization).isSome then
      .ok package.organization
    else .error (.forbidden "package belongs to another organization")

theorem packageRole_isSome_iff {db : Database} {name organization : String} :
    (db.packageRole name organization).isSome = true ↔
      ∃ role ∈ db.packageRoles.rows, role.name = name ∧ role.principalOrg = organization := by
  unfold packageRole
  rw [Option.isSome_map, Option.isSome_iff_exists]
  apply exists_congr
  intro role
  rw [Table.find?_eq_some, PackageRoleRow.key, Prod.mk.injEq]

theorem readAccess_ok_iff {db : Database} {organization name : String} :
    (∃ owner, readAccess db organization name = .ok owner) ↔ MayRead db organization name := by
  unfold readAccess MayRead
  cases hpackage : db.package name with
  | none => simp
  | some package =>
    by_cases hsame : package.organization = organization
    · simp [hsame]
    · cases db.packageRole name organization <;> simp [hsame]

section Reading
variable {s : RegistryState} {times : List ℕ} {name : String}

theorem authorizeName_read (principal : Principal) (name : String) :
    authorizeName principal name false ⟨s, [], times⟩ =
      ofResult (readAccess s.db principal.organization name) ⟨s, [], times⟩ := by
  unfold authorizeName readAccess
  rw [bind_available (query_available _)]
  cases hpackage : s.db.package name with
  | none => rfl
  | some package =>
    simp only
    by_cases hsame : package.organization = principal.organization
    · rw [if_pos hsame, if_pos (by simp [hsame])]
      rfl
    · rw [if_neg hsame, bind_available (query_available _)]
      cases s.db.packageRole name principal.organization with
      | none =>
        rw [if_neg (by simp [hsame])]
        rfl
      | some role =>
        rw [if_pos (by simp)]
        rfl

/-- A view finds the stage and may read its package. -/
theorem viewStage_ok_iff {principal : Principal} {id : String} {stage : StageRecord} :
    viewStage (.ok (some principal)) id ⟨s, [], times⟩ = .ok stage ⟨s, [], times⟩ ↔
      s.db.readStage id = some stage ∧ MayRead s.db principal.organization stage.name := by
  unfold viewStage
  rw [bind_available (authenticate_available principal _),
    bind_available (query_available _)]
  cases hstage : s.db.readStage id with
  | none =>
    constructor
    · intro hok
      cases hok
    · intro hboth
      cases hboth.1
  | some found =>
    change (authorizeName principal found.name false >>= fun _ => pure found) _ = _ ↔ _
    rw [← readAccess_ok_iff]
    have haccess : authorizeName principal found.name false ⟨s, [], times⟩ = _ :=
      authorizeName_read principal found.name
    cases hread : readAccess s.db principal.organization found.name with
    | error error =>
      rw [hread] at haccess
      rw [bind_failed haccess]
      constructor
      · intro hok
        cases hok
      · intro ⟨hsame, owner, hok⟩
        obtain rfl := Option.some.inj hsame
        cases hread.symm.trans hok
    | ok owner =>
      rw [hread] at haccess
      rw [bind_available haccess]
      constructor
      · intro hok
        obtain ⟨rfl, -⟩ := EStateM.Result.ok.inj hok
        exact ⟨rfl, owner, hread⟩
      · intro ⟨hsame, _⟩
        obtain rfl := Option.some.inj hsame
        rfl

end Reading

/-! ## The listing -/

theorem mem_listStages {db : Database} {organization : String} {stage : StageRecord} :
    stage ∈ db.listStages organization ↔ ∃ row ∈ db.stages.rows, row.toStageRecord = stage ∧
      (row.organization = organization ∨ (db.packageRole row.name organization).isSome = true) := by
  unfold Database.listStages
  simp only [List.mem_map, List.mem_mergeSort, List.mem_filter, Bool.or_eq_true,
    List.any_eq_true, Bool.and_eq_true, decide_eq_true_eq, packageRole_isSome_iff, and_assoc]
  apply exists_congr
  intro row
  rw [and_congr_right_iff]
  intro _
  exact and_comm

theorem nodup_listStages (db : Database) (organization : String) :
    ((db.listStages organization).map StageRecord.id).Nodup := by
  unfold Database.listStages
  rw [List.map_map]
  have hperm := List.mergeSort_perm (db.stages.rows.filter fun row =>
    row.organization = organization || db.packageRoles.rows.any fun role =>
      role.name = row.name && role.principalOrg = organization) fun a b => b.createdAt ≤ a.createdAt
  apply (hperm.map _).nodup_iff.mpr
  exact (List.filter_sublist.map _).nodup db.stages.nodup

/-! ## Ownership -/

/-- The package's row has the owner and the visibility of the other row. -/
def AgreesWithPackage (db : Database) (name organization : String) (isPrivate : Bool) : Prop :=
  ∃ package, db.package name = some package ∧ package.organization = organization ∧
    package.isPrivate = isPrivate

section Consistent
variable {registry : PostgresRegistry} {s : RegistryState}

theorem Consistent.stage_agrees (hs : Consistent registry s) {row : StageRow}
    (hrow : row ∈ s.db.stages.rows) :
    AgreesWithPackage s.db row.name row.organization row.isPrivate :=
  hs.owned row.id row (Table.find?_key hrow)

theorem Consistent.version_agrees (hs : Consistent registry s) {row : VersionRow}
    (hrow : row ∈ s.db.versions.rows) :
    AgreesWithPackage s.db row.name row.organization row.isPrivate := by
  obtain ⟨id, stage, hstage, -, hfrom⟩ := hs.published row.key row (Table.find?_key hrow)
  have hagrees := hs.stage_agrees (Table.mem_of_find? hstage)
  rw [hfrom.name, hfrom.organization, hfrom.isPrivate]
  exact hagrees

/-- The owner the database compares and the one the handler compares are the same. -/
theorem Consistent.listed_iff (hs : Consistent registry s) {organization : String}
    {stage : StageRecord} :
    stage ∈ s.db.listStages organization ↔
      ∃ id, s.db.readStage id = some stage ∧ MayRead s.db organization stage.name := by
  rw [mem_listStages]
  constructor
  · intro ⟨row, hrow, hstage, hvisible⟩
    obtain ⟨package, hpackage, howner, -⟩ := hs.stage_agrees hrow
    subst hstage
    refine ⟨row.id, ?_, package, hpackage, ?_⟩
    · unfold readStage
      rw [show s.db.stages.find? row.id = some row from Table.find?_key hrow]
      rfl
    · rw [howner]
      exact hvisible
  · intro ⟨id, hread, package, hpackage, hvisible⟩
    obtain ⟨row, hrow, hstage, -⟩ := readStage_eq hread
    have hmem := Table.mem_of_find? hrow
    obtain ⟨package', hpackage', howner, -⟩ := hs.stage_agrees hmem
    subst hstage
    obtain rfl := Option.some.inj (hpackage.symm.trans hpackage')
    rw [howner] at hvisible
    exact ⟨row, hmem, rfl, hvisible⟩

end Consistent

/-- What holds of who owns and who sees the stages. -/
structure OwnershipAgrees (s : RegistryState) : Prop where
  stages (row : StageRow) (h : row ∈ s.db.stages.rows) :
    AgreesWithPackage s.db row.name row.organization row.isPrivate
  versions (row : VersionRow) (h : row ∈ s.db.versions.rows) :
    AgreesWithPackage s.db row.name row.organization row.isPrivate
  listed (principal : Principal) (times : List ℕ) :
    ∃ stages, listStages (.ok (some principal)) ⟨s, [], times⟩ = .ok stages ⟨s, [], times⟩ ∧
      (stages.map StageRecord.id).Nodup ∧
      ∀ stage, stage ∈ stages ↔
        ∃ id, viewStage (.ok (some principal)) id ⟨s, [], times⟩ = .ok stage ⟨s, [], times⟩

/-- After every history the copied owners and flags agree, and the listing has exactly the
stages the view authorizes. -/
theorem run_ownership_agrees (registry : PostgresRegistry) (replicas : ℕ) (calls : List Call) :
    OwnershipAgrees (run registry (.empty replicas) calls) where
  stages _ h := (run_consistent registry replicas calls).stage_agrees h
  versions _ h := (run_consistent registry replicas calls).version_agrees h
  listed principal times := by
    refine ⟨_, rfl, nodup_listStages _ _, ?_⟩
    intro stage
    simp only [viewStage_ok_iff]
    exact (run_consistent registry replicas calls).listed_iff

end Oath.Registry
