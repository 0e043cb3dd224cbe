import Oath.Registry.PostgresApi
import Oath.Registry.Transactions

/-! What a request can do to the registry: nothing that matters, or one of the few effects
below, whatever fails on the way. -/

namespace Oath.Registry
open Contracts Service Unix

/-! ## The pieces of a handler -/

theorem internal_ok {α : Type} {x : Service RegistryState α} {w w' : World RegistryState} {a : α} :
    internal x w = .ok a w' ↔ x w = .ok a w' := mapError_ok

theorem query_still {α : Type} (f : Database → α) : Still (query f) :=
  changes_mapError (still_read _)

theorem query_ok {α : Type} {f : Database → α} {w w' : World RegistryState} {a : α}
    (h : query f w = .ok a w') : a = f w.state.db ∧ w'.state = w.state :=
  read_ok (internal_ok.mp h)

theorem execute_state {α : Type} (f : Database → Except String (α × Database))
    (w : World RegistryState) : (execute f w).state.state = w.state ∨
      ∃ a db, f w.state.db = .ok (a, db) ∧ (execute f w).state.state = { w.state with db } := by
  unfold execute internal
  rw [mapError_state]
  rcases call_state _ w with hsame | ⟨a, hcall⟩
  · exact Or.inl hsame
  · obtain ⟨⟨a', db⟩, hf, hstate⟩ := Except.bind_eq_ok.mp hcall
    obtain ⟨-, hw⟩ := Prod.mk.inj (Except.ok.inj hstate)
    exact Or.inr ⟨a', db, hf, hw.symm⟩

theorem reject_ok {condition : Bool} {error : ApiError} {w w' : World RegistryState} :
    reject condition error w = .ok () w' ↔ condition = false ∧ w' = w := by
  unfold reject
  cases condition <;> simp [EStateM.pure_eq_ok, EStateM.throw_ne_ok, eq_comm]

theorem reject_still (condition : Bool) (error : ApiError) : Still (reject condition error) := by
  cases condition
  · exact changes_pure ()
  · exact changes_throw _

theorem ofResult_ok {α : Type} {x : Except ApiError α} {w w' : World RegistryState} {a : α} :
    ofResult x w = .ok a w' ↔ x = .ok a ∧ w' = w := by
  cases x <;> simp [ofResult, EStateM.pure_eq_ok, EStateM.throw_ne_ok, eq_comm]

theorem ofResult_still {α : Type} (x : Except ApiError α) : Still (ofResult x) := by
  cases x
  · exact changes_throw _
  · exact changes_pure _

theorem found_ok {α : Type} {x : Option α} {error : ApiError} {w w' : World RegistryState}
    {a : α} : found x error w = .ok a w' ↔ x = some a ∧ w' = w := by
  cases x <;> simp [found, EStateM.pure_eq_ok, EStateM.throw_ne_ok, eq_comm]

theorem found_still {α : Type} (x : Option α) (error : ApiError) : Still (found x error) := by
  cases x
  · exact changes_throw _
  · exact changes_pure _

theorem authenticate_still (caller : Caller) : Still (authenticate caller) :=
  still_bind (ofResult_still caller) fun _ => found_still _ _

theorem authenticate_ok {caller : Caller} {w w' : World RegistryState} {principal : Principal}
    (h : authenticate caller w = .ok principal w') : caller = .ok (some principal) := by
  obtain ⟨p, w₁, hcaller, h1⟩ := EStateM.bind_eq_ok.mp h
  obtain ⟨rfl, -⟩ := ofResult_ok.mp hcaller
  obtain ⟨rfl, -⟩ := found_ok.mp h1
  rfl

/-! ## Authorization -/

/-- Who may write to a package: a publisher of the organization that owns it, a principal of
an organization with a publishing role on it, or a publisher who claims a new name. -/
inductive AuthorizedWriter (db : Database) (principal : Principal) (name : String) :
    String → Prop
  | owner {package : PackageRow} (hpackage : db.package name = some package)
    (hsame : package.organization = principal.organization)
    (hrole : canPublish principal.role) : AuthorizedWriter db principal name package.organization
  | granted {package : PackageRow} {role : String} (hpackage : db.package name = some package)
    (hother : package.organization ≠ principal.organization)
    (hgrant : db.packageRole name principal.organization = some role)
    (hrole : canPublish role) : AuthorizedWriter db principal name package.organization
  | claimed (hpackage : db.package name = none) (hrole : canPublish principal.role)
    (hscope : ∀ scope, packageScope name = some scope → scope = principal.organization) :
    AuthorizedWriter db principal name principal.organization

theorem authorizeName_still (principal : Principal) (name : String) (write : Bool) :
    Still (authorizeName principal name write) := by
  refine still_bind (query_still _) fun package => ?_
  cases package with
  | none =>
    refine still_bind (reject_still _ _) fun _ => ?_
    refine still_bind (reject_still _ _) fun _ => ?_
    exact still_bind (reject_still _ _) fun _ => changes_pure _
  | some package =>
    dsimp only
    split_ifs
    · exact still_bind (reject_still _ _) fun _ => changes_pure _
    · refine still_bind (query_still _) fun role => ?_
      exact still_bind (reject_still _ _) fun _ => changes_pure _

theorem authorizeName_ok {principal : Principal} {name owner : String}
    {w w' : World RegistryState} (h : authorizeName principal name true w = .ok owner w') :
    AuthorizedWriter w.state.db principal name owner := by
  obtain ⟨package, w₁, hpackage, h1⟩ := EStateM.bind_eq_ok.mp h
  obtain ⟨hrow, hw₁⟩ := query_ok hpackage
  cases package with
  | none =>
    obtain ⟨_, w₂, hwrite, h2⟩ := EStateM.bind_eq_ok.mp h1
    obtain ⟨-, rfl⟩ := reject_ok.mp hwrite
    obtain ⟨_, w₃, hrole, h3⟩ := EStateM.bind_eq_ok.mp h2
    obtain ⟨hcan, rfl⟩ := reject_ok.mp hrole
    obtain ⟨_, w₄, hscope, h4⟩ := EStateM.bind_eq_ok.mp h3
    obtain ⟨hsame, rfl⟩ := reject_ok.mp hscope
    obtain ⟨rfl, -⟩ := EStateM.Result.ok.inj h4
    refine .claimed hrow.symm (by simpa using hcan) fun scope hs => ?_
    simpa [hs] using hsame
  | some package =>
    dsimp only at h1
    split_ifs at h1 with hsame
    · obtain ⟨_, w₂, hrole, h2⟩ := EStateM.bind_eq_ok.mp h1
      obtain ⟨hcan, rfl⟩ := reject_ok.mp hrole
      obtain ⟨rfl, -⟩ := EStateM.Result.ok.inj h2
      exact .owner hrow.symm hsame (by simpa using hcan)
    · obtain ⟨role, w₂, hgrant, h2⟩ := EStateM.bind_eq_ok.mp h1
      obtain ⟨hrole, -⟩ := query_ok hgrant
      obtain ⟨_, w₃, hallowed, h3⟩ := EStateM.bind_eq_ok.mp h2
      obtain ⟨hallows, rfl⟩ := reject_ok.mp hallowed
      obtain ⟨rfl, -⟩ := EStateM.Result.ok.inj h3
      rw [hw₁] at hrole
      cases role with
      | none => simp [roleAllows] at hallows
      | some role =>
        exact .granted hrow.symm hsame hrole.symm (by simpa [roleAllows] using hallows)

theorem authorizeReader_still (caller : Caller) (name : String) :
    Still (authorizeReader caller name) :=
  still_bind (authenticate_still caller) fun _ =>
    still_bind (authorizeName_still _ _ _) fun _ => changes_pure ()

/-! ## The effects -/

/-- The stage is what the server has made of these bytes. -/
structure Assessed (registry : PostgresRegistry) (stage : StageRecord) (tarball : List UInt8)
    (bundle : RegistryAssessmentBundle) : Prop where
  digest : stage.digest = hexSha256 registry.assess.sha tarball
  manifest : manifestFromTarball registry.assess.decode registry.assess.parseJson tarball
    stage.name stage.version = .ok stage.manifest
  assessed : ∃ clock publisher host host',
    assessTarball (registry.assessAt clock) tarball stage.manifest stage.name stage.version
      publisher registry.publicUrl host = .ok bundle host'
  assessment : stage.assessment = (signVerdict registry bundle.verdict).toValue
  serverEvidence : stage.serverEvidence = bundle.evidence
  sbom : stage.sbom = bundle.sbom
  provenance : stage.provenance = bundle.provenance

/-- What one request does to the registry. Objects are only ever added. -/
inductive Effect (registry : PostgresRegistry) (s : RegistryState) :
    Request → RegistryState → Prop
  | stored {request : Request} {objects : ArtifactStore}
    (hkeeps : KeepsPrimary s.objects objects) : Effect registry s request { s with objects }
  | staged {caller : Caller} {host : FileSystem} {request : StageRequest} {principal : Principal}
    {stage : StageRecord} {tarball : List UInt8} {bundle : RegistryAssessmentBundle}
    {s' : RegistryState} (hcaller : caller = .ok (some principal))
    (hname : stage.name = request.name) (hstatus : stage.status = "staged")
    (howner : AuthorizedWriter s.db principal stage.name stage.organization)
    (hassessed : Assessed registry stage tarball bundle)
    (hstored : s'.objects.primary.find? stage.digest =
      some { path := stage.digest, bytes := tarball })
    (hkeeps : KeepsPrimary s.objects s'.objects) (hstaged : Staged s.db stage s'.db) :
    Effect registry s (.createStage caller host request) s'
  | approved {caller : Caller} {id : String} {reason : Option String} {principal : Principal}
    {stage : StageRecord} {publishedAt : ℕ} {db : Database}
    (hcaller : caller = .ok (some principal)) (hadmin : principal.role = "admin")
    (hstepUp : registry.requireStepUpApproval → principal.kind = "oidc-mfa")
    (hstage : s.db.readStage id = some stage)
    (howner : stage.organization = principal.organization)
    (hdenied : ¬ isDenied stage.assessment)
    (happroved : Approved s.db stage reason publishedAt db) :
    Effect registry s (.decide caller id true reason) { s with db }
  | rejected {caller : Caller} {id : String} {reason : Option String} {principal : Principal}
    {stage : StageRecord} {db : Database} (hcaller : caller = .ok (some principal))
    (hadmin : principal.role = "admin") (hstage : s.db.readStage id = some stage)
    (howner : stage.organization = principal.organization)
    (hrejected : Rejected s.db stage reason db) :
    Effect registry s (.decide caller id false reason) { s with db }
  | revoked {caller : Caller} {name version : String} {request : RevokeRequest}
    {principal : Principal} {owner : String} {createdAt : ℕ} {db : Database}
    (hcaller : caller = .ok (some principal))
    (howner : AuthorizedWriter s.db principal name owner)
    (hrevoked : Revoked s.db
      (tombstoneOf registry principal name version request createdAt) db) :
    Effect registry s (.revokeVersion caller name version request) { s with db }
  | granted {caller : Caller} {name : String} {request : PackageRoleRequest}
    {principal : Principal} {package : PackageRow} (hcaller : caller = .ok (some principal))
    (hadmin : principal.role = "admin") (hpackage : s.db.package name = some package)
    (howner : package.organization = principal.organization) :
    Effect registry s (.grantRole caller name request)
      { s with
        db := ControlPlane.grantPackageRole s.db {
          name
          organization := principal.organization
          principalOrg := request.principalOrg
          role := request.role } }
  | downloaded {caller : Caller} {name version : String} {objects : ArtifactStore}
    (hkeeps : KeepsPrimary s.objects objects) :
    Effect registry s (.downloadVersion caller name version)
      { db := s.db.recordDownload name version, objects }

theorem Effect.nothing (registry : PostgresRegistry) {s s' : RegistryState} (request : Request)
    (h : s' = s) : Effect registry s request s' := by
  rw [h]
  exact .stored (Std.Refl.refl s.objects)

/-! ## Every handler -/

theorem onObjects_ok {α : Type} {x : Service ArtifactStore α} {w w' : World RegistryState} {a : α}
    (h : onObjects x w = .ok a w') :
    ∃ v, x { w with state := w.state.objects } = .ok a v ∧
      w'.state = { w.state with objects := v.state } :=
  within_ok (internal_ok.mp h)

theorem onObjects_state {α : Type} (x : Service ArtifactStore α) (w : World RegistryState) :
    (onObjects x w).state.state =
      { w.state with objects := (x { w with state := w.state.objects }).state.state } := by
  unfold onObjects internal
  rw [mapError_state, within_state]

/-- A transaction, with nothing after it but reads. -/
theorem execute_then (P : RegistryState → Prop) {α β : Type}
    {f : Database → Except String (α × Database)} {g : α → Handler β} {s : RegistryState}
    (hsame : P s) {w : World RegistryState} (hw : w.state = s)
    (hcommit : ∀ a db, f s.db = .ok (a, db) → P { s with db }) (hg : ∀ a, Still (g a)) :
    P ((execute f >>= g) w).state.state := by
  have hstate : P (execute f w).state.state := by
    rcases execute_state f w with hstate | ⟨a, db, hf, hstate⟩
    · rw [hstate, hw]
      exact hsame
    · rw [hstate]
      rw [hw] at hf ⊢
      exact hcommit a db hf
  refine bind_then P (fun e w' h => ?_) fun a w' h => ?_
  · rwa [h] at hstate
  · rw [h] at hstate
    rw [← show w'.state = _ from hg a w']
    exact hstate

section Handlers
variable (registry : PostgresRegistry) {s : RegistryState} {w : World RegistryState}

theorem ofAssessment_still
    (result : EStateM.Result String FileSystem RegistryAssessmentBundle) :
    Still (ofAssessment result) := by
  cases result
  · exact changes_pure _
  · exact changes_throw _

theorem ofAssessment_ok {result : EStateM.Result String FileSystem RegistryAssessmentBundle}
    {w w' : World RegistryState} {bundle : RegistryAssessmentBundle}
    (h : ofAssessment result w = .ok bundle w') : ∃ host, result = .ok bundle host := by
  cases result with
  | ok bundle' host =>
    obtain ⟨rfl, -⟩ := EStateM.Result.ok.inj h
    exact ⟨host, rfl⟩
  | error message host => cases h

theorem serverAssessment_still (host : FileSystem) (tarball : List UInt8) (manifest : Value)
    (name version publisher : String) :
    Still (serverAssessment registry host tarball manifest name version publisher) :=
  still_bind changes_now fun _ => ofAssessment_still _

theorem serverAssessment_ok {host : FileSystem} {tarball : List UInt8} {manifest : Value}
    {name version publisher : String} {w w' : World RegistryState}
    {bundle : RegistryAssessmentBundle}
    (h : serverAssessment registry host tarball manifest name version publisher w =
      .ok bundle w') :
    ∃ clock host', assessTarball (registry.assessAt clock) tarball manifest name version
      publisher registry.publicUrl host = .ok bundle host' := by
  obtain ⟨clock, w₁, -, h1⟩ := EStateM.bind_eq_ok.mp h
  exact ⟨clock, ofAssessment_ok h1⟩

theorem createStage_effect (caller : Caller) (host : FileSystem) (request : StageRequest)
    (hw : w.state = s) : Effect registry s (.createStage caller host request)
      (createStage registry caller host request w).state.state := by
  have hnothing := Effect.nothing registry (.createStage caller host request) (Eq.refl s)
  refine still_then _ hnothing (authenticate_still caller) hw fun principal w₁ hcaller hw₁ => ?_
  refine still_then _ hnothing (authorizeName_still _ _ _) hw₁ fun owner w₂ howner hw₂ => ?_
  refine still_then _ hnothing (query_still _) hw₂ fun package w₃ _ hw₃ => ?_
  refine still_then _ hnothing (reject_still _ _) hw₃ fun _ w₄ _ hw₄ => ?_
  refine still_then _ hnothing (reject_still _ _) hw₄ fun _ w₅ _ hw₅ => ?_
  refine still_then _ hnothing (found_still _ _) hw₅ fun tarball w₆ _ hw₆ => ?_
  refine still_then _ hnothing (ofResult_still _) hw₆ fun manifest w₇ hmanifest hw₇ => ?_
  refine still_then _ hnothing (serverAssessment_still _ _ _ _ _ _ _) hw₇
    fun bundle w₈ hbundle hw₈ => ?_
  obtain ⟨hmanifest, -⟩ := ofResult_ok.mp hmanifest
  obtain ⟨clock, host', hassess⟩ := serverAssessment_ok registry hbundle
  have hwriter := authorizeName_ok howner
  rw [hw₁] at hwriter
  have hput := onObjects_state
    (ArtifactStore.putImmutable (hexSha256 registry.assess.sha tarball) tarball) w₈
  have hkeeps := ArtifactStore.putImmutable_changes (hexSha256 registry.assess.sha tarball)
    tarball { w₈ with state := w₈.state.objects }
  rw [hw₈] at hput hkeeps
  refine bind_then _ (fun e w₉ herror => ?_) fun _ w₉ hstored => ?_
  · rw [herror] at hput
    rw [show w₉.state = _ from hput]
    exact .stored hkeeps
  · rw [hstored] at hput
    obtain ⟨v, hv, hstate⟩ := onObjects_ok hstored
    have hobject := ArtifactStore.putImmutable_ok hv
    rw [hw₈] at hv hstate
    rw [hv] at hkeeps
    have hnothing' : Effect registry s (.createStage caller host request)
      { s with objects := v.state } := .stored hkeeps
    refine still_then _ hnothing' changes_now hstate fun createdAt w₁₀ _ hw₁₀ => ?_
    refine still_then _ hnothing' changes_now hw₁₀ fun insertedAt w₁₁ _ hw₁₁ => ?_
    refine execute_then _ hnothing' hw₁₁ (fun accepted db hcommit => ?_) fun accepted =>
      still_bind (reject_still _ _) fun _ => changes_pure _
    rcases createStage_ok hcommit with ⟨-, rfl⟩ | ⟨-, hstaged⟩
    · exact hnothing'
    · have hassessed : Assessed registry
          (stageOf registry request owner tarball manifest bundle createdAt) tarball bundle :=
        ⟨rfl, hmanifest, ⟨clock, principal.organization, host, host', hassess⟩, rfl, rfl, rfl, rfl⟩
      exact .staged (authenticate_ok hcaller) rfl rfl hwriter hassessed hobject hkeeps hstaged

theorem decide_effect (caller : Caller) (id : String) (approve : Bool) (reason : Option String)
    (hw : w.state = s) : Effect registry s (.decide caller id approve reason)
      (decide registry caller id approve reason w).state.state := by
  have hnothing := Effect.nothing registry (.decide caller id approve reason) (Eq.refl s)
  refine still_then _ hnothing (authenticate_still caller) hw fun principal w₁ hcaller hw₁ => ?_
  refine still_then _ hnothing (reject_still _ _) hw₁ fun _ w₂ hrole hw₂ => ?_
  refine still_then _ hnothing (reject_still _ _) hw₂ fun _ w₃ hstepUp hw₃ => ?_
  refine still_then _ hnothing (query_still _) hw₃ fun row w₄ hread hw₄ => ?_
  refine still_then _ hnothing (found_still _ _) hw₄ fun stage w₅ hstage hw₅ => ?_
  refine still_then _ hnothing (reject_still _ _) hw₅ fun _ w₆ howner hw₆ => ?_
  refine still_then _ hnothing (reject_still _ _) hw₆ fun _ w₇ hdenied hw₇ => ?_
  refine still_then _ hnothing changes_now hw₇ fun publishedAt w₈ _ hw₈ => ?_
  refine still_then _ hnothing changes_now hw₈ fun insertedAt w₉ _ hw₉ => ?_
  refine execute_then _ hnothing hw₉ (fun decidedNow db hcommit => ?_) fun decidedNow =>
    still_bind (reject_still _ _) fun _ => still_bind (query_still _) fun _ => found_still _ _
  obtain ⟨hadmin, -⟩ := reject_ok.mp hrole
  obtain ⟨hmfa, -⟩ := reject_ok.mp hstepUp
  obtain ⟨hrow, -⟩ := query_ok hread
  obtain ⟨rfl, -⟩ := found_ok.mp hstage
  obtain ⟨hsame, -⟩ := reject_ok.mp howner
  obtain ⟨hallowed, -⟩ := reject_ok.mp hdenied
  rw [hw₃] at hrow
  rcases decideStage_ok hcommit with ⟨-, rfl⟩ | ⟨-, hdecided⟩
  · exact hnothing
  · cases approve with
    | true =>
      refine .approved (authenticate_ok hcaller) (by simpa using hadmin) ?_ hrow.symm
        (by simpa using hsame) (by simpa using hallowed) hdecided
      intro hrequired
      simpa [hrequired] using hmfa
    | false =>
      exact .rejected (authenticate_ok hcaller) (by simpa using hadmin) hrow.symm
        (by simpa using hsame) hdecided

theorem revokeVersion_effect (caller : Caller) (name version : String) (request : RevokeRequest)
    (hw : w.state = s) : Effect registry s (.revokeVersion caller name version request)
      (revokeVersion registry caller name version request w).state.state := by
  have hnothing := Effect.nothing registry (.revokeVersion caller name version request) (Eq.refl s)
  refine still_then _ hnothing (authenticate_still caller) hw fun principal w₁ hcaller hw₁ => ?_
  refine still_then _ hnothing (authorizeName_still _ _ _) hw₁ fun owner w₂ howner hw₂ => ?_
  refine still_then _ hnothing changes_now hw₂ fun createdAt w₃ _ hw₃ => ?_
  refine still_then _ hnothing changes_now hw₃ fun insertedAt w₄ _ hw₄ => ?_
  refine execute_then _ hnothing hw₄ (fun revoked db hcommit => ?_) fun revoked =>
    still_bind (reject_still _ _) fun _ => changes_pure _
  have hwriter := authorizeName_ok howner
  rw [hw₁] at hwriter
  rcases revokeVersion_ok hcommit with ⟨-, rfl⟩ | ⟨-, hrevoked⟩
  · exact hnothing
  · exact .revoked (authenticate_ok hcaller) hwriter hrevoked

theorem grantRole_effect (caller : Caller) (name : String) (request : PackageRoleRequest)
    (hw : w.state = s) : Effect registry s (.grantRole caller name request)
      (grantRole caller name request w).state.state := by
  have hnothing := Effect.nothing registry (.grantRole caller name request) (Eq.refl s)
  refine still_then _ hnothing (authenticate_still caller) hw fun principal w₁ hcaller hw₁ => ?_
  refine still_then _ hnothing (reject_still _ _) hw₁ fun _ w₂ hrole hw₂ => ?_
  refine still_then _ hnothing (authorizeName_still _ _ _) hw₂ fun owner w₃ _ hw₃ => ?_
  refine still_then _ hnothing (reject_still _ _) hw₃ fun _ w₄ _ hw₄ => ?_
  refine still_then _ hnothing (reject_still _ _) hw₄ fun _ w₅ _ hw₅ => ?_
  refine still_then _ hnothing (query_still _) hw₅ fun row w₆ hread hw₆ => ?_
  refine still_then _ hnothing (found_still _ _) hw₆ fun package w₇ hpackage hw₇ => ?_
  refine still_then _ hnothing (reject_still _ _) hw₇ fun _ w₈ howner hw₈ => ?_
  refine execute_then _ hnothing hw₈ (fun _ db hcommit => ?_) fun _ =>
    still_bind (query_still _) fun _ => changes_pure _
  obtain ⟨hadmin, -⟩ := reject_ok.mp hrole
  obtain ⟨hrow, -⟩ := query_ok hread
  obtain ⟨rfl, -⟩ := found_ok.mp hpackage
  obtain ⟨hsame, -⟩ := reject_ok.mp howner
  rw [hw₅] at hrow
  obtain ⟨-, rfl⟩ := Prod.mk.inj (Except.ok.inj hcommit)
  exact .granted (authenticate_ok hcaller) (by simpa using hadmin) hrow.symm (by simpa using hsame)

theorem metadataLoop_still (name : String) (rows : List VersionRow)
    (versions : List (String × Value)) : Still (metadataLoop registry name rows versions) := by
  induction rows generalizing versions with
  | nil => exact changes_pure _
  | cons row rest ih =>
    exact still_bind changes_now fun time => still_bind (ofResult_still _) fun _ => ih _

theorem packageMetadata_still (caller : Caller) (name : String) :
    Still (packageMetadata registry caller name) := by
  refine still_bind (query_still _) fun row => ?_
  refine still_bind (found_still _ _) fun package => ?_
  refine still_bind ?_ fun _ => ?_
  · split_ifs
    · exact authorizeReader_still caller name
    · exact still_bind (ofResult_still caller) fun _ => changes_pure ()
  · refine still_bind (query_still _) fun rows => ?_
    refine still_bind (metadataLoop_still registry name _ _) fun versions => ?_
    refine still_bind (reject_still _ _) fun _ => ?_
    exact still_bind (query_still _) fun tags => changes_pure _

theorem downloadVersion_effect (caller : Caller) (name version : String) (hw : w.state = s) :
    Effect registry s (.downloadVersion caller name version)
      (downloadVersion caller name version w).state.state := by
  have hnothing := Effect.nothing registry (.downloadVersion caller name version) (Eq.refl s)
  refine still_then _ hnothing (query_still _) hw fun row w₁ _ hw₁ => ?_
  refine still_then _ hnothing (found_still _ _) hw₁ fun row w₂ _ hw₂ => ?_
  refine still_then _ hnothing ?_ hw₂ fun _ w₃ _ hw₃ => ?_
  · split_ifs
    · exact authorizeReader_still caller name
    · exact changes_pure ()
  refine still_then _ hnothing (reject_still _ _) hw₃ fun _ w₄ _ hw₄ => ?_
  have hget := onObjects_state (ArtifactStore.get row.digest) w₄
  have hkeeps := ArtifactStore.get_changes row.digest { w₄ with state := w₄.state.objects }
  rw [hw₄] at hget hkeeps
  refine bind_then _ (fun e w₅ herror => ?_) fun bytes w₅ hbytes => ?_
  · rw [herror] at hget
    rw [show w₅.state = _ from hget]
    exact .stored hkeeps
  · rw [hbytes] at hget
    refine execute_then _ (.stored hkeeps) hget (fun _ db hcommit => ?_) fun _ => changes_pure _
    obtain ⟨-, rfl⟩ := Prod.mk.inj (Except.ok.inj hcommit)
    exact .downloaded hkeeps

/-- Serving a request has one of the effects. -/
theorem serve_effect (s : RegistryState) (call : Call) :
    Effect registry s call.request (serve registry s call) := by
  obtain ⟨request, faults, times⟩ := call
  cases request with
  | createStage caller host request => exact createStage_effect registry caller host request rfl
  | decide caller id approve reason => exact decide_effect registry caller id approve reason rfl
  | revokeVersion caller name version request =>
    exact revokeVersion_effect registry caller name version request rfl
  | grantRole caller name request => exact grantRole_effect registry caller name request rfl
  | packageMetadata caller name =>
    exact Effect.nothing registry _ (packageMetadata_still registry caller name _).symm
  | downloadVersion caller name version =>
    exact downloadVersion_effect registry caller name version rfl

end Handlers

end Oath.Registry
