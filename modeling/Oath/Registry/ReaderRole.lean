import Oath.Registry.Consistency

/-! What a reader's token can do. A name is authorized by the token's role in the
organization that owns it, but by the package role alone in any other. -/

namespace Oath.Registry
open Contracts Service Unix Database

/-- Another organization owns the package and has given this one a publishing role. -/
def GrantedByOther (db : Database) (name organization : String) : Prop :=
  ∃ package role, db.package name = some package ∧ package.organization ≠ organization ∧
    db.packageRole name organization = some role ∧ canPublish role

/-- The request fails and no stage, version, tag or tombstone is different. -/
def Refused {α : Type} (x : Handler α) (w : World RegistryState) : Prop :=
  ∃ error w', x w = .error error w' ∧ w'.state.db.stages = w.state.db.stages ∧
    w'.state.db.versions = w.state.db.versions ∧ w'.state.db.distTags = w.state.db.distTags ∧
    w'.state.db.tombstones = w.state.db.tombstones

/-! ## One request -/

theorem reader_notAuthorized {db : Database} {principal : Principal} {name owner : String}
    (hreader : principal.role = "reader") (hother : ¬ GrantedByOther db name principal.organization) :
    ¬ AuthorizedWriter db principal name owner := by
  have hrole : ¬ canPublish principal.role := by
    rw [hreader]
    decide
  intro hwriter
  cases hwriter with
  | owner _ _ hcan => exact hrole hcan
  | granted hpackage hne hgrant hcan => exact hother ⟨_, _, hpackage, hne, hgrant, hcan⟩
  | claimed _ hcan _ => exact hrole hcan

/-- A handler that first asks for the right to write refuses who does not have it. -/
theorem refused_of_notAuthorized {α : Type} {principal : Principal} {name : String}
    {f : String → Handler α} {w : World RegistryState}
    (h : ∀ owner, ¬ AuthorizedWriter w.state.db principal name owner) :
    Refused (do let owner ← authorizeName principal name true; f owner) w := by
  have hstill := authorizeName_still principal name true w
  unfold Refused
  show ∃ error w', EStateM.bind (authorizeName principal name true) f w = _ ∧ _
  unfold EStateM.bind
  cases hauth : authorizeName principal name true w with
  | ok owner w' => exact absurd (authorizeName_ok hauth) (h owner)
  | error error w' =>
    rw [hauth] at hstill
    refine ⟨error, w', rfl, ?_⟩
    rw [← show w.state = w'.state from hstill]
    exact ⟨rfl, rfl, rfl, rfl⟩

section Reader
variable (registry : PostgresRegistry) {principal : Principal} {w : World RegistryState}

theorem createStage_refused {host : FileSystem} {request : StageRequest}
    (hreader : principal.role = "reader")
    (hother : ¬ GrantedByOther w.state.db request.name principal.organization) :
    Refused (createStage registry (.ok (some principal)) host request) w :=
  refused_of_notAuthorized fun _ => reader_notAuthorized hreader hother

theorem revokeVersion_refused {name version : String} {request : RevokeRequest}
    (hreader : principal.role = "reader")
    (hother : ¬ GrantedByOther w.state.db name principal.organization) :
    Refused (revokeVersion registry (.ok (some principal)) name version request) w :=
  refused_of_notAuthorized fun _ => reader_notAuthorized hreader hother

end Reader

/-! ## Histories -/

/-- An administrator of the organization that owns the package gives another organization a
publishing role on it. -/
def GrantsPublishing (s : RegistryState) (request : Request) (name organization : String) :
    Prop :=
  ∃ caller principal package grant, request = .grantRole caller name grant ∧
    caller = .ok (some principal) ∧ principal.role = "admin" ∧
    s.db.package name = some package ∧ package.organization = principal.organization ∧
    grant.principalOrg = organization ∧ organization ≠ package.organization ∧
    canPublish grant.role

/-- Publishing roles of the organization are on packages of its own. -/
def GrantedByOwner (db : Database) (name organization : String) : Prop :=
  ∀ role, db.packageRole name organization = some role → canPublish role →
    ∃ package, db.package name = some package ∧ package.organization = organization

theorem GrantedByOwner.notByOther {db : Database} {name organization : String}
    (h : GrantedByOwner db name organization) : ¬ GrantedByOther db name organization := by
  rintro ⟨package, role, hpackage, hne, hrole, hcan⟩
  obtain ⟨package', hpackage', hsame⟩ := h role hrole hcan
  obtain rfl := Option.some.inj (hpackage.symm.trans hpackage')
  exact hne hsame

theorem step_grantedByOwner (registry : PostgresRegistry) {s s' : RegistryState}
    {request : Request} {name organization : String} (hstep : Effect registry s request s')
    (hgrants : ¬ GrantsPublishing s request name organization)
    (hs : GrantedByOwner s.db name organization) : GrantedByOwner s'.db name organization := by
  intro role hrole hcan
  have hold : s.db.packageRole name organization = some role →
      ∃ package, s'.db.package name = some package ∧ package.organization = organization := by
    intro hold
    obtain ⟨package, hpackage, hsame⟩ := hs role hold hcan
    exact ⟨package, step_package hstep hpackage, hsame⟩
  unfold Database.packageRole at hrole hold
  cases hstep with
  | staged _ _ _ _ _ _ _ hstaged =>
    rw [hstaged.packageRoles] at hrole
    exact hold hrole
  | approved _ _ _ _ _ _ happroved =>
    rw [happroved.packageRoles] at hrole
    exact hold hrole
  | rejected _ _ _ _ hrejected =>
    rw [hrejected.packageRoles] at hrole
    exact hold hrole
  | revoked _ _ hrevoked =>
    rw [hrevoked.packageRoles] at hrole
    exact hold hrole
  | @granted caller name' grant principal package hcaller hadmin hpackage howner =>
    change Option.map _ (Table.find? (Table.upsert _ _) _) = _ at hrole
    rw [Table.find?_upsert] at hrole
    split_ifs at hrole with hkey
    · obtain ⟨rfl, rfl⟩ := Prod.mk.inj hkey
      obtain rfl := Option.some.inj hrole
      by_contra hne
      refine hgrants ⟨caller, principal, package, grant, rfl, hcaller, hadmin, hpackage, howner,
        rfl, fun hsame => hne ⟨package, hpackage, hsame.symm⟩, hcan⟩
    · exact hold hrole
  | stored | downloaded => exact hold hrole

theorem run_grantedByOwner (registry : PostgresRegistry) (replicas : ℕ) (calls : List Call)
    {name organization : String}
    (hgrants : ∀ before call after, calls = before ++ call :: after →
      ¬ GrantsPublishing (run registry (.empty replicas) before) call.request name organization) :
    GrantedByOwner (run registry (.empty replicas) calls).db name organization := by
  induction calls using List.reverseRecOn with
  | nil =>
    rintro role ⟨⟩
  | append_singleton calls call ih =>
    rw [run, List.foldl_concat]
    apply step_grantedByOwner registry (serve_effect registry _ call)
    · exact hgrants calls call [] rfl
    · exact ih fun before call' after hsplit => hgrants before call' (after ++ [call]) (by
        rw [hsplit, List.append_assoc, List.cons_append])

/-- After every history in which no other organization has given the reader's organization a
publishing role on the package, the reader can neither stage nor revoke its versions. -/
theorem reader_refused {registry : PostgresRegistry} {replicas : ℕ} {calls : List Call}
    {principal : Principal} {name : String}
    (hgrants : ∀ before call after, calls = before ++ call :: after →
      ¬ GrantsPublishing (run registry (.empty replicas) before) call.request name
        principal.organization)
    (hreader : principal.role = "reader") (faults : List Fault) (times : List ℕ) :
    (∀ host request, request.name = name →
      Refused (createStage registry (.ok (some principal)) host request)
        ⟨run registry (.empty replicas) calls, faults, times⟩) ∧
    ∀ version request,
      Refused (revokeVersion registry (.ok (some principal)) name version request)
        ⟨run registry (.empty replicas) calls, faults, times⟩ := by
  have hother := (run_grantedByOwner registry replicas calls hgrants).notByOther
  constructor
  · rintro host request rfl
    exact createStage_refused registry hreader hother
  · intro version request
    exact revokeVersion_refused registry hreader hother

/-! ## A reader of another organization -/

def betaReader : Principal := { organization := "beta", role := "reader", kind := "service" }

/-- The owner of the package makes the other organization a publisher of it. -/
def betaGrant : Call where
  request := .grantRole (.ok (some demoAdmin)) "demo" { principalOrg := "beta", role := "publisher" }
  faults := []
  times := []

/-- The reader revokes the only version. -/
theorem reader_revokes : betaReader.role = "reader" ∧
    ¬ Refused
      (revokeVersion demoRegistry (.ok (some betaReader)) "demo" "1.0.0"
        { reason := "", quarantine := false })
      ⟨run demoRegistry (.empty 1) (demoCalls ++ [betaGrant]), [], [demoTime, demoTime]⟩ := by
  have hrevoked : (match revokeVersion demoRegistry (.ok (some betaReader)) "demo" "1.0.0"
      { reason := "", quarantine := false }
      ⟨run demoRegistry (.empty 1) (demoCalls ++ [betaGrant]), [], [demoTime, demoTime]⟩ with
    | .ok _ w => ((w.state.db.version "demo" "1.0.0").map VersionRow.status) == some "revoked"
    | .error _ _ => false) = true := by decide +kernel
  refine ⟨rfl, ?_⟩
  rintro ⟨error, w, herror, -⟩
  rw [herror] at hrevoked
  simp at hrevoked

theorem reader_refused_demo :
    (∀ host request, request.name = "demo" →
      Refused (createStage demoRegistry (.ok (some betaReader)) host request)
        ⟨run demoRegistry (.empty 1) demoCalls, [], []⟩) ∧
    ∀ version request,
      Refused (revokeVersion demoRegistry (.ok (some betaReader)) "demo" version request)
        ⟨run demoRegistry (.empty 1) demoCalls, [], []⟩ := by
  refine reader_refused ?_ rfl [] []
  rintro before call after hsplit ⟨caller, principal, package, grant, hgrant, -⟩
  have hmem : call ∈ demoCalls := by simp [hsplit]
  simp only [demoCalls, List.mem_cons, List.not_mem_nil, or_false] at hmem
  rcases hmem with rfl | rfl <;> cases hgrant

end Oath.Registry
