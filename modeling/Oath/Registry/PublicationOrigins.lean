import Oath.Registry.CredentialRuns
import Oath.Registry.Publication

/-! Who publishes: the requests of a registry whose callers have signed in with tokens of the same
registry. -/

namespace Oath.Registry
open Contracts Core Program Serving

def Request.caller : Request → Caller
  | .createStage caller _ _ | .decide caller _ _ _ | .revokeVersion caller _ _ _
  | .grantRole caller _ _ | .packageMetadata caller _ | .downloadVersion caller _ _ => caller

section Origins
variable {Thread : Type} [DecidableEq Thread] (site : Site Thread)

abbrev CredentialState (Thread : Type) :=
  Threads.State Thread Credentials (Program Credentials (Except ApiError Value))

/-- Some token has stood for the principal at some time of the run. -/
def SignedIn (events : List (Thread × Event Outside)) (principal : Principal) : Prop :=
  ∃ front back s hash now, events = front ++ back ∧
    (pool (Outside.apply site.registry)).run site.start front = some s ∧
    s.shared.authenticate hash now = some principal

/-- The approval of a version, and the token with which its administrator signed in. -/
structure PublicationOrigin (registry : PostgresRegistry) (outside : Set Outside) (s : Credentials)
    (calls : List Call) (row : VersionRow) (call : Call) (stage : StageRecord) (token : TokenRow) :
    Prop where
  called : call ∈ calls
  request : ∃ reason, call.request =
    .decide (.ok (some ⟨row.organization, "admin", token.kind⟩)) stage.id true reason
  published : PublishedFrom row stage
  issued : Issued site outside s token
  organization : token.organization = row.organization
  role : token.role = "admin"
  administered : IsAdministered outside row.organization
  stepUp : registry.requireStepUpApproval = true → ∃ i idToken claims,
    site.Verifies i idToken claims ∧ claims.hasStepUpAuthentication = true ∧
      IsMember site s claims.sub row.organization "admin"

variable {site}

/-- The token of a principal has its origin, also at the end of the run. -/
theorem SignedIn.token {events : List (Thread × Event Outside)} {principal : Principal}
    {s : CredentialState Thread} (h : SignedIn site events principal)
    (hrun : (pool (Outside.apply site.registry)).run site.start events = some s) :
    ∃ token, Issued site (outsideOf events) s.shared token ∧
      principal = ⟨token.organization, token.role, token.kind⟩ ∧
      (token.role = "admin" → IsAdministered (outsideOf events) token.organization) := by
  obtain ⟨front, back, middle, hash, now, rfl, hfront, hprincipal⟩ := h
  obtain ⟨other, hother, hback⟩ := Threads.run_append_eq_some.mp hrun
  obtain rfl := Option.some.inj (hfront.symm.trans hother)
  have hsubset : ∀ part : List (Thread × Event Outside), (∀ event ∈ part, event ∈ front ++ back) →
      outsideOf part ⊆ outsideOf (front ++ back) := by
    rintro part hpart what ⟨i, hmem⟩
    exact ⟨i, hpart _ hmem⟩
  have hserves := fun i => serves_program site (outsideOf (front ++ back)) .empty i
  obtain ⟨-, hlineage, hkept⟩ := run_later
    (hsubset front fun _ hmem => List.mem_append_left _ hmem) lineage_empty hserves hfront
  obtain ⟨hlater, -, -⟩ := run_later
    (hsubset back fun _ hmem => List.mem_append_right _ hmem) hlineage hkept hback
  obtain ⟨token, hfound, rfl⟩ := Option.map_eq_some_iff.mp hprincipal
  obtain ⟨htoken, -⟩ := Option.filter_eq_some_iff.mp hfound
  exact ⟨token, (hlineage.tokens _ token htoken).later hlater, rfl,
    hlineage.administered htoken⟩

omit [DecidableEq Thread] in
/-- Only the token of a member who has shown step-up authentication is of this kind. -/
theorem Issued.stepUp {outside : Set Outside} {s : Credentials} {token : TokenRow}
    (h : Issued site outside s token) (hkind : token.kind = "oidc-mfa") :
    ∃ i idToken claims, site.Verifies i idToken claims ∧
      claims.hasStepUpAuthentication = true ∧
      IsMember site s claims.sub token.organization token.role := by
  cases h with
  | bootstrap kind =>
    rw [hkind] at kind
    exact absurd kind (by decide)
  | service kind =>
    rw [hkind] at kind
    exact absurd kind (by decide)
  | @identity i idToken claims time kind asks verified hash member =>
    rw [hkind] at kind
    split_ifs at kind with hstepUp
    · exact ⟨i, idToken, claims, verified, hstepUp, member⟩
    · exact absurd kind (by decide)

end Origins

/-! ## From the first token to a version -/

def invitationToken : String := Base64.encodeUrlSafe (List.replicate 32 7)

def memberClaims : IdentityClaims where
  sub := "subject-1"
  email := some "Admin@acme.example"
  emailVerified := true
  amr := ["pwd", "MFA"]
  acr := none

/-- The first administrator invites another one, who accepts. -/
def memberSite : Site Bool where
  registry := demoRegistry
  requests
    | false => .createInvitation (some (asBytes "Bearer first-token"))
        ⟨"admin@acme.example", "admin", 86400⟩
    | true => .acceptInvitation ⟨invitationToken, "id-token"⟩
  providers
    | false =>
      { getrandom := .ok (List.replicate 32 7)
        verify := none
        sendInvitation := some fun _ _ _ => .ok ()
        invitationAcceptUrl := some "https://registry.example/accept" }
    | true =>
      { getrandom := .ok (List.replicate 32 9)
        verify := some fun _ => .ok memberClaims
        sendInvitation := none
        invitationAcceptUrl := none }

/-- Up to the member's token. -/
def memberEvents : List (Bool × Event Outside) :=
  [(false, .happens (.bootstrap "acme" (tokenHashOf demoRegistry "first-token") "admin")),
    (false, .happens (.elapse demoTime))] ++
  List.replicate 6 (false, .call .none) ++ List.replicate 6 (true, .call .none)

theorem memberEvents_run : ∃ s,
    (pool (Outside.apply demoRegistry)).run memberSite.start memberEvents = some s ∧
      s.shared.authenticate (tokenHashOf demoRegistry (Base64.encodeUrlSafe (List.replicate 32 9)))
        demoTime = some demoAdmin := by
  have hrun : ((pool (Outside.apply demoRegistry)).run memberSite.start memberEvents).any
      (fun s => s.shared.authenticate
        (tokenHashOf demoRegistry (Base64.encodeUrlSafe (List.replicate 32 9))) demoTime =
          some demoAdmin) = true := by decide +kernel
  obtain ⟨s, hs, hprincipal⟩ := (Option.any_eq_true _ _).mp hrun
  exact ⟨s, hs, of_decide_eq_true hprincipal⟩

end Oath.Registry
