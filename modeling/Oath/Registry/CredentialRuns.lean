import Oath.Registry.CredentialOrigins

/-! What the requests that make credentials leave behind and answer, in every order of their calls.
-/

namespace Oath.Registry
open Contracts Core Program Serving

/-! ## The requests -/

/-- The token stands for the role in the organization, unless the operator has set it anew. -/
def Holds {Thread : Type} (site : Site Thread) (s : Credentials)
    (token organization role kind : String) : Prop :=
  ∃ row, s.tokens.find? (tokenHashOf site.registry token) = some row ∧
    (row.kind = "bootstrap" ∨ row.organization = organization ∧ row.role = role ∧ row.kind = kind)

def Audited {Thread : Type} (site : Site Thread) (s : Credentials) (event : Value) : Prop :=
  hasKey s.events (directKey site.registry.assess.sha event) = true

def identityKind (claims : IdentityClaims) : String :=
  if claims.hasStepUpAuthentication then "oidc-mfa" else "oidc"

/-- What a request that is answered has done. -/
inductive Answered {Thread : Type} (site : Site Thread) (outside : Set Outside) (i : Thread)
    (s : Credentials) : CredentialRequest → Value → Prop
  | issued {authorization : Option (List UInt8)} {request : TokenRequest}
    {organization token : String} {expiresAt : ℕ}
    (administered : IsAdministered outside organization)
    (holds : Holds site s token organization request.role "service")
    (audited : Audited site s (tokenIssued organization request.role expiresAt)) :
    Answered site outside i s (.issueToken authorization request)
      (tokenReply token request.role request.ttlSecs)
  | invited {authorization : Option (List UInt8)} {request : InvitationRequest}
    {organization tokenHash : String} {expiresAt : ℕ} {row : InvitationRow}
    (administered : IsAdministered outside organization)
    (found : s.memberships.invitation tokenHash = some row)
    (record : row.toInvitationRecord =
      ⟨organization, request.email, request.role, asI64 expiresAt⟩)
    (audited : Audited site s
      (invitationCreated site.registry organization request.email request.role expiresAt)) :
    Answered site outside i s (.createInvitation authorization request)
      (invitationReply tokenHash expiresAt)
  | revoked {authorization : Option (List UInt8)} {tokenId : String} {row : InvitationRow}
    (administered : IsAdministered outside row.organization)
    (found : s.memberships.invitation tokenId = some row) (revoked : row.revokedAt.isSome)
    (audited : Audited site s (invitationRevoked row.organization tokenId)) :
    Answered site outside i s (.revokeInvitation authorization tokenId) (revocationReply tokenId)
  | accepted {request : InvitationAcceptRequest} {claims : IdentityClaims}
    {organization role email token : String} {row : InvitationRow}
    (accepted : Accepted site s claims.sub organization role i request claims email row)
    (member : (s.memberships.members.find? (organization, claims.sub)).isSome)
    (holds : Holds site s token organization role (identityKind claims))
    (audited : Audited site s
      (invitationAccepted site.registry organization claims.sub email role)) :
    Answered site outside i s (.acceptInvitation request) (identityReply token organization role)
  | exchanged {idToken : String} {claims : IdentityClaims} {organization role token : String}
    (verified : site.Verifies i idToken claims)
    (member : IsMember site s claims.sub organization role)
    (holds : Holds site s token organization role (identityKind claims)) :
    Answered site outside i s (.ssoExchange idToken) (identityReply token organization role)

section Requests
variable {Thread : Type} {site : Site Thread} {outside : Set Outside} {s s' : Credentials}
  {i : Thread}

theorem Holds.later {token organization role kind : String}
    (h : Holds site s token organization role kind) (hlater : Later s s') :
    Holds site s' token organization role kind := by
  obtain ⟨row, hrow, hkind⟩ := h
  rcases hlater.tokens _ row hrow with hsame | ⟨row', hrow', hset⟩
  · exact ⟨row, hsame, hkind⟩
  · exact ⟨row', hrow', Or.inl hset⟩

theorem Audited.later {event : Value} (h : Audited site s event) (hlater : Later s s') :
    Audited site s' event := hasKey_of_prefix h hlater.events

theorem isPending_of_revoked {row : InvitationRow} (h : row.revokedAt.isSome) :
    row.isPending = false := by
  rw [Bool.eq_false_iff, ne_eq, isPending_iff]
  intro hpending
  rw [hpending.2] at h
  cases h

theorem stable_answered (request : CredentialRequest) :
    Stable Later fun s reply => Answered site outside i s request reply := by
  intro s s' reply hlater h
  cases h with
  | issued administered holds audited =>
    exact .issued administered (holds.later hlater) (audited.later hlater)
  | invited administered found record audited =>
    obtain ⟨row', hrow', hrecord, -⟩ := hlater.invitations _ _ found
    exact .invited administered hrow' (hrecord.trans record) (audited.later hlater)
  | revoked administered found revoked audited =>
    obtain ⟨row', hrow', -, hused⟩ := hlater.invitations _ _ found
    obtain rfl := hused (isPending_of_revoked revoked)
    exact .revoked administered hrow' revoked (audited.later hlater)
  | accepted accepted member holds audited =>
    exact .accepted (accepted.later hlater) (hlater.members _ member) (holds.later hlater)
      (audited.later hlater)
  | exchanged verified member holds =>
    exact .exchanged verified (member.later hlater) (holds.later hlater)

theorem serves_now :
    Serves Later (Lineage site outside) (fun s' time => time ≤ s'.clock) s Serving.now := by
  refine serves_execute fun s₁ _ hlineage a s' hf => ?_
  obtain ⟨rfl, rfl⟩ := Prod.mk.inj (Except.ok.inj hf)
  exact ⟨refl s₁, hlineage, le_rfl⟩

theorem serves_appendEvent {event : Value} : Serves Later (Lineage site outside)
    (fun s' _ => Audited site s' event) s (Serving.appendEvent site.registry event) := by
  refine serves_bind serves_now fun _ createdAt _ _ => ?_
  refine serves_execute fun s₁ _ hlineage _ s' happend => ?_
  unfold Credentials.appendEvent at happend
  obtain ⟨events, hevents, hs'⟩ := Except.bind_eq_ok.mp happend
  obtain rfl := (Prod.mk.inj (Except.ok.inj hs')).2
  obtain ⟨hgrows, haudited⟩ := appendEventKeyed_ok hevents
  obtain ⟨hlater, hkept⟩ := hlineage.withEvents hgrows
  exact ⟨hlater, hkept, haudited⟩

/-- An administrator who signs in has an organization that the operator has given one. -/
theorem serves_authenticate {authorization : Option (List UInt8)} :
    Serves Later (Lineage site outside)
    (fun _ principal => principal.role = "admin" → IsAdministered outside principal.organization) s
    (Serving.authenticate site.registry authorization) := by
  have hbearer : Serves Later (Lineage site outside) (fun _ _ => True) s
      (Serving.bearer authorization) := by
    unfold Serving.bearer
    cases bearerOptional authorization with
    | error error => trivial
    | ok token =>
      cases token with
      | none => trivial
      | some token => trivial
  refine serves_bind hbearer fun _ token _ _ => serves_bind serves_now fun _ time _ _ => ?_
  refine serves_bind serves_query fun s₁ found _ hquery => ?_
  obtain ⟨hlineage, hfound⟩ := hquery
  cases found with
  | none => trivial
  | some principal =>
    intro hadmin
    obtain ⟨row, hsome, rfl⟩ := Option.map_eq_some_iff.mp hfound
    exact hlineage.administered (Option.filter_eq_some_iff.mp hsome).1 hadmin

theorem serves_insertToken {organization role kind : String} {ttlSecs : ℕ}
    (hissued : ∀ t hash time, Later s t → site.IsHashOf i hash → time ≤ t.clock →
      Issued site outside t
        ⟨hash, organization, role, some (asI64 (saturatingAdd time ttlSecs)), kind⟩) :
    Serves Later (Lineage site outside)
      (fun s' token => Holds site s' token organization role kind) s
      (Serving.insertToken site.registry (site.providers i) organization role kind ttlSecs) := by
  refine serves_bind serves_ofResult fun s₁ random h₁ hrandom => ?_
  refine serves_bind serves_now fun s₂ time h₂ htime => ?_
  refine serves_bind (P := fun s' _ => Holds site s' (Base64.encodeUrlSafe random) organization role
    kind) ?_ fun _ _ _ hholds => hholds
  refine serves_execute fun s₃ h₃ hlineage _ s' hinsert => ?_
  obtain ⟨hlater, hkept, hrow⟩ := hlineage.insertToken hinsert fun t ht => by
    have hst : Later s t :=
      IsTrans.trans _ _ _ h₁ (IsTrans.trans _ _ _ h₂ (IsTrans.trans _ _ _ h₃ ht))
    exact hissued t _ time hst ⟨random, hrandom, rfl⟩ (htime.trans (h₃.clock.trans ht.clock))
  exact ⟨hlater, hkept, _, hrow, Or.inr ⟨rfl, rfl, rfl⟩⟩

section Handlers
variable {authorization : Option (List UInt8)}

theorem serves_issueIdentityToken {idToken organization role : String} {claims : IdentityClaims}
    (hasks : site.requests i = .ssoExchange idToken ∨
      ∃ token, site.requests i = .acceptInvitation ⟨token, idToken⟩)
    (hverified : site.Verifies i idToken claims)
    (hmember : IsMember site s claims.sub organization role) :
    Serves Later (Lineage site outside)
      (fun s' token => Holds site s' token organization role (identityKind claims))
      s (Serving.issueIdentityToken site.registry (site.providers i) organization role
        claims.hasStepUpAuthentication) :=
  serves_insertToken fun _ _ _ hlater hhash htime =>
    .identity rfl hasks hverified hhash (hmember.later hlater) htime rfl

theorem serves_issueToken {request : TokenRequest}
    (hasks : site.requests i = .issueToken authorization request) :
    Serves Later (Lineage site outside)
      (fun s' => Answered site outside i s' (.issueToken authorization request)) s
      (Serving.issueToken site.registry (site.providers i) authorization request) := by
  refine serves_bind serves_authenticate fun _ principal _ hauthority => ?_
  refine serves_bind serves_reject fun _ _ _ hadmin => ?_
  refine serves_bind serves_reject fun _ _ _ hrole => ?_
  refine serves_bind serves_reject fun _ _ _ httl => ?_
  have hadministered : IsAdministered outside principal.organization :=
    hauthority (by simpa using hadmin)
  have hbound : request.ttlSecs ≤ 86400 := by
    rw [Bool.not_eq_false', Bool.and_eq_true, decide_eq_true_eq, decide_eq_true_eq] at httl
    exact httl.2
  have hvalid : isRole request.role = true := by simpa using hrole
  refine serves_bind (serves_insertToken fun _ _ _ _ hhash htime =>
    .service rfl hasks hhash hadministered ⟨rfl, hvalid⟩ hbound htime rfl)
    fun _ token _ hholds => ?_
  refine serves_bind serves_now fun _ time h₁ _ => ?_
  refine serves_bind serves_appendEvent fun _ _ h₂ haudited => ?_
  exact .issued hadministered ((hholds.later h₁).later h₂) haudited

theorem serves_revokeAt {hash organization : String} : Serves Later (Lineage site outside)
    (fun s' done => done = true → ∃ row, s'.memberships.invitation hash = some row ∧
      row.revokedAt.isSome ∧ row.organization = organization) s
    (Serving.revokeAt hash organization) := by
  refine serves_bind serves_now fun _ time _ _ => ?_
  refine serves_execute fun s₁ _ hlineage done s' hrevoke => ?_
  exact hlineage.revokeInvitation (Except.ok.inj hrevoke)

theorem serves_mailInvitation {send : String → String → String → Except String Unit}
    {hash organization email url : String} : Serves Later (Lineage site outside) (fun _ _ => True) s
    (Serving.mailInvitation send hash organization email url) := by
  unfold Serving.mailInvitation
  cases send email organization url with
  | ok sent => trivial
  | error message => exact serves_bind serves_revokeAt fun _ _ _ _ => trivial

theorem serves_createInvitation {request : InvitationRequest}
    (hasks : site.requests i = .createInvitation authorization request) :
    Serves Later (Lineage site outside)
      (fun s' => Answered site outside i s' (.createInvitation authorization request)) s
      (Serving.createInvitation site.registry (site.providers i) authorization request) := by
  refine serves_bind serves_authenticate fun _ principal _ hauthority => ?_
  refine serves_bind serves_reject fun _ _ _ hadmin => ?_
  refine serves_bind serves_reject fun _ _ _ hrole => ?_
  refine serves_bind serves_reject fun _ _ _ httl => ?_
  refine serves_bind serves_found fun _ send _ _ => serves_bind serves_found fun _ url _ _ => ?_
  refine serves_bind serves_ofResult fun _ random _ hrandom => ?_
  refine serves_bind serves_now fun _ time _ htime => ?_
  have hadministered : IsAdministered outside principal.organization :=
    hauthority (by simpa using hadmin)
  have hbound : request.ttlSecs ≤ 604800 := by
    rw [Bool.not_eq_false', Bool.and_eq_true, decide_eq_true_eq, decide_eq_true_eq] at httl
    exact httl.2
  have hvalid : isRole request.role = true := by simpa using hrole
  set hash := tokenHashOf site.registry (Base64.encodeUrlSafe random)
  set invitation : InvitationRecord := ⟨principal.organization, request.email, request.role,
    asI64 (saturatingAdd time request.ttlSecs)⟩
  refine serves_bind (P := fun s' _ => ∃ row, s'.memberships.invitation hash = some row ∧
    row.toInvitationRecord = invitation) (serves_execute fun s₁ h₁ hlineage _ s' hcreate => ?_)
    fun s₁ _ _ hrow => ?_
  · obtain ⟨hlater, hkept, hrow⟩ := hlineage.createInvitation hcreate fun t ht =>
      ⟨i, authorization, request, time,
        { asks := hasks
          hash := ⟨random, hrandom, rfl⟩
          administered := hadministered
          email := rfl
          role := ⟨rfl, hvalid⟩
          ttl := hbound
          before := htime.trans (h₁.clock.trans ht.clock)
          expiresAt := rfl }⟩
    exact ⟨hlater, hkept, _, hrow, rfl⟩
  · refine serves_bind serves_mailInvitation fun s₂ _ h₂ _ => ?_
    refine serves_bind serves_appendEvent fun s₃ _ h₃ haudited => ?_
    obtain ⟨row, hfound, hrecord⟩ := hrow
    obtain ⟨row', hfound', hrecord', -⟩ :=
      Later.invitations (IsTrans.trans _ _ _ h₂ h₃) _ row hfound
    exact .invited hadministered hfound' (hrecord'.trans hrecord) haudited

theorem serves_revokeInvitation {tokenId : String} : Serves Later (Lineage site outside)
    (fun s' => Answered site outside i s' (.revokeInvitation authorization tokenId)) s
    (Serving.revokeInvitation site.registry authorization tokenId) := by
  refine serves_bind serves_authenticate fun _ principal _ hauthority => ?_
  refine serves_bind serves_reject fun _ _ _ hadmin => ?_
  refine serves_bind serves_revokeAt fun s₁ done _ hrevoked => ?_
  refine serves_bind serves_reject fun s₂ _ h₂ hdone => ?_
  refine serves_bind serves_appendEvent fun s₃ _ h₃ haudited => ?_
  have hadministered : IsAdministered outside principal.organization :=
    hauthority (by simpa using hadmin)
  obtain ⟨row, hfound, hat, horganization⟩ := hrevoked (by simpa using hdone)
  rw [← horganization] at hadministered haudited
  obtain ⟨row', hfound', -, hused⟩ := Later.invitations (IsTrans.trans _ _ _ h₂ h₃) _ row hfound
  obtain rfl := hused (isPending_of_revoked hat)
  exact .revoked hadministered hfound' hat haudited

theorem serves_verify {idToken : String} : Serves Later (Lineage site outside)
    (fun _ claims => site.Verifies i idToken claims) s
    (Serving.verify (site.providers i) idToken) := by
  refine serves_bind serves_found fun _ verifier _ hverifier => ?_
  unfold Serving.ofResult
  cases hresult : verifier idToken with
  | error message => trivial
  | ok claims => exact ⟨verifier, hverifier, hresult⟩

theorem serves_acceptInvitation {request : InvitationAcceptRequest}
    (hasks : site.requests i = .acceptInvitation request) :
    Serves Later (Lineage site outside)
      (fun s' => Answered site outside i s' (.acceptInvitation request)) s
      (Serving.acceptInvitation site.registry (site.providers i) request) := by
  refine serves_bind serves_verify fun _ claims _ hverified => ?_
  refine serves_bind serves_reject fun _ _ _ hemailVerified => ?_
  refine serves_bind serves_found fun _ email _ hemail => ?_
  refine serves_bind serves_now fun s₁ time _ htime => ?_
  refine serves_bind serves_now fun s₂ createdAt h₂ _ => ?_
  refine serves_bind serves_now fun s₃ acceptedAt h₃ _ => ?_
  refine serves_bind (P := fun s' answer => ∀ invitation, answer = some invitation →
    (s'.memberships.members.find? (invitation.organization, claims.sub)).isSome ∧
    ∃ row, Accepted site s' claims.sub invitation.organization invitation.role i request claims
      email row) (serves_execute fun s₄ h₄ hlineage answer s' haccept => ?_)
    fun s₄ answer _ haccepted => ?_
  · cases answer with
    | none =>
      rcases acceptInvitation_ok haccept with ⟨-, rfl⟩ | ⟨row, -, -, -, -, hsome, -⟩
      · exact ⟨refl _, hlineage, fun _ hsome => by cases hsome⟩
      · cases hsome
    | some invitation =>
      have hread : time ≤ s₄.clock :=
        htime.trans (h₂.clock.trans (h₃.clock.trans h₄.clock))
      obtain ⟨hlater, hkept, hmember, hrow⟩ := hlineage.acceptInvitation hasks hverified
        (by simpa using hemailVerified) hemail hread haccept
      refine ⟨hlater, hkept, fun other hsome => ?_⟩
      obtain rfl := Option.some.inj hsome
      exact ⟨hmember, hrow⟩
  · refine serves_bind serves_found fun s₅ invitation h₅ hsome => ?_
    obtain ⟨hmember, row, hrow⟩ := haccepted invitation hsome
    have hrow' := hrow.later h₅
    refine serves_bind (serves_issueIdentityToken (Or.inr ⟨request.invitationToken, hasks⟩)
      hverified ⟨i, request, claims, email, row, hrow'⟩) fun s₆ token h₆ hholds => ?_
    refine serves_bind serves_appendEvent fun s₇ _ h₇ haudited => ?_
    have h₆₇ : Later s₅ s₇ := IsTrans.trans _ _ _ h₆ h₇
    exact .accepted (hrow'.later h₆₇) (h₆₇.members _ (h₅.members _ hmember)) (hholds.later h₇)
      haudited

theorem serves_ssoExchange {idToken : String} (hasks : site.requests i = .ssoExchange idToken) :
    Serves Later (Lineage site outside)
      (fun s' => Answered site outside i s' (.ssoExchange idToken)) s
      (Serving.ssoExchange site.registry (site.providers i) idToken) := by
  refine serves_bind serves_verify fun _ claims _ hverified => ?_
  refine serves_bind serves_query fun s₁ answer _ hquery => ?_
  refine serves_bind serves_found fun s₂ member h₂ hsome => ?_
  obtain ⟨organization, role⟩ := member
  have hmember : IsMember site s₂ claims.sub organization role := by
    obtain ⟨hlineage, rfl⟩ := hquery
    obtain ⟨row, hrow, hpair⟩ := Option.map_eq_some_iff.mp hsome
    obtain ⟨rfl, rfl⟩ := Prod.mk.inj hpair
    have hmem : row ∈ s₁.memberships.members.rows :=
      List.mem_mergeSort.mp (List.mem_of_find?_eq_some hrow)
    have hsubject : row.subject = claims.sub := by simpa using List.find?_some hrow
    rw [← hsubject]
    exact (hlineage.members _ row (Table.find?_key hmem)).later h₂
  refine serves_bind (serves_issueIdentityToken (Or.inl hasks) hverified hmember)
    fun s₃ token h₃ hholds => ?_
  exact .exchanged hverified (hmember.later h₃) hholds

end Handlers

end Requests

/-! ## Runs -/

section Runs
variable {Thread : Type}

/-- What happens besides the requests in a run. -/
def outsideOf (events : List (Thread × Event Outside)) : Set Outside :=
  {what | ∃ i, (i, .happens what) ∈ events}

theorem serves_program (site : Site Thread) (outside : Set Outside) (s : Credentials) (i : Thread) :
    Serves Later (Lineage site outside) (fun s' => Answered site outside i s' (site.requests i)) s
      (site.program i) := by
  unfold Site.program CredentialRequest.serve
  split
  · rename_i authorization request hasks
    rw [hasks]
    exact serves_issueToken hasks
  · rename_i authorization request hasks
    rw [hasks]
    exact serves_createInvitation hasks
  · rename_i authorization tokenId hasks
    rw [hasks]
    exact serves_revokeInvitation
  · rename_i request hasks
    rw [hasks]
    exact serves_acceptInvitation hasks
  · rename_i idToken hasks
    rw [hasks]
    exact serves_ssoExchange hasks

theorem run_later {site : Site Thread} [DecidableEq Thread]
    {s s' : Threads.State Thread Credentials (Program Credentials (Except ApiError Value))}
    {events : List (Thread × Event Outside)} {outside : Set Outside}
    (houtside : outsideOf events ⊆ outside) (hlineage : Lineage site outside s.shared)
    (hserves : ∀ i, Serves Later (Lineage site outside)
      (fun t => Answered site outside i t (site.requests i))
      s.shared (s.locals i))
    (hrun : (pool (Outside.apply site.registry)).run s events = some s') :
    Later s.shared s'.shared ∧ Lineage site outside s'.shared ∧
      ∀ i, Serves Later (Lineage site outside)
        (fun t => Answered site outside i t (site.requests i))
        s'.shared (s'.locals i) := by
  refine run_sound (fun i => stable_answers (stable_answered (site.requests i))) ?_ hlineage
    hserves hrun
  exact fun i what hmem t ht => ht.happens (houtside ⟨i, hmem⟩)

end Runs

/-! ## An administrator who asks for a token -/

def tokenSite : Site Unit where
  registry := demoRegistry
  requests _ := .issueToken (some (asBytes "Bearer first-token")) ⟨"publisher", 3600⟩
  providers _ :=
    { getrandom := .ok (List.replicate 32 7)
      verify := none
      sendInvitation := none
      invitationAcceptUrl := none }

/-- The operator sets the token of the administrator, and the request is served to its end. -/
def tokenEvents : List (Unit × Event Outside) :=
  ((), .happens (.bootstrap "acme" (tokenHashOf demoRegistry "first-token") "admin")) ::
    ((), .happens (.elapse demoTime)) :: List.replicate 7 ((), .call .none)

def isAnswered : Program Credentials (Except ApiError Value) → Bool
  | .done (.ok _) => true
  | _ => false

def publisherHash : String :=
  tokenHashOf demoRegistry (Base64.encodeUrlSafe (List.replicate 32 7))

theorem tokenEvents_run : ∃ s,
    (pool (Outside.apply demoRegistry)).run tokenSite.start tokenEvents = some s ∧
      isAnswered (s.locals ()) = true ∧
      (s.shared.tokens.find? publisherHash).any (fun row => row.kind = "service") = true ∧
      s.shared.clock = demoTime := by
  have hrun : ((pool (Outside.apply demoRegistry)).run tokenSite.start tokenEvents).any
      (fun s => isAnswered (s.locals ()) &&
        ((s.shared.tokens.find? publisherHash).any (fun row => row.kind = "service") &&
          s.shared.clock = demoTime)) = true := by decide +kernel
  obtain ⟨s, hs, hall⟩ := (Option.any_eq_true _ _).mp hrun
  rw [Bool.and_eq_true, Bool.and_eq_true, decide_eq_true_eq] at hall
  exact ⟨s, hs, hall⟩

end Oath.Registry
