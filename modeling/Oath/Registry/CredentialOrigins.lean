import Oath.Registry.Credentials

/-! Where credentials come from, whatever the order of the calls of all requests and whichever of
them are lost: every token that the operator has not set, every invitation and every member go back
to an administrator that the operator has set for the same organization. -/

namespace Oath.Registry
open Contracts Core Program

/-! ## Origins -/

/-- All requests, and what the services outside answer to each. -/
structure Site (Thread : Type) where
  registry : PostgresRegistry
  requests : Thread → CredentialRequest
  providers : Thread → Providers

namespace Site
variable {Thread : Type} (site : Site Thread) (outside : Set Outside)

def program (i : Thread) : Program Credentials (Except ApiError Value) :=
  ((site.requests i).serve site.registry (site.providers i)).run

def start : Threads.State Thread Credentials (Program Credentials (Except ApiError Value)) :=
  ⟨.empty, site.program⟩

/-- The identity provider says who has signed in. -/
def Verifies (i : Thread) (idToken : String) (claims : IdentityClaims) : Prop :=
  ∃ verifier, (site.providers i).verify = some verifier ∧ verifier idToken = .ok claims

/-- The hash of a token that has been made of the request's random bytes. -/
def IsHashOf (i : Thread) (hash : String) : Prop :=
  ∃ random, (site.providers i).getrandom = .ok random ∧
    hash = tokenHashOf site.registry (Base64.encodeUrlSafe random)

end Site

/-- The operator has set a token for an administrator of the organization. -/
def IsAdministered (outside : Set Outside) (organization : String) : Prop :=
  ∃ hash, Outside.bootstrap organization hash "admin" ∈ outside

/-- An invitation that a request has made. -/
structure Invited {Thread : Type} (site : Site Thread) (outside : Set Outside) (s : Credentials)
    (row : InvitationRow) (i : Thread) (authorization : Option (List UInt8))
    (request : InvitationRequest) (time : ℕ) : Prop where
  asks : site.requests i = .createInvitation authorization request
  hash : site.IsHashOf i row.tokenHash
  administered : IsAdministered outside row.organization
  email : row.email = request.email
  role : row.role = request.role ∧ isRole row.role
  ttl : request.ttlSecs ≤ 604800
  before : time ≤ s.clock
  expiresAt : row.expiresAt = asI64 (saturatingAdd time request.ttlSecs)

/-- An invitation that the subject has accepted with the email of its identity, before it expired.
-/
structure Accepted {Thread : Type} (site : Site Thread) (s : Credentials)
    (subject organization role : String) (i : Thread) (request : InvitationAcceptRequest)
    (claims : IdentityClaims) (email : String) (row : InvitationRow) : Prop where
  asks : site.requests i = .acceptInvitation request
  verified : site.Verifies i request.idToken claims
  subject : claims.sub = subject
  emailVerified : claims.emailVerified
  claimedEmail : claims.email = some email
  found : s.memberships.invitation (tokenHashOf site.registry request.invitationToken) = some row
  accepted : row.acceptedAt.isSome
  email : eqIgnoreAsciiCase row.email email
  organization : row.organization = organization
  role : row.role = role
  inTime : ∃ time ≤ s.clock, asI64 time < row.expiresAt

def IsInvited {Thread : Type} (site : Site Thread) (outside : Set Outside) (s : Credentials)
    (row : InvitationRow) : Prop :=
  ∃ i authorization request time, Invited site outside s row i authorization request time

def IsMember {Thread : Type} (site : Site Thread) (s : Credentials)
    (subject organization role : String) : Prop :=
  ∃ i request claims email row, Accepted site s subject organization role i request claims email row

/-- How a token came to be. -/
inductive Issued {Thread : Type} (site : Site Thread) (outside : Set Outside) (s : Credentials)
    (row : TokenRow) : Prop
  /-- The operator has set it. -/
  | bootstrap (kind : row.kind = "bootstrap") (expiresAt : row.expiresAt = none)
    (set : Outside.bootstrap row.organization row.tokenHash row.role ∈ outside)
  /-- An administrator has asked for it. -/
  | service {i : Thread} {authorization : Option (List UInt8)} {request : TokenRequest} {time : ℕ}
    (kind : row.kind = "service")
    (asks : site.requests i = .issueToken authorization request)
    (hash : site.IsHashOf i row.tokenHash) (administered : IsAdministered outside row.organization)
    (role : row.role = request.role ∧ isRole row.role) (ttl : request.ttlSecs ≤ 86400)
    (before : time ≤ s.clock)
    (expiresAt : row.expiresAt = some (asI64 (saturatingAdd time request.ttlSecs)))
  /-- A member has signed in. -/
  | identity {i : Thread} {idToken : String} {claims : IdentityClaims} {time : ℕ}
    (kind : row.kind = if claims.hasStepUpAuthentication then "oidc-mfa" else "oidc")
    (asks : site.requests i = .ssoExchange idToken ∨
      ∃ token, site.requests i = .acceptInvitation ⟨token, idToken⟩)
    (verified : site.Verifies i idToken claims) (hash : site.IsHashOf i row.tokenHash)
    (member : IsMember site s claims.sub row.organization row.role)
    (before : time ≤ s.clock)
    (expiresAt : row.expiresAt = some (asI64 (saturatingAdd time 3600)))

/-- Where everything in the tables comes from. -/
structure Lineage {Thread : Type} (site : Site Thread) (outside : Set Outside) (s : Credentials) :
    Prop where
  tokens (hash : String) (row : TokenRow) : s.tokens.find? hash = some row →
    Issued site outside s row
  invitations (hash : String) (row : InvitationRow) : s.memberships.invitation hash = some row →
    IsInvited site outside s row
  members (key : String × String) (row : MemberRow) : s.memberships.members.find? key = some row →
    IsMember site s row.subject row.organization row.role

/-! ## What goes on -/

/-- Tokens stay, unless the operator sets them anew. Invitations stay; what they say does not
change, and a used one does not change at all. Nobody stops being a member, and the audit log only
grows. -/
structure Later (s s' : Credentials) : Prop where
  clock : s.clock ≤ s'.clock
  tokens (hash : String) (row : TokenRow) : s.tokens.find? hash = some row →
    s'.tokens.find? hash = some row ∨
      ∃ row', s'.tokens.find? hash = some row' ∧ row'.kind = "bootstrap"
  invitations (hash : String) (row : InvitationRow) : s.memberships.invitation hash = some row →
    ∃ row', s'.memberships.invitation hash = some row' ∧
      row'.toInvitationRecord = row.toInvitationRecord ∧ (row.isPending = false → row' = row)
  members (key : String × String) : (s.memberships.members.find? key).isSome →
    (s'.memberships.members.find? key).isSome
  events : s.events <+: s'.events

instance : Std.Refl Later where
  refl _ :=
    { clock := le_rfl
      tokens := fun _ _ h => Or.inl h
      invitations := fun _ row h => ⟨row, h, rfl, fun _ => rfl⟩
      members := fun _ h => h
      events := List.prefix_rfl }

instance : IsTrans Credentials Later where
  trans s t u hst htu := by
    refine ⟨hst.clock.trans htu.clock, fun hash row h => ?_, fun hash row h => ?_,
      fun key h => htu.members key (hst.members key h), hst.events.trans htu.events⟩
    · rcases hst.tokens hash row h with hsame | ⟨row', hrow', hkind⟩
      · exact htu.tokens hash row hsame
      · rcases htu.tokens hash row' hrow' with hsame | hset
        · exact Or.inr ⟨row', hsame, hkind⟩
        · exact Or.inr hset
    · obtain ⟨row', hrow', hrecord, hused⟩ := hst.invitations hash row h
      obtain ⟨row'', hrow'', hrecord', hused'⟩ := htu.invitations hash row' hrow'
      refine ⟨row'', hrow'', hrecord'.trans hrecord, fun hdone => ?_⟩
      obtain rfl := hused hdone
      exact hused' hdone

theorem isPending_of_accepted {row : InvitationRow} (h : row.acceptedAt.isSome) :
    row.isPending = false := by
  rw [Bool.eq_false_iff, ne_eq, isPending_iff]
  intro hpending
  rw [hpending.1] at h
  cases h

section Later
variable {Thread : Type} {site : Site Thread} {outside : Set Outside} {s s' : Credentials}

theorem IsInvited.later {row : InvitationRow} (h : IsInvited site outside s row)
    (hlater : Later s s') : IsInvited site outside s' row := by
  obtain ⟨i, authorization, request, time, hrow⟩ := h
  exact ⟨i, authorization, request, time, { hrow with before := hrow.before.trans hlater.clock }⟩

theorem Accepted.later {i : Thread} {subject organization role email : String}
    {request : InvitationAcceptRequest} {claims : IdentityClaims} {row : InvitationRow}
    (h : Accepted site s subject organization role i request claims email row)
    (hlater : Later s s') :
    Accepted site s' subject organization role i request claims email row := by
  obtain ⟨row', hrow', -, hused⟩ := hlater.invitations _ row h.found
  obtain rfl := hused (isPending_of_accepted h.accepted)
  obtain ⟨time, htime, hexpires⟩ := h.inTime
  exact { h with found := hrow', inTime := ⟨time, htime.trans hlater.clock, hexpires⟩ }

theorem IsMember.later {subject organization role : String}
    (h : IsMember site s subject organization role) (hlater : Later s s') :
    IsMember site s' subject organization role := by
  obtain ⟨i, request, claims, email, row, haccepted⟩ := h
  exact ⟨i, request, claims, email, row, haccepted.later hlater⟩

theorem Issued.later {row : TokenRow} (h : Issued site outside s row) (hlater : Later s s') :
    Issued site outside s' row := by
  cases h with
  | bootstrap kind expiresAt set => exact .bootstrap kind expiresAt set
  | service kind asks hash administered role ttl before expiresAt =>
    exact .service kind asks hash administered role ttl (before.trans hlater.clock) expiresAt
  | identity kind asks verified hash member before expiresAt =>
    exact .identity kind asks verified hash (member.later hlater) (before.trans hlater.clock)
      expiresAt

theorem saturatingAdd_le {time clock ttlSecs bound : ℕ} (htime : time ≤ clock)
    (hbound : ttlSecs ≤ bound) : asI64 (saturatingAdd time ttlSecs) ≤ clock + bound := by
  have hle := asI64_le (saturatingAdd time ttlSecs)
  have hmin : saturatingAdd time ttlSecs ≤ time + ttlSecs := Nat.min_le_left _ _
  omega

/-- What the operator has not set expires within a day. -/
theorem Issued.expires {row : TokenRow} (h : Issued site outside s row)
    (hkind : row.kind ≠ "bootstrap") :
    ∃ expiresAt : ℤ, row.expiresAt = some expiresAt ∧ expiresAt ≤ s.clock + 86400 := by
  cases h with
  | bootstrap kind expiresAt set => exact absurd kind hkind
  | service kind asks hash administered role ttl before expiresAt =>
    exact ⟨_, expiresAt, saturatingAdd_le before ttl⟩
  | identity kind asks verified hash member before expiresAt =>
    exact ⟨_, expiresAt, saturatingAdd_le before (by decide)⟩

theorem Issued.never_expires {row : TokenRow} (h : Issued site outside s row)
    (hkind : row.kind = "bootstrap") : row.expiresAt = none := by
  cases h with
  | bootstrap kind expiresAt set => exact expiresAt
  | service kind =>
    rw [hkind] at kind
    exact absurd kind (by decide)
  | identity kind =>
    rw [hkind] at kind
    split_ifs at kind with hstepUp
    · exact absurd kind (by decide)
    · exact absurd kind (by decide)

/-- What is new has an origin. -/
theorem Lineage.later (h : Lineage site outside s) (hlater : Later s s')
    (htokens : ∀ hash row, s'.tokens.find? hash = some row →
      s.tokens.find? hash = some row ∨ Issued site outside s' row)
    (hinvitations : ∀ hash row, s'.memberships.invitation hash = some row →
      (∃ old, s.memberships.invitation hash = some old ∧
        row.toInvitationRecord = old.toInvitationRecord) ∨ IsInvited site outside s' row)
    (hmembers : ∀ key row, s'.memberships.members.find? key = some row →
      s.memberships.members.find? key = some row ∨
        IsMember site s' row.subject row.organization row.role) : Lineage site outside s' := by
  refine ⟨fun hash row hrow => ?_, fun hash row hrow => ?_, fun key row hrow => ?_⟩
  · rcases htokens hash row hrow with hold | hnew
    · exact (h.tokens hash row hold).later hlater
    · exact hnew
  · rcases hinvitations hash row hrow with ⟨old, hold, hrecord⟩ | hnew
    · obtain ⟨i, authorization, request, time, hinvited⟩ :=
        (h.invitations hash old hold).later hlater
      have hhash : row.tokenHash = old.tokenHash :=
        (Table.key_of_find? hrow).trans (Table.key_of_find? hold).symm
      exact ⟨i, authorization, request, time,
        { asks := hinvited.asks
          hash := hhash ▸ hinvited.hash
          administered := hrecord ▸ hinvited.administered
          email := hrecord ▸ hinvited.email
          role := hrecord ▸ hinvited.role
          ttl := hinvited.ttl
          before := hinvited.before
          expiresAt := hrecord ▸ hinvited.expiresAt }⟩
    · exact hnew
  · rcases hmembers key row hrow with hold | hnew
    · exact (h.members key row hold).later hlater
    · exact hnew

/-- Only the operator makes the first administrator of an organization. -/
theorem Lineage.administered (h : Lineage site outside s) {hash : String} {row : TokenRow}
    (hrow : s.tokens.find? hash = some row) (hadmin : row.role = "admin") :
    IsAdministered outside row.organization := by
  cases h.tokens hash row hrow with
  | bootstrap kind expiresAt set => exact ⟨row.tokenHash, hadmin ▸ set⟩
  | service kind asks hash administered => exact administered
  | identity kind asks verified hash member =>
    obtain ⟨i, request, claims, email, invitation, haccepted⟩ := member
    obtain ⟨j, authorization, created, time, hinvited⟩ := h.invitations _ _ haccepted.found
    exact haccepted.organization ▸ hinvited.administered

end Later

/-! ## The statements -/

theorem appendEventKeyed_ok {registry : PostgresRegistry} {eventKey : String} {event : Value}
    {createdAt : ℕ} {events events' : List RegistryEvent}
    (h : appendEventKeyed registry eventKey event createdAt events = .ok events') :
    events <+: events' ∧ hasKey events' eventKey = true := by
  unfold appendEventKeyed at h
  split_ifs at h with hkey
  · obtain rfl := Except.ok.inj h
    exact ⟨List.prefix_rfl, hkey⟩
  · obtain ⟨-, -, rfl⟩ := insertEvent_ok.mp h
    refine ⟨List.prefix_append _ _,
      hasKey_iff.mpr ⟨_, List.mem_append_right _ List.mem_cons_self, ?_⟩⟩
    rfl

theorem hasKey_of_prefix {events events' : List RegistryEvent} {eventKey : String}
    (h : hasKey events eventKey = true) (hgrows : events <+: events') :
    hasKey events' eventKey = true := by
  obtain ⟨row, hrow, hkey⟩ := hasKey_iff.mp h
  exact hasKey_iff.mpr ⟨row, hgrows.subset hrow, hkey⟩

section Statements
variable {Thread : Type} {site : Site Thread} {outside : Set Outside} {s s' : Credentials}

theorem later_tokens {tokens : Table TokenRow.tokenHash} {row : TokenRow}
    (hfind : ∀ hash, tokens.find? hash = if row.tokenHash = hash then some row
      else s.tokens.find? hash)
    (hnew : s.tokens.find? row.tokenHash = none ∨ row.kind = "bootstrap")
    (organizations : List String) : Later s { s with organizations, tokens } where
  clock := le_rfl
  tokens hash old hold := by
    rw [hfind hash]
    split_ifs with hsame
    · rcases hnew with hnone | hkind
      · rw [hsame, hold] at hnone
        cases hnone
      · exact Or.inr ⟨row, rfl, hkind⟩
    · exact Or.inl hold
  invitations hash old hold := ⟨old, hold, rfl, fun _ => rfl⟩
  members _ h := h
  events := List.prefix_rfl

theorem Lineage.withTokens (h : Lineage site outside s) {tokens : Table TokenRow.tokenHash}
    {row : TokenRow} {organizations : List String}
    (hfind : ∀ hash, tokens.find? hash = if row.tokenHash = hash then some row
      else s.tokens.find? hash)
    (hlater : Later s { s with organizations, tokens })
    (hissued : Issued site outside { s with organizations, tokens } row) :
    Lineage site outside { s with organizations, tokens } := by
  refine h.later hlater (fun hash found hfound => ?_) (fun hash found hfound => ?_)
    fun key found hfound => Or.inl hfound
  · have hfound' : tokens.find? hash = some found := hfound
    rw [hfind hash] at hfound'
    split_ifs at hfound' with hsame
    · obtain rfl := Option.some.inj hfound'
      exact Or.inr hissued
    · exact Or.inl hfound'
  · exact Or.inl ⟨found, hfound, rfl⟩

theorem Lineage.bootstrapToken (h : Lineage site outside s) {organization hash role : String}
    (hset : Outside.bootstrap organization hash role ∈ outside) :
    Later s (s.bootstrapToken organization hash role) ∧
      Lineage site outside (s.bootstrapToken organization hash role) := by
  have hlater := later_tokens (fun other => s.tokens.find?_upsert
    ⟨hash, organization, role, none, "bootstrap"⟩ other) (Or.inr rfl)
    (if organization ∈ s.organizations then s.organizations else s.organizations ++ [organization])
  exact ⟨hlater, h.withTokens (fun other => s.tokens.find?_upsert _ other) hlater
    (.bootstrap rfl rfl hset)⟩

theorem insertToken_ok {row : TokenRow} {u : Unit} (h : s.insertToken row = .ok (u, s')) :
    ∃ tokens, s.tokens.insert? row = some tokens ∧ s' = { s with tokens } := by
  unfold Credentials.insertToken at h
  obtain ⟨_, -, hrest⟩ := Except.bind_eq_ok.mp h
  obtain ⟨tokens, htokens, hs'⟩ := Except.bind_eq_ok.mp hrest
  exact ⟨tokens, unique_eq_ok.mp htokens, (Prod.mk.inj (Except.ok.inj hs')).2.symm⟩

theorem Lineage.insertToken (h : Lineage site outside s) {row : TokenRow} {u : Unit}
    (hinsert : s.insertToken row = .ok (u, s'))
    (hissued : ∀ t, Later s t → Issued site outside t row) :
    Later s s' ∧ Lineage site outside s' ∧ s'.tokens.find? row.tokenHash = some row := by
  obtain ⟨tokens, htokens, rfl⟩ := insertToken_ok hinsert
  have hfind := fun hash => Table.find?_insert? htokens hash
  have hlater : Later s { s with tokens } :=
    later_tokens hfind (Or.inl (Table.find?_of_insert? htokens)) s.organizations
  refine ⟨hlater, h.withTokens hfind hlater (hissued _ hlater), ?_⟩
  exact (hfind row.tokenHash).trans (if_pos rfl)

/-- Statements that change invitations and members only. -/
theorem later_memberships {memberships : Memberships}
    (hinvitations : ∀ hash row, s.memberships.invitation hash = some row →
      ∃ row', memberships.invitation hash = some row' ∧
        row'.toInvitationRecord = row.toInvitationRecord ∧ (row.isPending = false → row' = row))
    (hmembers : ∀ key, (s.memberships.members.find? key).isSome →
      (memberships.members.find? key).isSome) : Later s { s with memberships } where
  clock := le_rfl
  tokens _ _ h := Or.inl h
  invitations := hinvitations
  members := hmembers
  events := List.prefix_rfl

theorem Lineage.createInvitation (h : Lineage site outside s) {hash : String}
    {invitation : InvitationRecord} {u : Unit}
    (hcreate : s.createInvitation hash invitation = .ok (u, s'))
    (hinvited : ∀ t, Later s t → IsInvited site outside t ⟨invitation, hash, none, none⟩) :
    Later s s' ∧ Lineage site outside s' ∧
      s'.memberships.invitation hash = some ⟨invitation, hash, none, none⟩ := by
  unfold Credentials.createInvitation at hcreate
  obtain ⟨_, -, hrest⟩ := Except.bind_eq_ok.mp hcreate
  obtain ⟨invitations, hunique, hs'⟩ := Except.bind_eq_ok.mp hrest
  obtain rfl := (Prod.mk.inj (Except.ok.inj hs')).2
  have hinsert := unique_eq_ok.mp hunique
  have hfind := fun other => Table.find?_insert? hinsert other
  have hnone := Table.find?_of_insert? hinsert
  have hlater : Later s { s with memberships := { s.memberships with invitations } } := by
    refine later_memberships (fun other row hrow => ⟨row, ?_, rfl, fun _ => rfl⟩) fun _ h => h
    refine (hfind other).trans ?_
    rw [if_neg]
    · exact hrow
    · rintro rfl
      have hfound : s.memberships.invitations.find? hash = some row := hrow
      rw [hnone] at hfound
      cases hfound
  refine ⟨hlater, ?_, (hfind hash).trans (if_pos rfl)⟩
  refine h.later hlater (fun other row hrow => Or.inl hrow) (fun other row hrow => ?_)
    fun key row hrow => Or.inl hrow
  have hrow' : invitations.find? other = some row := hrow
  rw [hfind other] at hrow'
  split_ifs at hrow' with hsame
  · obtain rfl := Option.some.inj hrow'
    exact Or.inr (hinvited _ hlater)
  · exact Or.inl ⟨row, hrow', rfl⟩

/-- A pending invitation becomes a used one that says the same. -/
theorem invitations_marked {memberships : Memberships} {hash : String} {row : InvitationRow}
    {f : InvitationRow → InvitationRow}
    (hrecord : ∀ row, (f row).toInvitationRecord = row.toInvitationRecord)
    (hfind : ∀ other, memberships.invitation other =
      if other = hash then (s.memberships.invitation other).map f
      else s.memberships.invitation other)
    (hrow : s.memberships.invitation hash = some row) (hpending : row.isPending) :
    (∀ other old, s.memberships.invitation other = some old →
      ∃ row', memberships.invitation other = some row' ∧
        row'.toInvitationRecord = old.toInvitationRecord ∧ (old.isPending = false → row' = old)) ∧
    ∀ other row', memberships.invitation other = some row' →
      ∃ old, s.memberships.invitation other = some old ∧
        row'.toInvitationRecord = old.toInvitationRecord := by
  constructor
  · intro other old hold
    by_cases hsame : other = hash
    · refine ⟨f old, ?_, hrecord old, fun hdone => ?_⟩
      · rw [hfind other, if_pos hsame, hold]
        rfl
      · rw [hsame, hrow] at hold
        obtain rfl := Option.some.inj hold
        rw [hpending] at hdone
        cases hdone
    · refine ⟨old, ?_, rfl, fun _ => rfl⟩
      rw [hfind other, if_neg hsame]
      exact hold
  · intro other row' hrow'
    rw [hfind other] at hrow'
    split_ifs at hrow' with hsame
    · obtain ⟨old, hold, rfl⟩ := Option.map_eq_some_iff.mp hrow'
      exact ⟨old, hold, hrecord old⟩
    · exact ⟨row', hrow', rfl⟩

theorem Lineage.revokeInvitation (h : Lineage site outside s) {hash organization : String}
    {now : ℤ} {done : Bool} (hrevoke : s.revokeInvitation hash organization now = (done, s')) :
    Later s s' ∧ Lineage site outside s' ∧ (done = true → ∃ row,
      s'.memberships.invitation hash = some row ∧ row.revokedAt.isSome ∧
        row.organization = organization) := by
  unfold Credentials.revokeInvitation at hrevoke
  split_ifs at hrevoke with hfound
  · obtain ⟨rfl, rfl⟩ := Prod.mk.inj hrevoke
    obtain ⟨row, hsome⟩ := Option.isSome_iff_exists.mp hfound
    obtain ⟨hrow, hpending, horganization⟩ := pendingInvitation_eq_some.mp hsome
    have hfind := fun other => invitation_markRevoked s.memberships hash now other
    obtain ⟨hkept, hfrom⟩ := invitations_marked (f := Memberships.withRevokedAt now) (fun _ => rfl)
      hfind hrow hpending
    have hlater : Later s { s with memberships := s.memberships.markRevoked hash now } :=
      later_memberships hkept fun _ h => h
    refine ⟨hlater, ?_, fun _ => ⟨Memberships.withRevokedAt now row, ?_, rfl, ?_⟩⟩
    · exact h.later hlater (fun _ _ hrow => Or.inl hrow)
        (fun other row' hrow' => Or.inl (hfrom other row' hrow')) fun _ _ hrow => Or.inl hrow
    · refine (hfind hash).trans ?_
      rw [if_pos rfl, hrow]
      rfl
    · exact of_decide_eq_true horganization
  · obtain ⟨rfl, rfl⟩ := Prod.mk.inj hrevoke
    refine ⟨refl s, h, fun hdone => ?_⟩
    cases hdone

/-- Nothing is found, or the invitation is used by one who has its email. -/
theorem acceptInvitation_ok {hash subject email : String} {now createdAt acceptedAt : ℤ}
    {answer : Option InvitationRecord}
    (h : s.acceptInvitation hash subject email now createdAt acceptedAt = .ok (answer, s')) :
    (answer = none ∧ s' = s) ∨ ∃ row, s.memberships.invitation hash = some row ∧ row.isPending ∧
      now < row.expiresAt ∧ eqIgnoreAsciiCase row.email email ∧
      answer = some row.toInvitationRecord ∧
      s' = { s with memberships := (s.memberships.upsertMember
        ⟨row.organization, subject, email, row.role, createdAt⟩).markAccepted hash acceptedAt } := by
  unfold Credentials.acceptInvitation at h
  split at h
  · obtain ⟨rfl, rfl⟩ := Prod.mk.inj (Except.ok.inj h)
    exact Or.inl ⟨rfl, rfl⟩
  · rename_i row hsome
    obtain ⟨hrow, hpending, hexpires⟩ := pendingInvitation_eq_some.mp hsome
    dsimp only at h
    split_ifs at h with hemail
    · obtain ⟨_, -, hrest⟩ := Except.bind_eq_ok.mp h
      obtain ⟨rfl, rfl⟩ := Prod.mk.inj (Except.ok.inj hrest)
      refine Or.inr ⟨row, hrow, hpending, of_decide_eq_true hexpires, ?_, rfl, rfl⟩
      simpa using hemail

theorem find?_upsertMember (db : Memberships) (row : MemberRow) (key : String × String) :
    ((db.upsertMember row).members.find? key) = db.members.find? key ∧ row.key ≠ key ∨
      row.key = key ∧ ∃ createdAt, (db.upsertMember row).members.find? key =
        some { row with createdAt } := by
  unfold Memberships.upsertMember
  dsimp only
  rw [Table.find?_upsert]
  by_cases hkey : row.key = key
  · exact Or.inr ⟨hkey, _, if_pos hkey⟩
  · exact Or.inl ⟨if_neg hkey, hkey⟩

/-- The invitation is used, its subject is a member, and all of it has an origin. -/
theorem Lineage.acceptInvitation (h : Lineage site outside s) {i : Thread}
    {request : InvitationAcceptRequest} {claims : IdentityClaims} {email : String} {time : ℕ}
    {createdAt acceptedAt : ℤ} {invitation : InvitationRecord}
    (hasks : site.requests i = .acceptInvitation request)
    (hverified : site.Verifies i request.idToken claims) (hverifiedEmail : claims.emailVerified)
    (hemail : claims.email = some email) (htime : time ≤ s.clock)
    (haccept : s.acceptInvitation (tokenHashOf site.registry request.invitationToken) claims.sub
      email (asI64 time) createdAt acceptedAt = .ok (some invitation, s')) :
    Later s s' ∧ Lineage site outside s' ∧
      (s'.memberships.members.find? (invitation.organization, claims.sub)).isSome ∧
      ∃ row, Accepted site s' claims.sub invitation.organization invitation.role i request claims
        email row := by
  rcases acceptInvitation_ok haccept with ⟨hnone, -⟩ | ⟨row, hrow, hpending, hexpires, hsame, hsome,
    rfl⟩
  · cases hnone
  obtain rfl := Option.some.inj hsome
  set hash := tokenHashOf site.registry request.invitationToken
  set member : MemberRow := ⟨row.organization, claims.sub, email, row.role, createdAt⟩
  set memberships := (s.memberships.upsertMember member).markAccepted hash acceptedAt
  have hfind := fun other => invitation_markAccepted s.memberships member hash acceptedAt other
  obtain ⟨hkept, hfrom⟩ := invitations_marked (f := Memberships.withAcceptedAt acceptedAt)
    (fun _ => rfl) hfind hrow hpending
  have hlater : Later s { s with memberships } := by
    refine later_memberships hkept fun key hsome => ?_
    rcases find?_upsertMember s.memberships member key with ⟨hold, -⟩ | ⟨-, at', hnew⟩
    · exact (congrArg Option.isSome hold).trans hsome
    · exact congrArg Option.isSome hnew
  have hused : memberships.invitation hash = some (Memberships.withAcceptedAt acceptedAt row) := by
    refine (hfind hash).trans ?_
    rw [if_pos rfl, hrow]
    rfl
  have haccepted : Accepted site { s with memberships } claims.sub row.organization row.role i
      request claims email (Memberships.withAcceptedAt acceptedAt row) :=
    { asks := hasks
      verified := hverified
      subject := rfl
      emailVerified := hverifiedEmail
      claimedEmail := hemail
      found := hused
      accepted := rfl
      email := hsame
      organization := rfl
      role := rfl
      inTime := ⟨time, htime, hexpires⟩ }
  refine ⟨hlater, h.later hlater (fun _ _ hrow => Or.inl hrow)
    (fun other row' hrow' => Or.inl (hfrom other row' hrow')) fun key found hfound => ?_, ?_, _,
    haccepted⟩
  · have hfound' : (s.memberships.upsertMember member).members.find? key = some found := hfound
    rcases find?_upsertMember s.memberships member key with ⟨hold, -⟩ | ⟨-, at', hnew⟩
    · exact Or.inl (hold.symm.trans hfound')
    · obtain rfl := Option.some.inj (hnew.symm.trans hfound')
      exact Or.inr ⟨i, request, claims, email, _, haccepted⟩
  · rcases find?_upsertMember s.memberships member (row.organization, claims.sub) with
      ⟨-, hne⟩ | ⟨-, at', hnew⟩
    · exact absurd rfl hne
    · exact congrArg Option.isSome hnew

theorem Lineage.withEvents (h : Lineage site outside s) {events : List RegistryEvent}
    (hgrows : s.events <+: events) :
    Later s { s with events } ∧ Lineage site outside { s with events } := by
  have hlater : Later s { s with events } :=
    { clock := le_rfl
      tokens := fun _ _ h => Or.inl h
      invitations := fun _ row h => ⟨row, h, rfl, fun _ => rfl⟩
      members := fun _ h => h
      events := hgrows }
  exact ⟨hlater, h.later hlater (fun _ _ hrow => Or.inl hrow)
    (fun _ row hrow => Or.inl ⟨row, hrow, rfl⟩)
    fun _ _ hrow => Or.inl hrow⟩

/-- What happens besides the requests has its origin too. -/
theorem Lineage.happens (h : Lineage site outside s) {what : Outside} (hmem : what ∈ outside) :
    Later s (what.apply site.registry s) ∧ Lineage site outside (what.apply site.registry s) := by
  cases what with
  | bootstrap organization hash role => exact h.bootstrapToken hmem
  | deliver eventKey event createdAt =>
    unfold Outside.apply
    dsimp only
    split
    · rename_i events happend
      exact h.withEvents (appendEventKeyed_ok happend).1
    · exact ⟨refl s, h⟩
  | elapse seconds =>
    have hlater : Later s { s with clock := s.clock + seconds } :=
      { clock := Nat.le_add_right _ _
        tokens := fun _ _ h => Or.inl h
        invitations := fun _ row h => ⟨row, h, rfl, fun _ => rfl⟩
        members := fun _ h => h
        events := List.prefix_rfl }
    exact ⟨hlater, h.later hlater (fun _ _ hrow => Or.inl hrow)
      (fun _ row hrow => Or.inl ⟨row, hrow, rfl⟩) fun _ _ hrow => Or.inl hrow⟩

theorem lineage_empty : Lineage site outside .empty where
  tokens _ _ h := by cases h
  invitations _ _ h := by cases h
  members _ _ h := by cases h

end Statements

end Oath.Registry
