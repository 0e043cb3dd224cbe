import Oath.Fetch.Npmrc
import Oath.Registry.AuditLog
import Oath.Registry.Invitations
import Oath.Registry.Serving

/-! Bearer tokens, invitations and members of organizations: the requests that make them, each a
program of calls to the database, and the tokens that the operator sets. -/

namespace Oath.Registry
open Contracts Core

/-! ## Tables and statements -/

structure TokenRow where
  tokenHash : String
  organization : String
  role : String
  expiresAt : Option ℤ
  kind : String
deriving DecidableEq, Repr

structure Credentials where
  organizations : List String
  tokens : Table TokenRow.tokenHash
  memberships : Memberships
  events : List RegistryEvent
  clock : ℕ

def saturatingAdd (a b : ℕ) : ℕ := min (a + b) u64Max

def foreignKey (table : String) : String :=
  "error returned from database: insert or update on table \"" ++ table ++
    "\" violates foreign key constraint \"" ++ table ++ "_organization_fkey\""

namespace Credentials

def empty : Credentials where
  organizations := []
  tokens := .empty
  memberships := ⟨.empty, .empty⟩
  events := []
  clock := 0

/-- `REFERENCES organizations(name)`. -/
def references (db : Credentials) (table organization : String) : Except String Unit :=
  if organization ∈ db.organizations then .ok () else .error (foreignKey table)

def bootstrapToken (db : Credentials) (organization tokenHash role : String) : Credentials :=
  { db with
    organizations :=
      if organization ∈ db.organizations then db.organizations
      else db.organizations ++ [organization]
    tokens := db.tokens.upsert {
      tokenHash, organization, role, expiresAt := none, kind := "bootstrap" } }

def insertToken (db : Credentials) (row : TokenRow) : Except String (Unit × Credentials) := do
  db.references "tokens" row.organization
  let tokens ← unique "tokens_pkey" (db.tokens.insert? row)
  .ok ((), { db with tokens })

def authenticate (db : Credentials) (tokenHash : String) (now : ℤ) : Option Principal :=
  ((db.tokens.find? tokenHash).filter fun row => row.expiresAt.all (now < ·)).map fun row =>
    ⟨row.organization, row.role, row.kind⟩

def createInvitation (db : Credentials) (tokenHash : String) (invitation : InvitationRecord) :
    Except String (Unit × Credentials) := do
  db.references "invitations" invitation.organization
  let row : InvitationRow := { invitation with tokenHash, acceptedAt := none, revokedAt := none }
  let invitations ← unique "invitations_pkey" (db.memberships.invitations.insert? row)
  .ok ((), { db with memberships := { db.memberships with invitations } })

def revokeInvitation (db : Credentials) (tokenHash organization : String) (now : ℤ) :
    Bool × Credentials :=
  if (db.memberships.pendingInvitation tokenHash fun row =>
      row.organization = organization).isSome then
    (true, { db with memberships := db.memberships.markRevoked tokenHash now })
  else (false, db)

/-- The transaction as a whole: it holds the lock of the invitation from its first statement on. -/
def acceptInvitation (db : Credentials) (tokenHash subject email : String)
    (now createdAt acceptedAt : ℤ) : Except String (Option InvitationRecord × Credentials) :=
  match db.memberships.pendingInvitation tokenHash fun row => now < row.expiresAt with
  | none => .ok (none, db)
  | some row =>
    let invitation := row.toInvitationRecord
    if !eqIgnoreAsciiCase invitation.email email then
      .error "invitation email does not match verified identity"
    else do
      db.references "organization_members" invitation.organization
      let memberships := (db.memberships.upsertMember {
        organization := invitation.organization
        subject
        email
        role := invitation.role
        createdAt }).markAccepted tokenHash acceptedAt
      .ok (some invitation, { db with memberships })

/-- `ORDER BY created_at LIMIT 1`. -/
def membership (db : Credentials) (subject : String) : Option (String × String) :=
  ((db.memberships.members.rows.mergeSort fun a b => a.createdAt ≤ b.createdAt).find? fun row =>
    row.subject = subject).map fun row => (row.organization, row.role)

def appendEvent (registry : PostgresRegistry) (db : Credentials) (event : Value) (createdAt : ℕ) :
    Except String (Unit × Credentials) := do
  let events ← Registry.appendEvent registry event createdAt db.events
  .ok ((), { db with events })

end Credentials

/-! ## What is asked and answered -/

structure TokenRequest where
  role : String
  ttlSecs : ℕ

structure InvitationRequest where
  email : String
  role : String
  ttlSecs : ℕ

structure InvitationAcceptRequest where
  invitationToken : String
  idToken : String

structure IdentityClaims where
  sub : String
  email : Option String
  emailVerified : Bool
  amr : List String
  acr : Option String

def IdentityClaims.hasStepUpAuthentication (claims : IdentityClaims) : Bool :=
  (claims.amr.any fun method => String.ofList (method.toList.map Char.toLower) ∈
    ["mfa", "otp", "hwk", "fido", "webauthn", "swk"]) ||
  claims.acr.any fun value =>
    (value.toList.splitOnP (· ∈ [':', '/', ' '])).any fun component =>
      eqIgnoreAsciiCase (String.ofList component) "mfa"

/-- What the services outside the database answer while a request is served. The identity provider
and the mail provider need not be configured. -/
structure Providers where
  getrandom : Except String (List UInt8)
  verify : Option (String → Except String IdentityClaims)
  sendInvitation : Option (String → String → String → Except String Unit)
  invitationAcceptUrl : Option String

inductive CredentialRequest
  | issueToken (authorization : Option (List UInt8)) (request : TokenRequest)
  | createInvitation (authorization : Option (List UInt8)) (request : InvitationRequest)
  | revokeInvitation (authorization : Option (List UInt8)) (tokenId : String)
  | acceptInvitation (request : InvitationAcceptRequest)
  | ssoExchange (idToken : String)

/-- `HeaderValue::to_str`. -/
def isVisible (byte : UInt8) : Bool := (32 ≤ byte && byte < 127) || byte = 9

def bearerOptional (authorization : Option (List UInt8)) : Except ApiError (Option String) :=
  match authorization with
  | none => .ok none
  | some value =>
    if !value.all isVisible then .error .unauthorized
    else match Fetch.splitOnce ' ' (value.map fun b => Char.ofNat b.toNat) with
      | none => .error .unauthorized
      | some (scheme, token) =>
        if !eqIgnoreAsciiCase (String.ofList scheme) "bearer" || token.isEmpty ||
            token.any isWhitespace then .error .unauthorized
        else .ok (some (String.ofList token))

def isRole (role : String) : Bool := role ∈ ["reader", "publisher", "admin"]

def tokenHashOf (registry : PostgresRegistry) (token : String) : String :=
  hexSha256 registry.assess.sha (asBytes token)

def tokenIssued (organization role : String) (expiresAt : ℕ) : Value := Value.json [
  ("type", .string "token.issued"),
  ("organization", .string organization),
  ("role", .string role),
  ("expires_at", .int expiresAt)]

def invitationCreated (registry : PostgresRegistry) (organization email role : String)
    (expiresAt : ℕ) : Value := Value.json [
  ("type", .string "invitation.created"),
  ("organization", .string organization),
  ("email_hash", .string (hexSha256 registry.assess.sha (asBytes email))),
  ("role", .string role),
  ("expires_at", .int expiresAt)]

def invitationRevoked (organization tokenId : String) : Value := Value.json [
  ("type", .string "invitation.revoked"),
  ("organization", .string organization),
  ("token_id", .string tokenId)]

def invitationAccepted (registry : PostgresRegistry) (organization subject email role : String) :
    Value := Value.json [
  ("type", .string "invitation.accepted"),
  ("organization", .string organization),
  ("subject_hash", .string (hexSha256 registry.assess.sha (asBytes subject))),
  ("email_hash", .string (hexSha256 registry.assess.sha (asBytes email))),
  ("role", .string role)]

def tokenReply (token role : String) (ttlSecs : ℕ) : Value := Value.json [
  ("token", .string token),
  ("token_type", .string "Bearer"),
  ("role", .string role),
  ("expires_in", .int ttlSecs)]

def invitationReply (tokenHash : String) (expiresAt : ℕ) : Value := Value.json [
  ("status", .string "sent"),
  ("token_id", .string tokenHash),
  ("expires_at", .int expiresAt)]

def revocationReply (tokenId : String) : Value :=
  Value.json [("status", .string "revoked"), ("token_id", .string tokenId)]

def identityReply (token organization role : String) : Value := Value.json [
  ("token", .string token),
  ("token_type", .string "Bearer"),
  ("expires_in", .int 3600),
  ("organization", .string organization),
  ("role", .string role)]

/-! ## Handlers -/

section Handlers
open Serving
variable (registry : PostgresRegistry) (providers : Providers)

namespace Serving

def now : Serving Credentials ℕ := query Credentials.clock

def bearer (authorization : Option (List UInt8)) : Serving Credentials String :=
  match bearerOptional authorization with
  | .ok token => found token .unauthorized
  | .error error => throw error

def authenticate (authorization : Option (List UInt8)) : Serving Credentials Principal := do
  let token ← bearer authorization
  let time ← now
  let principal ← query (·.authenticate (tokenHashOf registry token) (asI64 time))
  found principal .unauthorized

def appendEvent (event : Value) : Serving Credentials Unit := do
  let createdAt ← now
  execute (·.appendEvent registry event createdAt)

/-- A new bearer token and its row. -/
def insertToken (organization role kind : String) (ttlSecs : ℕ) : Serving Credentials String := do
  let random ← ofResult providers.getrandom .internal
  let token := Base64.encodeUrlSafe random
  let time ← now
  execute (·.insertToken {
    tokenHash := tokenHashOf registry token
    organization
    role
    expiresAt := some (asI64 (saturatingAdd time ttlSecs))
    kind })
  pure token

def issueIdentityToken (organization role : String) (stepUp : Bool) : Serving Credentials String :=
  insertToken registry providers organization role (if stepUp then "oidc-mfa" else "oidc") 3600

def issueToken (authorization : Option (List UInt8)) (request : TokenRequest) :
    Serving Credentials Value := do
  let principal ← authenticate registry authorization
  reject (principal.role != "admin") (.forbidden "admin role required")
  reject (!isRole request.role) (.bad "invalid token role")
  reject (!(60 ≤ request.ttlSecs && request.ttlSecs ≤ 86400))
    (.bad "token ttl must be between 60 and 86400 seconds")
  let token ← insertToken registry providers principal.organization request.role "service"
    request.ttlSecs
  let time ← now
  appendEvent registry
    (tokenIssued principal.organization request.role ((time + request.ttlSecs) % 2 ^ 64))
  pure (tokenReply token request.role request.ttlSecs)

def revokeAt (tokenHash organization : String) : Serving Credentials Bool := do
  let time ← now
  execute fun db => .ok (db.revokeInvitation tokenHash organization (asI64 time))

def acceptUrl (url token : String) : String :=
  url ++ (if url.toList.contains '?' then "&" else "?") ++ "invitation_token=" ++ token

/-- An invitation whose mail cannot be sent is revoked at once. -/
def mailInvitation (send : String → String → String → Except String Unit)
    (tokenHash organization email url : String) : Serving Credentials Unit :=
  match send email organization url with
  | .ok () => pure ()
  | .error message => do
    let _ ← revokeAt tokenHash organization
    throw (.internal message)

def createInvitation (authorization : Option (List UInt8)) (request : InvitationRequest) :
    Serving Credentials Value := do
  let principal ← authenticate registry authorization
  reject (principal.role != "admin") (.forbidden "admin role required")
  reject (!isRole request.role) (.bad "invalid invitation role")
  reject (!(300 ≤ request.ttlSecs && request.ttlSecs ≤ 604800))
    (.bad "invitation ttl must be between 300 and 604800 seconds")
  let send ← found providers.sendInvitation
    (.internal "invitation email provider is not configured")
  let url ← found providers.invitationAcceptUrl
    (.internal "invitation accept URL is not configured")
  let random ← ofResult providers.getrandom .internal
  let token := Base64.encodeUrlSafe random
  let tokenHash := tokenHashOf registry token
  let time ← now
  let expiresAt := saturatingAdd time request.ttlSecs
  execute (·.createInvitation tokenHash
    ⟨principal.organization, request.email, request.role, asI64 expiresAt⟩)
  mailInvitation send tokenHash principal.organization request.email (acceptUrl url token)
  appendEvent registry
    (invitationCreated registry principal.organization request.email request.role expiresAt)
  pure (invitationReply tokenHash expiresAt)

def revokeInvitation (authorization : Option (List UInt8)) (tokenId : String) :
    Serving Credentials Value := do
  let principal ← authenticate registry authorization
  reject (principal.role != "admin") (.forbidden "admin role required")
  let revoked ← revokeAt tokenId principal.organization
  reject (!revoked) (.notFound "active invitation not found")
  appendEvent registry (invitationRevoked principal.organization tokenId)
  pure (revocationReply tokenId)

def verify (idToken : String) : Serving Credentials IdentityClaims := do
  let verifier ← found providers.verify (.internal "OIDC provider is not configured")
  ofResult (verifier idToken) fun _ => .unauthorized

def acceptInvitation (request : InvitationAcceptRequest) : Serving Credentials Value := do
  let claims ← verify providers request.idToken
  reject (!claims.emailVerified) (.forbidden "OIDC email is not verified")
  let stepUp := claims.hasStepUpAuthentication
  let email ← found claims.email (.forbidden "OIDC identity has no email")
  let time ← now
  let createdAt ← now
  let acceptedAt ← now
  let invitation ← execute (·.acceptInvitation (tokenHashOf registry request.invitationToken)
    claims.sub email (asI64 time) (asI64 createdAt) (asI64 acceptedAt))
  let invitation ← found invitation (.notFound "active invitation not found")
  let token ← issueIdentityToken registry providers invitation.organization invitation.role stepUp
  appendEvent registry
    (invitationAccepted registry invitation.organization claims.sub email invitation.role)
  pure (identityReply token invitation.organization invitation.role)

def ssoExchange (idToken : String) : Serving Credentials Value := do
  let claims ← verify providers idToken
  let (organization, role) ← found (← query (·.membership claims.sub))
    (.forbidden "identity is not an organization member")
  let token ← issueIdentityToken registry providers organization role
    claims.hasStepUpAuthentication
  pure (identityReply token organization role)

end Serving

def CredentialRequest.serve : CredentialRequest → Serving Credentials Value
  | issueToken authorization request => Serving.issueToken registry providers authorization request
  | createInvitation authorization request =>
    Serving.createInvitation registry providers authorization request
  | revokeInvitation authorization tokenId =>
    Serving.revokeInvitation registry authorization tokenId
  | acceptInvitation request => Serving.acceptInvitation registry providers request
  | ssoExchange idToken => Serving.ssoExchange registry providers idToken

end Handlers

/-- What happens besides these requests: the operator sets a token, an event of another request is
delivered, and the clock goes on. -/
inductive Outside
  | bootstrap (organization tokenHash role : String)
  | deliver (eventKey : String) (event : Value) (createdAt : ℕ)
  | elapse (seconds : ℕ)

def Outside.apply (registry : PostgresRegistry) : Outside → Credentials → Credentials
  | bootstrap organization tokenHash role, db => db.bootstrapToken organization tokenHash role
  | deliver eventKey event createdAt, db =>
    match appendEventKeyed registry eventKey event createdAt db.events with
    | .ok events => { db with events }
    | .error _ => db
  | elapse seconds, db => { db with clock := db.clock + seconds }

end Oath.Registry
