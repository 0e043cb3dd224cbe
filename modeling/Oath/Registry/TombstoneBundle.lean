import Oath.Contracts.Decode
import Oath.Contracts.SignedRecords
import Oath.Registry.Revocation

/-! The signed notice of a revocation, rebuilt from the columns that were stored when it was
made. -/

namespace Oath.Registry
open Contracts Service Unix Database

/-! ## The bundle -/

/-- The row as `to_jsonb` gives it. The column of the time is a signed one of 64 bits. -/
def TombstoneRow.toJsonb (row : TombstoneRow) : Value := Value.json [
  ("name", .string row.name),
  ("version", .string row.version),
  ("status", .string row.status),
  ("reason", .string row.reason),
  ("actor_org", .string row.actorOrg),
  ("created_at", .int ((row.createdAt : ℤ).bmod (2 ^ 64))),
  ("signature", .string row.signature),
  ("public_key", .string row.publicKey)]

def tombstoneField (value : Value) (name : String) : Except ApiError Value :=
  match value.get? name with
  | some field => .ok field
  | none => .error (.internal ("stored tombstone has no " ++ name))

def tombstoneBundle (value : Value) : Except ApiError Value := do
  let name ← tombstoneField value "name"
  let version ← tombstoneField value "version"
  let status ← tombstoneField value "status"
  let reason ← tombstoneField value "reason"
  let actorOrg ← tombstoneField value "actor_org"
  let createdAt ← tombstoneField value "created_at"
  let signature ← tombstoneField value "signature"
  let publicKey ← tombstoneField value "public_key"
  .ok (Value.json [
    ("payload", Value.json [
      ("name", name),
      ("version", version),
      ("status", status),
      ("reason", reason),
      ("actor_org", actorOrg),
      ("created_at", createdAt)]),
    ("algorithm", .string "ed25519"),
    ("canonicalization", .string "oath-json-v1"),
    ("signature", signature),
    ("public_key", publicKey)])

/-- The check of a served bundle, by what stands in the bundle itself. -/
def verifyBundle (ed : Ed25519) (bundle : Value) : Except ContractError Unit :=
  let member := fun key => (bundle.index key).asStr?.getD ""
  verifyJson ed (bundle.index "payload") {
    algorithm := member "algorithm"
    canonicalization := member "canonicalization"
    publicKey := member "public_key"
    signature := member "signature" }

/-! ## Rows that carry their signature -/

/-- The row has the signature of its own columns, and a time its column can hold. -/
structure SignedTombstone (key : SigningKey) (row : TombstoneRow) : Prop where
  publicKey : row.publicKey = key.publicKey
  signature : row.signature = key.sign (canonicalJsonBytes (tombstonePayload row))
  createdAt : row.createdAt < 2 ^ 63

theorem tombstoneOf_signed (registry : PostgresRegistry) (principal : Principal)
    (name version : String) (request : RevokeRequest) {createdAt : ℕ}
    (htime : createdAt < 2 ^ 63) :
    SignedTombstone registry.signingKey
      (tombstoneOf registry principal name version request createdAt) := ⟨rfl, rfl, htime⟩

theorem bmod_of_lt {n : ℕ} (h : n < 2 ^ 63) : (n : ℤ).bmod (2 ^ 64) = n := by
  apply Int.bmod_eq_of_le
  · omega
  · omega

theorem tombstoneField_ok {value field : Value} {name : String}
    (h : value.get? name = some field) : tombstoneField value name = .ok field := by
  unfold tombstoneField
  rw [h]

/-- Every field that the bundle reads is a column of the row. -/
theorem tombstoneBundle_toJsonb {row : TombstoneRow} (htime : row.createdAt < 2 ^ 63) :
    tombstoneBundle row.toJsonb = .ok (Value.json [
      ("payload", tombstonePayload row),
      ("algorithm", .string "ed25519"),
      ("canonicalization", .string "oath-json-v1"),
      ("signature", .string row.signature),
      ("public_key", .string row.publicKey)]) := by
  have hfields : (([
      ("name", .string row.name),
      ("version", .string row.version),
      ("status", .string row.status),
      ("reason", .string row.reason),
      ("actor_org", .string row.actorOrg),
      ("created_at", .int row.createdAt),
      ("signature", .string row.signature),
      ("public_key", .string row.publicKey)] : List (String × Value)).map Prod.fst).Nodup := by
    simp
  have hcolumn := Value.get?_json_of_nodup hfields
  simp only [List.forall_mem_cons] at hcolumn
  obtain ⟨hname, hversion, hstatus, hreason, hactor, hcreated, hsignature, hpublic, -⟩ := hcolumn
  unfold tombstoneBundle TombstoneRow.toJsonb
  rw [bmod_of_lt htime, tombstoneField_ok hname, tombstoneField_ok hversion, tombstoneField_ok hstatus,
    tombstoneField_ok hreason, tombstoneField_ok hactor, tombstoneField_ok hcreated,
    tombstoneField_ok hsignature, tombstoneField_ok hpublic]
  rfl

theorem index_json_of_nodup {fields : List (String × Value)} (h : (fields.map Prod.fst).Nodup) :
    ∀ field ∈ fields, (Value.json fields).index field.1 = field.2 := by
  intro field hmem
  unfold Value.index
  rw [Value.get?_json_of_nodup h field hmem]
  rfl

theorem verifyBundle_json (ed : Ed25519) (payload : Value) (signature publicKey : String) :
    verifyBundle ed (Value.json [
      ("payload", payload),
      ("algorithm", .string "ed25519"),
      ("canonicalization", .string "oath-json-v1"),
      ("signature", .string signature),
      ("public_key", .string publicKey)]) =
    verifyJson ed payload {
      algorithm := "ed25519"
      canonicalization := "oath-json-v1"
      publicKey
      signature } := by
  have hfields : (([
      ("payload", payload),
      ("algorithm", .string "ed25519"),
      ("canonicalization", .string "oath-json-v1"),
      ("signature", .string signature),
      ("public_key", .string publicKey)] : List (String × Value)).map Prod.fst).Nodup := by
    simp
  have hmember := index_json_of_nodup hfields
  simp only [List.forall_mem_cons] at hmember
  obtain ⟨hpayload, halgorithm, hcanonical, hsignature, hpublic, -⟩ := hmember
  unfold verifyBundle
  dsimp only
  rw [hpayload, halgorithm, hcanonical, hsignature, hpublic]
  rfl

/-- What the rebuilt bundle of a signed row says is what was signed. -/
theorem SignedTombstone.verifies {key : SigningKey} {row : TombstoneRow}
    (h : SignedTombstone key row) {ed : Ed25519} (hkey : key.Verifies ed) :
    ∃ bundle, tombstoneBundle row.toJsonb = .ok bundle ∧ verifyBundle ed bundle = .ok () := by
  refine ⟨_, tombstoneBundle_toJsonb h.createdAt, ?_⟩
  have hdetached : signJson (tombstonePayload row) key = {
      algorithm := "ed25519"
      canonicalization := "oath-json-v1"
      publicKey := row.publicKey
      signature := row.signature } := by
    rw [h.publicKey, h.signature]
    rfl
  have hverified := verifyJson_signJson hkey (tombstonePayload row)
  rw [hdetached] at hverified
  rw [verifyBundle_json]
  exact hverified

/-! ## The clock of a request -/

/-- The run reads no times. -/
def KeepsTimes {α : Type} (x : Handler α) : Prop :=
  EStateM.Moves (fun w w' => w'.times = w.times) x

instance : Std.Refl (fun w w' : World RegistryState => w'.times = w.times) := ⟨fun _ => rfl⟩

instance : IsTrans (World RegistryState) (fun w w' => w'.times = w.times) :=
  ⟨fun _ _ _ h h' => h'.trans h⟩

theorem call_times {α : Type} (f : RegistryState → Except String (α × RegistryState))
    (w : World RegistryState) : (call f w).state.times = w.times := by
  unfold call
  split <;> rfl

theorem query_keepsTimes {α : Type} (f : Database → α) : KeepsTimes (query f) := by
  intro w
  unfold query internal
  rw [mapError_state]
  exact call_times _ w

theorem reject_keepsTimes (condition : Bool) (error : ApiError) :
    KeepsTimes (reject condition error) := by
  cases condition
  · exact EStateM.moves_pure ()
  · exact EStateM.moves_throw _

theorem authorizeName_keepsTimes (principal : Principal) (name : String) (write : Bool) :
    KeepsTimes (authorizeName principal name write) := by
  refine EStateM.moves_bind (query_keepsTimes _) fun package => ?_
  cases package with
  | none =>
    refine EStateM.moves_bind (reject_keepsTimes _ _) fun _ => ?_
    refine EStateM.moves_bind (reject_keepsTimes _ _) fun _ => ?_
    exact EStateM.moves_bind (reject_keepsTimes _ _) fun _ => EStateM.moves_pure _
  | some package =>
    dsimp only
    split_ifs
    · exact EStateM.moves_bind (reject_keepsTimes _ _) fun _ => EStateM.moves_pure _
    · refine EStateM.moves_bind (query_keepsTimes _) fun role => ?_
      exact EStateM.moves_bind (reject_keepsTimes _ _) fun _ => EStateM.moves_pure _

theorem authenticate_same {caller : Caller} {w w' : World RegistryState} {principal : Principal}
    (h : authenticate caller w = .ok principal w') : w' = w := by
  obtain ⟨p, w₁, hcaller, h1⟩ := EStateM.bind_eq_ok.mp h
  obtain ⟨-, rfl⟩ := ofResult_ok.mp hcaller
  exact (found_ok.mp h1).2

/-- A revocation leaves the tombstones or sets the one of the time that its clock showed. -/
theorem revokeVersion_tombstones (registry : PostgresRegistry) (caller : Caller)
    (name version : String) (request : RevokeRequest) (w : World RegistryState) :
    let db' := (revokeVersion registry caller name version request w).state.state.db
    db'.tombstones = w.state.db.tombstones ∨ ∃ principal,
      Revoked w.state.db
        (tombstoneOf registry principal name version request (w.times.headD 0)) db' := by
  let P := fun s' : RegistryState => s'.db.tombstones = w.state.db.tombstones ∨ ∃ principal,
    Revoked w.state.db
      (tombstoneOf registry principal name version request (w.times.headD 0)) s'.db
  show P _
  have hnothing : P w.state := Or.inl rfl
  refine still_then P hnothing (authenticate_still caller) rfl fun principal w₁ hcaller hw₁ => ?_
  refine still_then P hnothing (authorizeName_still _ _ _) hw₁ fun owner w₂ howner hw₂ => ?_
  have htimes : w₂.times = w.times := by
    have hkeeps := authorizeName_keepsTimes principal name true w₁
    rw [howner, authenticate_same hcaller] at hkeeps
    exact hkeeps
  refine still_then P hnothing changes_now hw₂ fun createdAt w₃ hcreated hw₃ => ?_
  refine still_then P hnothing changes_now hw₃ fun insertedAt w₄ _ hw₄ => ?_
  refine execute_then P hnothing hw₄ (fun revoked db hcommit => ?_) fun revoked =>
    still_bind (reject_still _ _) fun _ => changes_pure _
  obtain ⟨hshown, -⟩ := EStateM.Result.ok.inj hcreated
  rcases revokeVersion_ok hcommit with ⟨-, rfl⟩ | ⟨-, hrevoked⟩
  · exact hnothing
  · rw [← hshown, htimes] at hrevoked
    exact Or.inr ⟨principal, hrevoked⟩

/-! ## Runs -/

/-- Every tombstone of the registry carries its signature. -/
def TombstonesSigned (key : SigningKey) (db : Database) : Prop :=
  ∀ id row, db.tombstones.find? id = some row → SignedTombstone key row

theorem TombstonesSigned.congr {key : SigningKey} {db db' : Database}
    (h : TombstonesSigned key db) (hsame : db'.tombstones = db.tombstones) :
    TombstonesSigned key db' := by
  intro id row hrow
  rw [hsame] at hrow
  exact h id row hrow

theorem TombstonesSigned.revoked {key : SigningKey} {db db' : Database} {tombstone : TombstoneRow}
    (h : TombstonesSigned key db) (hsigned : SignedTombstone key tombstone)
    (hrevoked : Revoked db tombstone db') : TombstonesSigned key db' := by
  intro id row hrow
  rw [hrevoked.tombstones] at hrow
  split_ifs at hrow
  · obtain rfl := Option.some.inj hrow
    exact hsigned
  · exact h id row hrow

/-- Only revocations change the tombstones. -/
theorem Effect.tombstones {registry : PostgresRegistry} {s s' : RegistryState}
    {request : Request} (h : Effect registry s request s')
    (hother : ∀ caller name version revoke,
      request ≠ .revokeVersion caller name version revoke) :
    s'.db.tombstones = s.db.tombstones := by
  cases h with
  | stored hkeeps => rfl
  | staged hcaller hname hstatus howner hassessed hstored hkeeps hstaged =>
    exact hstaged.tombstones
  | approved hcaller hadmin hstepUp hstage howner hdenied happroved => exact happroved.tombstones
  | rejected hcaller hadmin hstage howner hrejected => exact hrejected.tombstones
  | revoked hcaller howner hrevoked => exact absurd rfl (hother _ _ _ _)
  | granted hcaller hadmin hpackage howner => rfl
  | downloaded hkeeps => rfl

/-- The clocks of the request show times that a signed number of 64 bits can hold. -/
def Call.Timely (call : Call) : Prop := ∀ time ∈ call.times, time < 2 ^ 63

instance (call : Call) : Decidable call.Timely := List.decidableBAll _ _

theorem Call.Timely.headD {call : Call} (h : call.Timely) : call.times.headD 0 < 2 ^ 63 := by
  cases htimes : call.times with
  | nil => decide
  | cons time rest =>
    apply h
    rw [htimes]
    exact List.mem_cons_self

theorem TombstonesSigned.serve {registry : PostgresRegistry} {s : RegistryState}
    (h : TombstonesSigned registry.signingKey s.db) {call : Call} (htimely : call.Timely) :
    TombstonesSigned registry.signingKey (serve registry s call).db := by
  have heffect := serve_effect registry s call
  have hshown := htimely.headD
  obtain ⟨request, faults, times⟩ := call
  cases request with
  | revokeVersion caller name version request =>
    have hrow := revokeVersion_tombstones registry caller name version request ⟨s, faults, times⟩
    rcases hrow with hsame | ⟨principal, hrevoked⟩
    · exact h.congr hsame
    · exact h.revoked (tombstoneOf_signed registry principal name version request hshown) hrevoked
  | createStage caller host request => exact h.congr (heffect.tombstones nofun)
  | decide caller id approve reason => exact h.congr (heffect.tombstones nofun)
  | grantRole caller name request => exact h.congr (heffect.tombstones nofun)
  | packageMetadata caller name => exact h.congr (heffect.tombstones nofun)
  | downloadVersion caller name version => exact h.congr (heffect.tombstones nofun)

theorem run_tombstonesSigned (registry : PostgresRegistry) (replicas : ℕ) {calls : List Call}
    (htimely : ∀ call ∈ calls, call.Timely) :
    TombstonesSigned registry.signingKey (run registry (.empty replicas) calls).db := by
  have hstart : TombstonesSigned registry.signingKey (RegistryState.empty replicas).db := nofun
  unfold run
  generalize RegistryState.empty replicas = s at hstart
  induction calls generalizing s with
  | nil => exact hstart
  | cons call rest ih =>
    rw [List.forall_mem_cons] at htimely
    exact ih htimely.2 _ (hstart.serve htimely.1)

/-- In every state a registry can come to, the bundle rebuilt from a stored tombstone verifies
under its own key. -/
theorem tombstone_bundle_verifies (registry : PostgresRegistry) (ed : Ed25519) (replicas : ℕ)
    (calls : List Call) (hkey : registry.signingKey.Verifies ed)
    (htimely : ∀ call ∈ calls, call.Timely) :
    ∀ id row, (run registry (.empty replicas) calls).db.tombstones.find? id = some row →
      ∃ bundle, tombstoneBundle row.toJsonb = .ok bundle ∧ verifyBundle ed bundle = .ok () := by
  intro id row hrow
  have hsigned := run_tombstonesSigned registry replicas htimely id row hrow
  exact hsigned.verifies hkey

/-! ## A revoked demo version -/

/-- The signatures of the staged verdict and of the tombstone below, by a test key. -/
def verdictSignature : String :=
  "o1xI24BwC3hv/cBODB5xH5d8y7ut3TBBGbg42dzcyFgffbUDQ3jPCIzejdcNrR3yD3Lrhy4mmwNM82Yu/BRcDg=="

def tombstoneSignature : String :=
  "Qwg1Mbg1gse4lW1tYdfx4WU35JA1PuG4zUeFIiF1hfpuexSFIwFBaroP64uUPIDJyj2nCgjJwy+YofFGcm1ICg=="

def demoTombstonePayload : Value := Value.json [
  ("name", .string "demo"),
  ("version", .string "1.0.0"),
  ("status", .string "revoked"),
  ("reason", .string "malware"),
  ("actor_org", .string "acme"),
  ("created_at", .int demoTime)]

def registryKey : SigningKey where
  publicKey := "11qYAYKxCrfVS/7TyWQHOg7hcvPapiMlrwIaaPcHURo="
  sign message :=
    if message = canonicalJsonBytes demoTombstonePayload then tombstoneSignature
    else verdictSignature

/-- The signatures of this key alone. -/
def registryEd25519 : Ed25519 where
  isKey key := some key = Base64.decode registryKey.publicKey
  verifies key message signature :=
    some key = Base64.decode registryKey.publicKey ∧
      some signature = Base64.decode (registryKey.sign message)

theorem registryKey_verifies : registryKey.Verifies registryEd25519 := by
  have hpublic : (Base64.decode registryKey.publicKey).map List.length = some 32 := by
    decide
  have hsizes : ∀ text ∈ [tombstoneSignature, verdictSignature],
      (Base64.decode text).map List.length = some 64 := by decide
  obtain ⟨key, hkey, hlength⟩ := Option.map_eq_some_iff.mp hpublic
  refine ⟨key, hkey, hlength, ?_, fun message => ?_⟩
  · simp [registryEd25519, hkey]
  · have hsign : registryKey.sign message ∈ [tombstoneSignature, verdictSignature] := by
      simp only [registryKey]
      split_ifs
      · exact List.mem_cons_self
      · exact List.mem_cons_of_mem _ List.mem_cons_self
    obtain ⟨signature, hsignature, hsize⟩ := Option.map_eq_some_iff.mp (hsizes _ hsign)
    exact ⟨signature, hsignature, hsize, by simp [registryEd25519, hkey, hsignature]⟩

def signingRegistry : PostgresRegistry := { demoRegistry with signingKey := registryKey }

theorem tombstone_bundle_verifies_demo :
    (registryKey.Verifies registryEd25519 ∧
      ∀ call ∈ demoCalls ++ [demoRevocation], call.Timely) ∧
    ∃ row, (run signingRegistry (.empty 1) (demoCalls ++ [demoRevocation])).db.tombstones.find?
        ("demo", "1.0.0") = some row ∧
      ∃ bundle, tombstoneBundle row.toJsonb = .ok bundle ∧
        verifyBundle registryEd25519 bundle = .ok () := by
  have htimely : ∀ call ∈ demoCalls ++ [demoRevocation], call.Timely := by decide
  have hsome : ((run signingRegistry (.empty 1) (demoCalls ++ [demoRevocation])).db.tombstones.find?
      ("demo", "1.0.0")).isSome = true := by decide +kernel
  obtain ⟨row, hrow⟩ := Option.isSome_iff_exists.mp hsome
  refine ⟨⟨registryKey_verifies, htimely⟩, row, hrow, ?_⟩
  exact tombstone_bundle_verifies signingRegistry registryEd25519 1 (demoCalls ++ [demoRevocation])
    registryKey_verifies htimely ("demo", "1.0.0") row hrow

end Oath.Registry
