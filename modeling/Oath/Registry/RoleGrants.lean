import Oath.Contracts.CanonicalUnique
import Oath.Contracts.Decode
import Oath.Registry.AuditLog
import Oath.Registry.Revocation

/-! Grants of a role on a package, and the events that the audit log has of them. The key of
such an event is made of the event itself. -/

namespace Oath.Registry
open Contracts Service Database

/-! ## The handler -/

structure AuditedRegistry where
  registry : RegistryState
  events : List RegistryEvent

abbrev AuditedHandler (α : Type) := EStateM ApiError (World AuditedRegistry) α

def onRegistry {α : Type} (x : Handler α) : AuditedHandler α :=
  within AuditedRegistry.registry (fun registry s => { s with registry }) x

def recordEvent (registry : PostgresRegistry) (event : Value) : AuditedHandler Unit := do
  let createdAt ← now
  mapError .internal (call fun s => do
    let events ← appendEvent registry event createdAt s.events
    .ok ((), { s with events }))

def roleGrantedEvent (name ownerOrg principalOrg role : String) : Value := Value.json [
  ("type", .string "package.role_granted"),
  ("name", .string name),
  ("owner_org", .string ownerOrg),
  ("principal_org", .string principalOrg),
  ("role", .string role)]

/-- The grant up to its event. -/
def grantStoredRole (caller : Caller) (name : String) (request : PackageRoleRequest) :
    Handler Principal := do
  let principal ← authenticate caller
  reject (principal.role != "admin") (.forbidden "admin role required")
  let owner ← authorizeName principal name true
  reject (owner != principal.organization)
    (.forbidden "only the package-owning organization may grant roles")
  reject (request.role ∉ ["reader", "publisher", "admin"]) (.bad "invalid package role")
  let package ← found (← query (·.package name)) (.internal "package not found")
  reject (package.organization != principal.organization)
    (.internal "only the package-owning organization may grant roles")
  execute fun db => .ok ((), ControlPlane.grantPackageRole db {
    name
    organization := principal.organization
    principalOrg := request.principalOrg
    role := request.role })
  pure principal

def Audited.grantRole (registry : PostgresRegistry) (caller : Caller) (name : String)
    (request : PackageRoleRequest) : AuditedHandler Value := do
  let principal ← onRegistry (grantStoredRole caller name request)
  recordEvent registry
    (roleGrantedEvent name principal.organization request.principalOrg request.role)
  pure (Value.json [
    ("name", .string name),
    ("principal_org", .string request.principalOrg),
    ("role", .string request.role)])

/-- Without the log, it is the handler of the registry. -/
theorem grantRole_eq (caller : Caller) (name : String) (request : PackageRoleRequest) :
    grantRole caller name request = (do
      let _ ← grantStoredRole caller name request
      query fun _ => ()
      pure (Value.json [
        ("name", .string name),
        ("principal_org", .string request.principalOrg),
        ("role", .string request.role)])) := by
  unfold grantRole grantStoredRole
  simp only [bind_assoc, pure_bind]

/-! ## Successful grants -/

structure GrantCall where
  principal : Principal
  name : String
  request : PackageRoleRequest
  faults : List Fault
  times : List ℕ

namespace GrantCall

def row (call : GrantCall) : PackageRoleRow where
  name := call.name
  organization := call.principal.organization
  principalOrg := call.request.principalOrg
  role := call.request.role

def event (call : GrantCall) : Value :=
  roleGrantedEvent call.name call.principal.organization call.request.principalOrg
    call.request.role

def eventKey (sha : Sha256) (call : GrantCall) : String := directKey sha call.event

end GrantCall

/-- The call answers with a success, and leaves the registry and its log so. -/
def Granted (registry : PostgresRegistry) (s : AuditedRegistry) (call : GrantCall)
    (s' : AuditedRegistry) : Prop :=
  ∃ response w', Audited.grantRole registry (.ok (some call.principal)) call.name call.request
    ⟨s, call.faults, call.times⟩ = .ok response w' ∧ w'.state = s'

inductive GrantRun (registry : PostgresRegistry) :
    AuditedRegistry → List GrantCall → AuditedRegistry → Prop
  | nil {s : AuditedRegistry} : GrantRun registry s [] s
  | cons {s s' s'' : AuditedRegistry} {call : GrantCall} {rest : List GrantCall}
    (hfirst : Granted registry s call s') (hrest : GrantRun registry s' rest s'') :
    GrantRun registry s (call :: rest) s''

section Granted
variable {registry : PostgresRegistry} {s s' : AuditedRegistry} {call : GrantCall}

theorem grantStoredRole_ok {caller : Caller} {name : String} {request : PackageRoleRequest}
    {principal : Principal} {w w' : World RegistryState}
    (h : grantStoredRole caller name request w = .ok principal w') :
    caller = .ok (some principal) ∧ w'.state.db = ControlPlane.grantPackageRole w.state.db {
      name
      organization := principal.organization
      principalOrg := request.principalOrg
      role := request.role } := by
  obtain ⟨p, w₁, hcaller, h1⟩ := EStateM.bind_eq_ok.mp h
  obtain ⟨_, w₂, hadmin, h2⟩ := EStateM.bind_eq_ok.mp h1
  obtain ⟨owner, w₃, howner, h3⟩ := EStateM.bind_eq_ok.mp h2
  obtain ⟨_, w₄, hsame, h4⟩ := EStateM.bind_eq_ok.mp h3
  obtain ⟨_, w₅, hrole, h5⟩ := EStateM.bind_eq_ok.mp h4
  obtain ⟨row, w₆, hread, h6⟩ := EStateM.bind_eq_ok.mp h5
  obtain ⟨package, w₇, hpackage, h7⟩ := EStateM.bind_eq_ok.mp h6
  obtain ⟨_, w₈, hagain, h8⟩ := EStateM.bind_eq_ok.mp h7
  obtain ⟨_, w₉, hcommit, h9⟩ := EStateM.bind_eq_ok.mp h8
  obtain ⟨rfl, rfl⟩ := EStateM.Result.ok.inj h9
  have h₁ := still_ok (authenticate_still caller) hcaller
  have h₂ := still_ok (reject_still _ _) hadmin
  have h₃ := still_ok (authorizeName_still _ _ _) howner
  have h₄ := still_ok (reject_still _ _) hsame
  have h₅ := still_ok (reject_still _ _) hrole
  have h₆ := still_ok (query_still _) hread
  have h₇ := still_ok (found_still _ _) hpackage
  have h₈ := still_ok (reject_still _ _) hagain
  have hstate : w₈.state = w.state := by
    rw [h₈, h₇, h₆, h₅, h₄, h₃, h₂, h₁]
  obtain ⟨⟨_, db⟩, hdb, hstored⟩ := Except.bind_eq_ok.mp (call_ok (internal_ok.mp hcommit))
  obtain ⟨-, rfl⟩ := Prod.mk.inj (Except.ok.inj hdb)
  obtain ⟨-, hfinal⟩ := Prod.mk.inj (Except.ok.inj hstored)
  refine ⟨authenticate_ok hcaller, ?_⟩
  rw [← hfinal, hstate]

theorem recordEvent_ok {event : Value} {w w' : World AuditedRegistry}
    (h : recordEvent registry event w = .ok () w') :
    ∃ createdAt, appendEvent registry event createdAt w.state.events = .ok w'.state.events ∧
      w'.state.registry = w.state.registry := by
  obtain ⟨createdAt, w₁, htime, h1⟩ := EStateM.bind_eq_ok.mp h
  obtain ⟨-, rfl⟩ := EStateM.Result.ok.inj htime
  obtain ⟨events, happend, hstored⟩ := Except.bind_eq_ok.mp (call_ok (mapError_ok.mp h1))
  obtain ⟨-, hfinal⟩ := Prod.mk.inj (Except.ok.inj hstored)
  rw [← hfinal]
  exact ⟨createdAt, happend, rfl⟩

/-- A successful grant stores the role, and its event is in the log or is added to it. -/
theorem Granted.effect (h : Granted registry s call s') :
    s'.registry.db = ControlPlane.grantPackageRole s.registry.db call.row ∧
      ∃ createdAt, appendEvent registry call.event createdAt s.events = .ok s'.events := by
  obtain ⟨response, w', hok, rfl⟩ := h
  obtain ⟨principal, w₁, hstored, h1⟩ := EStateM.bind_eq_ok.mp hok
  obtain ⟨v, hgrant, hw₁⟩ := within_ok hstored
  obtain ⟨hcaller, hdb⟩ := grantStoredRole_ok hgrant
  obtain rfl := Option.some.inj (Except.ok.inj hcaller)
  obtain ⟨_, w₂, hrecord, h2⟩ := EStateM.bind_eq_ok.mp h1
  obtain ⟨-, rfl⟩ := EStateM.Result.ok.inj h2
  obtain ⟨createdAt, happend, hregistry⟩ := recordEvent_ok hrecord
  rw [hw₁] at happend hregistry
  exact ⟨by rw [hregistry]; exact hdb, createdAt, happend⟩

/-- The event of a successful grant is added exactly when its key is new to the log. -/
theorem Granted.log (h : Granted registry s call s') :
    (hasKey s.events (call.eventKey registry.assess.sha) = true ∧ s'.events = s.events) ∨
      (hasKey s.events (call.eventKey registry.assess.sha) = false ∧
        ∃ row, row.eventKey = call.eventKey registry.assess.sha ∧
          row.eventJson = eventText call.event ∧ s'.events = s.events ++ [row]) := by
  obtain ⟨-, createdAt, happend⟩ := h.effect
  change appendEventKeyed registry (call.eventKey registry.assess.sha) call.event createdAt
    s.events = _ at happend
  unfold appendEventKeyed at happend
  by_cases hkey : hasKey s.events (call.eventKey registry.assess.sha) = true
  · left
    rw [if_pos hkey] at happend
    exact ⟨hkey, (Except.ok.inj happend).symm⟩
  · right
    rw [if_neg hkey] at happend
    obtain ⟨-, -, hevents⟩ := insertEvent_ok.mp happend
    exact ⟨by simpa using hkey, _, rfl, rfl, hevents⟩

theorem Granted.hasKey (h : Granted registry s call s') (key : String) :
    Registry.hasKey s'.events key = true ↔
      Registry.hasKey s.events key = true ∨ key = call.eventKey registry.assess.sha := by
  rcases h.log with ⟨hkey, hsame⟩ | ⟨-, row, hrow, -, happended⟩
  · rw [hsame]
    constructor
    · exact Or.inl
    · intro hor
      rcases hor with hold | rfl
      · exact hold
      · exact hkey
  · rw [happended, hasKey_append, Bool.or_eq_true]
    apply or_congr Iff.rfl
    simp [Registry.hasKey, hrow, eq_comm]

end Granted

/-! ## What the log says of a role -/

/-- The event grants this role on the package to the organization. -/
def StatesRole (event : RegistryEvent) (name principalOrg role : String) : Prop :=
  ∃ ownerOrg, event.eventJson = eventText (roleGrantedEvent name ownerOrg principalOrg role)

/-- The last of the events on the package and the organization grants this role. -/
def LastStates (events : List RegistryEvent) (name principalOrg role : String) : Prop :=
  ∃ before event after, events = before ++ event :: after ∧
    StatesRole event name principalOrg role ∧
    ∀ later ∈ after, ∀ other, ¬ StatesRole later name principalOrg other

/-- The stored roles are the ones that the last events state. -/
def RolesAudited (s : AuditedRegistry) : Prop :=
  ∀ name principalOrg role, s.registry.db.packageRole name principalOrg = some role ↔
    LastStates s.events name principalOrg role

/-- Every one of the calls has added its event to the log. -/
def EventsAppended (s : AuditedRegistry) (calls : List GrantCall) (s' : AuditedRegistry) : Prop :=
  ∃ rows, s'.events = s.events ++ rows ∧
    rows.map RegistryEvent.eventJson = calls.map fun call => eventText call.event

theorem roleGrantedEvent_canonical (name ownerOrg principalOrg role : String) :
    (roleGrantedEvent name ownerOrg principalOrg role).IsCanonical := by
  apply Value.isCanonical_json
  simp

theorem eventText_inj {event other : Value} (h : event.IsCanonical) (h' : other.IsCanonical)
    (htext : eventText event = eventText other) : event = other := by
  apply Value.canonicalJsonBytes_injective h h'
  exact congrArg asBytes htext

theorem roleGrantedEvent_inj {name ownerOrg principalOrg role name' ownerOrg' principalOrg'
    role' : String} (h : roleGrantedEvent name ownerOrg principalOrg role =
      roleGrantedEvent name' ownerOrg' principalOrg' role') :
    name = name' ∧ principalOrg = principalOrg' ∧ role = role' := by
  have hname := congrArg (Value.get? "name") h
  have horganization := congrArg (Value.get? "principal_org") h
  have hrole := congrArg (Value.get? "role") h
  simp [roleGrantedEvent, Value.get?_json] at hname horganization hrole
  exact ⟨hname, horganization, hrole⟩

/-- An event's text grants one role only. -/
theorem statesRole_of_grant {row : RegistryEvent} {call : GrantCall}
    (h : row.eventJson = eventText call.event) (name principalOrg role : String) :
    StatesRole row name principalOrg role ↔
      call.row.name = name ∧ call.row.principalOrg = principalOrg ∧ call.row.role = role := by
  constructor
  · intro ⟨ownerOrg, htext⟩
    have hsame := eventText_inj (roleGrantedEvent_canonical _ _ _ _)
      (roleGrantedEvent_canonical _ _ _ _) (h.symm.trans htext)
    exact roleGrantedEvent_inj hsame
  · rintro ⟨rfl, rfl, rfl⟩
    exact ⟨_, h⟩

section LastStates
variable {events : List RegistryEvent} {row : RegistryEvent} {name principalOrg role : String}

theorem lastStates_append_of_states (h : StatesRole row name principalOrg role)
    (honly : ∀ other, StatesRole row name principalOrg other → other = role) (other : String) :
    LastStates (events ++ [row]) name principalOrg other ↔ other = role := by
  constructor
  · intro ⟨before, event, after, hevents, hstates, hlater⟩
    rcases List.eq_nil_or_concat after with rfl | ⟨rest, last, rfl⟩
    · obtain rfl := List.singleton_inj.mp (List.append_inj' hevents rfl).2
      exact honly other hstates
    · have hsplit : events ++ [row] = (before ++ event :: rest) ++ [last] := by
        rw [hevents]
        simp
      obtain rfl := List.singleton_inj.mp (List.append_inj' hsplit rfl).2
      exact absurd h (hlater row (by simp) role)
  · intro hother
    rw [hother]
    exact ⟨events, row, [], rfl, h, nofun⟩

theorem lastStates_append_of_other (h : ∀ other, ¬ StatesRole row name principalOrg other) :
    LastStates (events ++ [row]) name principalOrg role ↔
      LastStates events name principalOrg role := by
  constructor
  · intro ⟨before, event, after, hevents, hstates, hlater⟩
    rcases List.eq_nil_or_concat after with rfl | ⟨rest, last, rfl⟩
    · obtain rfl := List.singleton_inj.mp (List.append_inj' hevents rfl).2
      exact absurd hstates (h role)
    · have hsplit : events ++ [row] = (before ++ event :: rest) ++ [last] := by
        rw [hevents]
        simp
      obtain ⟨hbefore, -⟩ := List.append_inj' hsplit rfl
      exact ⟨before, event, rest, hbefore, hstates, fun later hmem =>
        hlater later (by simp [hmem])⟩
  · intro ⟨before, event, after, hevents, hstates, hlater⟩
    refine ⟨before, event, after ++ [row], by simp [hevents], hstates, fun later hmem => ?_⟩
    rcases List.mem_append.mp hmem with hold | hnew
    · exact hlater later hold
    · rw [List.mem_singleton.mp hnew]
      exact h

end LastStates

/-! ## Runs of grants -/

section Runs
variable {registry : PostgresRegistry} {s s' : AuditedRegistry} {call : GrantCall}
  {calls : List GrantCall}

theorem grantPackageRole_packageRole (db : Database) (row : PackageRoleRow)
    (name principalOrg : String) :
    (ControlPlane.grantPackageRole db row).packageRole name principalOrg =
      if row.name = name ∧ row.principalOrg = principalOrg then some row.role
      else db.packageRole name principalOrg := by
  have hkey : row.key = (name, principalOrg) ↔
      row.name = name ∧ row.principalOrg = principalOrg := Prod.mk.injEq _ _ _ _ ▸ Iff.rfl
  unfold packageRole ControlPlane.grantPackageRole
  dsimp only
  rw [Table.find?_upsert]
  by_cases hsame : row.name = name ∧ row.principalOrg = principalOrg
  · rw [if_pos hsame, if_pos (hkey.mpr hsame)]
    rfl
  · rw [if_neg hsame, if_neg (fun h => hsame (hkey.mp h))]

/-- A grant whose event is new keeps the roles and the log together. -/
theorem Granted.rolesAudited (h : Granted registry s call s') (haudited : RolesAudited s)
    (hnew : Registry.hasKey s.events (call.eventKey registry.assess.sha) = false) :
    RolesAudited s' := by
  obtain ⟨hdb, -⟩ := h.effect
  rcases h.log with ⟨hkey, -⟩ | ⟨-, row, -, htext, hevents⟩
  · rw [hkey] at hnew
    cases hnew
  · intro name principalOrg role
    rw [hdb, hevents, grantPackageRole_packageRole]
    have hstates := statesRole_of_grant htext
    by_cases hsame : call.row.name = name ∧ call.row.principalOrg = principalOrg
    · obtain ⟨rfl, rfl⟩ := hsame
      rw [if_pos ⟨rfl, rfl⟩]
      rw [lastStates_append_of_states ((hstates _ _ _).mpr ⟨rfl, rfl, rfl⟩)
        fun other hother => ((hstates _ _ _).mp hother).2.2.symm]
      rw [Option.some.injEq]
      exact eq_comm
    · rw [if_neg hsame, haudited]
      symm
      apply lastStates_append_of_other
      intro other hother
      obtain ⟨hname, horganization, -⟩ := (hstates _ _ _).mp hother
      exact hsame ⟨hname, horganization⟩

/-- No event of the calls has the key of an event before it. -/
def KeysFresh (sha : Sha256) (events : List RegistryEvent) (calls : List GrantCall) : Prop :=
  (calls.map (·.eventKey sha)).Nodup ∧
    ∀ call ∈ calls, hasKey events (call.eventKey sha) = false

theorem Granted.keysFresh (h : Granted registry s call s') :
    KeysFresh registry.assess.sha s.events (call :: calls) ↔
      Registry.hasKey s.events (call.eventKey registry.assess.sha) = false ∧
        KeysFresh registry.assess.sha s'.events calls := by
  have hlater (other : GrantCall) :
      Registry.hasKey s'.events (other.eventKey registry.assess.sha) = false ↔
        Registry.hasKey s.events (other.eventKey registry.assess.sha) = false ∧
          other.eventKey registry.assess.sha ≠ call.eventKey registry.assess.sha := by
    rw [← Bool.not_eq_true, h.hasKey, not_or, Bool.not_eq_true]
  unfold KeysFresh
  simp only [List.map_cons, List.nodup_cons, List.forall_mem_cons, hlater, List.mem_map, not_exists,
    not_and]
  constructor
  · intro ⟨⟨hdistinct, hnodup⟩, hfirst, hrest⟩
    exact ⟨hfirst, hnodup, fun other hmem => ⟨hrest other hmem, hdistinct other hmem⟩⟩
  · intro ⟨hfirst, hnodup, hrest⟩
    exact ⟨⟨fun other hmem => (hrest other hmem).2, hnodup⟩, hfirst,
      fun other hmem => (hrest other hmem).1⟩

theorem GrantRun.extends (h : GrantRun registry s calls s') :
    ∃ more, s'.events = s.events ++ more := by
  induction h with
  | nil => exact ⟨[], (List.append_nil _).symm⟩
  | @cons s s' s'' call rest hfirst hrest ih =>
    obtain ⟨more, hmore⟩ := ih
    rcases hfirst.log with ⟨-, hsame⟩ | ⟨-, row, -, -, hevents⟩
    · exact ⟨more, by rw [hmore, hsame]⟩
    · exact ⟨row :: more, by rw [hmore, hevents, List.append_assoc, List.singleton_append]⟩

theorem GrantRun.length_le (h : GrantRun registry s calls s') :
    s'.events.length ≤ s.events.length + calls.length := by
  induction h with
  | nil => exact Nat.le_refl _
  | @cons s s' s'' call rest hfirst hrest ih =>
    have hstep : s'.events.length ≤ s.events.length + 1 := by
      rcases hfirst.log with ⟨-, hsame⟩ | ⟨-, row, -, -, hevents⟩
      · rw [hsame]
        exact Nat.le_succ _
      · rw [hevents, List.length_append]
        exact Nat.le_refl _
    rw [List.length_cons]
    omega

/-- Every grant keeps its event in the log, and the last events state the stored roles, exactly
when no event of the grants has the key of an earlier one. -/
theorem grants_audited_iff (registry : PostgresRegistry) (s s' : AuditedRegistry)
    (calls : List GrantCall) (haudited : RolesAudited s) (hrun : GrantRun registry s calls s') :
    (EventsAppended s calls s' ∧ RolesAudited s') ↔
      KeysFresh registry.assess.sha s.events calls := by
  induction hrun with
  | nil =>
    constructor
    · intro _
      exact ⟨List.nodup_nil, nofun⟩
    · intro _
      exact ⟨⟨[], by simp, rfl⟩, haudited⟩
  | @cons s s' s'' call rest hfirst hrest ih =>
    rw [hfirst.keysFresh]
    rcases hfirst.log with ⟨hkey, hsame⟩ | ⟨hkey, row, -, htext, hevents⟩
    · -- the event was there already: one call fewer than events wanted
      constructor
      · intro ⟨⟨rows, happended, htexts⟩, _⟩
        have hcount := congrArg List.length htexts
        have hlength := hrest.length_le
        rw [hsame, happended, List.length_append] at hlength
        simp only [List.length_map, List.length_cons] at hcount
        omega
      · intro hfresh
        rw [hkey] at hfresh
        cases hfresh.1
    · have haudited' := hfirst.rolesAudited haudited hkey
      rw [← ih haudited']
      constructor
      · intro ⟨⟨rows, happended, htexts⟩, hfinal⟩
        obtain ⟨more, hmore⟩ := hrest.extends
        have hrows : rows = row :: more := by
          rw [happended, hevents, List.append_assoc, List.append_cancel_left_eq] at hmore
          exact hmore
        rw [hrows, List.map_cons, List.map_cons] at htexts
        exact ⟨hkey, ⟨more, hmore, (List.cons.inj htexts).2⟩, hfinal⟩
      · intro ⟨_, ⟨rows, happended, htexts⟩, hfinal⟩
        refine ⟨⟨row :: rows, ?_, ?_⟩, hfinal⟩
        · rw [happended, hevents, List.append_assoc, List.singleton_append]
        · rw [List.map_cons, List.map_cons, htext, htexts]

end Runs

/-! ## A role that is granted twice -/

section Available
variable {registry : PostgresRegistry} {s : AuditedRegistry} {call : GrantCall}
  {package : PackageRow} {events : List RegistryEvent}

theorem grantStoredRole_available {s : RegistryState} (times : List ℕ)
    (hpackage : s.db.package call.name = some package)
    (howner : package.organization = call.principal.organization)
    (hadmin : call.principal.role = "admin")
    (hrole : call.request.role ∈ ["reader", "publisher", "admin"]) :
    grantStoredRole (.ok (some call.principal)) call.name call.request ⟨s, [], times⟩ =
      .ok call.principal
        ⟨{ s with db := ControlPlane.grantPackageRole s.db call.row }, [], times⟩ := by
  have hwriter : AuthorizedWriter s.db call.principal call.name package.organization :=
    .owner hpackage howner (by simp [canPublish, hadmin])
  unfold grantStoredRole
  rw [bind_available (authenticate_available call.principal _),
    bind_available (reject_ok.mpr ⟨by simp [hadmin], rfl⟩),
    bind_available (authorizeName_write hwriter),
    bind_available (reject_ok.mpr ⟨by simp [howner], rfl⟩),
    bind_available (reject_ok.mpr ⟨by rw [decide_eq_false_iff_not, not_not]; exact hrole, rfl⟩),
    bind_available (query_available _),
    bind_available (found_ok.mpr ⟨hpackage, rfl⟩),
    bind_available (reject_ok.mpr ⟨by simp [howner], rfl⟩)]
  rfl

/-- An administrator of the owner succeeds as soon as the log takes the event. -/
theorem Granted.of_available (hpackage : s.registry.db.package call.name = some package)
    (howner : package.organization = call.principal.organization)
    (hadmin : call.principal.role = "admin")
    (hrole : call.request.role ∈ ["reader", "publisher", "admin"]) (hfaults : call.faults = [])
    (happend : appendEvent registry call.event (call.times.headD 0) s.events = .ok events) :
    Granted registry s call
      ⟨{ s.registry with db := ControlPlane.grantPackageRole s.registry.db call.row }, events⟩ := by
  have hgrant := grantStoredRole_available call.times hpackage howner hadmin hrole
  have hstored : onRegistry (grantStoredRole (.ok (some call.principal)) call.name call.request)
      ⟨s, [], call.times⟩ = .ok call.principal ⟨{ s with
        registry := { s.registry with
          db := ControlPlane.grantPackageRole s.registry.db call.row } }, [], call.times⟩ := by
    unfold onRegistry within
    simp only [hgrant]
  have hrecord : recordEvent registry call.event ⟨{ s with
        registry := { s.registry with
          db := ControlPlane.grantPackageRole s.registry.db call.row } }, [], call.times⟩ =
      .ok () ⟨⟨{ s.registry with db := ControlPlane.grantPackageRole s.registry.db call.row },
        events⟩, [], call.times.tail⟩ := by
    refine EStateM.bind_eq_ok.mpr ⟨_, _, rfl, ?_⟩
    unfold mapError Service.call
    simp only [List.headD_nil, happend]
    rfl
  rw [← hfaults] at hstored
  exact ⟨_, _, EStateM.bind_eq_ok.mpr ⟨_, _, hstored, EStateM.bind_eq_ok.mpr
    ⟨_, _, hfaults ▸ hrecord, rfl⟩⟩, rfl⟩

end Available

/-- The log has not been fed yet. -/
def demoAudited : AuditedRegistry := ⟨run demoRegistry (.empty 1) demoCalls, []⟩

def demoGrant (role : String) : GrantCall where
  principal := demoAdmin
  name := "demo"
  request := { principalOrg := "partner", role }
  faults := []
  times := [demoTime]

/-- The text of the grant's event. -/
def grantText (role : String) : String :=
  let entry := fun key value => Value.quote key ++ ":" ++ Value.quote value
  "\x7b" ++ ",".intercalate [
    entry "name" "demo",
    entry "owner_org" "acme",
    entry "principal_org" "partner",
    entry "role" role,
    entry "type" "package.role_granted"] ++ "\x7d"

theorem roleGrantedEvent_demo (role : String) :
    roleGrantedEvent "demo" "acme" "partner" role = .object [
      ("name", .string "demo"),
      ("owner_org", .string "acme"),
      ("principal_org", .string "partner"),
      ("role", .string role),
      ("type", .string "package.role_granted")] := by
  have h₁ : "name" < "type" := by decide
  have h₂ : "owner_org" < "type" ∧ ¬ "owner_org" < "name" := by decide
  have h₃ : "principal_org" < "type" ∧ ¬ "principal_org" < "owner_org" ∧
    ¬ "principal_org" < "name" := by decide
  have h₄ : "role" < "type" ∧ ¬ "role" < "principal_org" ∧ ¬ "role" < "owner_org" ∧
    ¬ "role" < "name" := by decide
  simp only [roleGrantedEvent, Value.json, List.foldl, Value.insertField, h₁, h₂, h₃, h₄, if_true,
    if_false, String.reduceEq]

theorem eventText_demoGrant (role : String) :
    eventText (demoGrant role).event = grantText role := by
  have hsorted : (["name", "owner_org", "principal_org", "role", "type"] : List String).Pairwise
      fun a b => a ≤ b := by decide
  change (roleGrantedEvent "demo" "acme" "partner" role).canonical = grantText role
  rw [roleGrantedEvent_demo, Value.canonical]
  simp only [Value.canonicalFields, Value.canonical]
  rw [List.mergeSort_of_pairwise (List.Pairwise.of_map Prod.fst (fun _ _ h => decide_eq_true h) hsorted)]
  rfl

def demoRow (role previous : String) : RegistryEvent :=
  linkedEvent demoRegistry (directKey demoRegistry.assess.sha (demoGrant role).event)
    (demoGrant role).event previous demoTime

/-- The log after the role has been granted, changed and granted again. -/
def demoEvents : List RegistryEvent :=
  [demoRow "reader" "GENESIS", demoRow "publisher" (demoRow "reader" "GENESIS").eventHash]

theorem demo_keys : directKey demoRegistry.assess.sha (demoGrant "reader").event ≠
    directKey demoRegistry.assess.sha (demoGrant "publisher").event := by
  unfold directKey
  rw [eventText_demoGrant, eventText_demoGrant]
  decide +kernel

theorem demo_hashes : (demoRow "reader" "GENESIS").eventHash ≠
    (demoRow "publisher" (demoRow "reader" "GENESIS").eventHash).eventHash := by
  have htext (role previous : String) : (demoRow role previous).eventHash =
      linkHash demoRegistry.assess.sha previous (grantText role) := by
    rw [← eventText_demoGrant]
    rfl
  rw [htext, htext]
  decide +kernel

theorem demoAudited_registry :
    demoAudited.registry = run demoRegistry (.empty 1) demoCalls := by
  unfold demoAudited
  dsimp only

theorem demo_package : demoAudited.registry.db.package "demo" = some demoPackage := by
  rw [demoAudited_registry]
  exact package_of_rows demo_published.1

theorem demo_rolesAudited : RolesAudited demoAudited := by
  have hrows : demoAudited.registry.db.packageRoles.rows = [] := by
    rw [demoAudited_registry]
    exact demo_published.2.1
  intro name principalOrg role
  have hnone : demoAudited.registry.db.packageRole name principalOrg = none := by
    unfold packageRole Table.find?
    rw [hrows]
    rfl
  rw [hnone]
  constructor
  · intro hsome
    cases hsome
  · intro ⟨before, event, after, hevents, _⟩
    simp [demoAudited] at hevents

theorem append_first : appendEvent demoRegistry (demoGrant "reader").event demoTime [] =
    .ok [demoRow "reader" "GENESIS"] := rfl

theorem append_second : appendEvent demoRegistry (demoGrant "publisher").event demoTime
    [demoRow "reader" "GENESIS"] = .ok demoEvents := by
  have hkey : hasKey [demoRow "reader" "GENESIS"] (directKey demoRegistry.assess.sha
      (demoGrant "publisher").event) = false := by
    unfold hasKey
    rw [List.any_cons, List.any_nil, Bool.or_false]
    exact decide_eq_false demo_keys
  unfold appendEvent appendEventKeyed
  rw [if_neg (by simp [hkey])]
  apply insertEvent_ok.mpr
  refine ⟨fun other hother => ?_, hkey, rfl⟩
  rw [List.mem_singleton.mp hother]
  exact demo_hashes

theorem append_third : appendEvent demoRegistry (demoGrant "reader").event demoTime demoEvents =
    .ok demoEvents := by
  unfold appendEvent appendEventKeyed
  exact if_pos (hasKey_iff.mpr ⟨demoRow "reader" "GENESIS", List.mem_cons_self, rfl⟩)

def afterGrant (s : AuditedRegistry) (role : String) (events : List RegistryEvent) :
    AuditedRegistry where
  registry := { s.registry with
    db := ControlPlane.grantPackageRole s.registry.db (demoGrant role).row }
  events

theorem afterGrant_packages (s : AuditedRegistry) (role : String) (events : List RegistryEvent) :
    (afterGrant s role events).registry.db.packages = s.registry.db.packages := rfl

theorem demo_granted (s : AuditedRegistry) (role : String) (events : List RegistryEvent)
    (hpackages : s.registry.db.packages = demoAudited.registry.db.packages)
    (hrole : role ∈ ["reader", "publisher", "admin"])
    (happend : appendEvent demoRegistry (demoGrant role).event demoTime s.events = .ok events) :
    Granted demoRegistry s (demoGrant role) (afterGrant s role events) := by
  have hpackage : s.registry.db.package "demo" = some demoPackage := by
    rw [package, hpackages]
    exact demo_package
  exact Granted.of_available hpackage rfl rfl hrole rfl happend

theorem grants_audited_demo : RolesAudited demoAudited ∧
    ∃ s', GrantRun demoRegistry demoAudited [demoGrant "reader"] s' ∧
      EventsAppended demoAudited [demoGrant "reader"] s' ∧ RolesAudited s' := by
  have hfirst := demo_granted demoAudited "reader" _ rfl (by decide) append_first
  have hrun := GrantRun.cons hfirst .nil
  have hfresh : KeysFresh demoRegistry.assess.sha demoAudited.events [demoGrant "reader"] :=
    ⟨List.nodup_singleton _, fun call _ => rfl⟩
  refine ⟨demo_rolesAudited, _, hrun, ?_⟩
  exact (grants_audited_iff demoRegistry demoAudited _ _ demo_rolesAudited hrun).mpr hfresh

/-- A role that is granted again after another leaves the other one in the log. -/
theorem grants_unaudited : ¬ ∀ registry s calls s', RolesAudited s →
    GrantRun registry s calls s' → RolesAudited s' := by
  intro hall
  have hfirst := demo_granted demoAudited "reader" _ rfl (by decide) append_first
  have hsecond := demo_granted (afterGrant demoAudited "reader" [demoRow "reader" "GENESIS"])
    "publisher" _ (afterGrant_packages _ _ _) (by decide) append_second
  have hthird := demo_granted (afterGrant (afterGrant demoAudited "reader"
    [demoRow "reader" "GENESIS"]) "publisher" demoEvents) "reader" _
    ((afterGrant_packages _ _ _).trans (afterGrant_packages _ _ _)) (by decide) append_third
  have haudited := hall demoRegistry demoAudited _ _ demo_rolesAudited
    (.cons hfirst (.cons hsecond (.cons hthird .nil)))
  have hstored (s : AuditedRegistry) : (afterGrant s "reader" demoEvents).registry.db.packageRole
      "demo" "partner" = some "reader" := by
    unfold afterGrant
    rw [grantPackageRole_packageRole]
    rfl
  have hlast : LastStates ([demoRow "reader" "GENESIS"] ++ [demoRow "publisher"
      (demoRow "reader" "GENESIS").eventHash]) "demo" "partner" "reader" :=
    (haudited "demo" "partner" "reader").mp (hstored _)
  have hrow : (demoRow "publisher" (demoRow "reader" "GENESIS").eventHash).eventJson =
      eventText (demoGrant "publisher").event := rfl
  have hstates := statesRole_of_grant hrow
  have hpublisher := (hstates "demo" "partner" "publisher").mpr ⟨rfl, rfl, rfl⟩
  rw [lastStates_append_of_states hpublisher
    fun other hother => ((hstates _ _ _).mp hother).2.2.symm] at hlast
  exact absurd hlast (by decide)

end Oath.Registry
