import Oath.Registry.Delivery

/-! What a transaction leaves behind, and every way in which the delivery of events can move. -/

namespace Oath.Registry
open Contracts Database

/-! ## What a transaction leaves in the outbox -/

theorem insertOutbox_insert {db db' : Database} {eventKey : String} {event : Value} {now : ℕ}
    (h : db.insertOutbox eventKey event now = .ok db') :
    db.outbox.insert? { eventKey, event, availableAt := now, createdAt := now } =
      some db'.outbox := by
  obtain ⟨outbox, hinsert, h⟩ := Except.bind_eq_ok.mp h
  obtain rfl := Except.ok.inj h
  exact unique_eq_ok.mp hinsert

theorem createStage_outbox {db db' : Database} {stage : StageRecord} {eventKey : String}
    {event : Value} {maximumPendingStages now : ℕ}
    (h : ControlPlane.createStage db stage eventKey event maximumPendingStages now =
      .ok (true, db')) :
    db.outbox.insert? { eventKey, event, availableAt := now, createdAt := now } =
      some db'.outbox := by
  unfold ControlPlane.createStage at h
  split_ifs at h
  · cases h
  · dsimp only at h
    split at h
    · cases h
    · split_ifs at h
      obtain ⟨db₁, hstage, h1⟩ := Except.bind_eq_ok.mp h
      obtain ⟨db₂, houtbox, h2⟩ := Except.bind_eq_ok.mp h1
      obtain ⟨-, rfl⟩ := Prod.mk.inj (Except.ok.inj h2)
      obtain ⟨-, -, stages, rfl, -⟩ := insertStage_ok hstage
      have hinsert := insertOutbox_insert houtbox
      exact hinsert

theorem applyDecision_outbox {db db' : Database} {stage : StageRecord} {approve : Bool}
    {reason : Option String} {publishedAt : ℕ}
    (h : ControlPlane.applyDecision db stage approve reason publishedAt = .ok db') :
    db'.outbox = db.outbox := by
  unfold ControlPlane.applyDecision at h
  cases approve with
  | true =>
    obtain ⟨db₁, hversion, h1⟩ := Except.bind_eq_ok.mp h
    obtain ⟨versions, -, h2⟩ := Except.bind_eq_ok.mp hversion
    obtain rfl := Except.ok.inj h1
    obtain rfl := Except.ok.inj h2
    rfl
  | false =>
    obtain rfl := Except.ok.inj h
    rfl

theorem decideStage_outbox {db db' : Database} {stage : StageRecord} {approve : Bool}
    {reason : Option String} {eventKey : String} {event : Value} {publishedAt now : ℕ}
    (h : ControlPlane.decideStage db stage approve reason eventKey event publishedAt now =
      .ok (true, db')) :
    db.outbox.insert? { eventKey, event, availableAt := now, createdAt := now } =
      some db'.outbox := by
  unfold ControlPlane.decideStage at h
  split_ifs at h
  · cases h
  · obtain ⟨db₁, hdecided, h1⟩ := Except.bind_eq_ok.mp h
    obtain ⟨db₂, houtbox, h2⟩ := Except.bind_eq_ok.mp h1
    obtain ⟨-, rfl⟩ := Prod.mk.inj (Except.ok.inj h2)
    rw [← applyDecision_outbox hdecided]
    exact insertOutbox_insert houtbox

theorem revokeVersion_outbox {semver : SemVer} {db db' : Database} {tombstone : TombstoneRow}
    {eventKey : String} {event : Value} {now : ℕ}
    (h : ControlPlane.revokeVersion semver db tombstone eventKey event now = .ok (true, db')) :
    db.outbox.insert? { eventKey, event, availableAt := now, createdAt := now } =
      some db'.outbox := by
  unfold ControlPlane.revokeVersion at h
  split_ifs at h
  · cases h
  · obtain ⟨db₁, houtbox, h1⟩ := Except.bind_eq_ok.mp h
    obtain ⟨-, rfl⟩ := Prod.mk.inj (Except.ok.inj h1)
    have hinsert := insertOutbox_insert houtbox
    rw [moveTags_outbox] at hinsert
    exact hinsert

/-- A transaction that commits has added its event under its key. -/
theorem Transaction.apply_outbox {registry : PostgresRegistry} {tx : Transaction}
    {db db' : Database} {now : ℕ} (h : tx.apply registry db now = .ok (true, db')) :
    ∃ row : OutboxRow, row.eventKey = tx.eventKey ∧ row.event = tx.event ∧
      db.outbox.insert? row = some db'.outbox := by
  cases tx with
  | createStage stage principal => exact ⟨_, rfl, rfl, createStage_outbox h⟩
  | decideStage stage approve reason principal publishedAt =>
    exact ⟨_, rfl, rfl, decideStage_outbox h⟩
  | revokeVersion tombstone => exact ⟨_, rfl, rfl, revokeVersion_outbox h⟩

/-- What a committed transaction has made is new, and everything older is still there. -/
structure Applied (tx : Transaction) (db db' : Database) : Prop where
  created_new : ∀ id, tx.creates id → db.stages.find? id = none
  stages : ∀ id, (db'.stages.find? id).isSome ↔ (db.stages.find? id).isSome ∨ tx.creates id
  published_new : ∀ key, tx.publishes key → db.versions.find? key = none
  versions : ∀ key,
    (db'.versions.find? key).isSome ↔ (db.versions.find? key).isSome ∨ tx.publishes key
  tombstones : ∀ key row, db'.tombstones.find? key = some row →
    db.tombstones.find? key = some row ∨ tx = .revokeVersion row

theorem isSome_ite {α : Type} {p : Prop} [Decidable p] {a : α} {x : Option α} :
    (if p then some a else x).isSome ↔ x.isSome ∨ p := by
  split_ifs with hp
  · simp [hp]
  · simp [hp]

theorem isSome_map_ite {α : Type} {p : Prop} [Decidable p] {f : α → α} {x : Option α} :
    (if p then x.map f else x).isSome ↔ x.isSome := by
  split_ifs
  · simp
  · rfl

theorem Transaction.applied {registry : PostgresRegistry} {tx : Transaction} {db db' : Database}
    {now : ℕ} (h : tx.apply registry db now = .ok (true, db')) : Applied tx db db' := by
  cases tx with
  | createStage stage principal =>
    obtain ⟨hfalse, -⟩ | ⟨-, hstaged⟩ := createStage_ok h
    · cases hfalse
    · refine ⟨fun id hid => hid ▸ hstaged.id_new, fun id => ?_, nofun, fun key => ?_,
        fun key row hrow => ?_⟩
      · rw [hstaged.stages]
        exact isSome_ite
      · rw [hstaged.versions]
        exact (iff_of_eq (or_false _)).symm
      · rw [hstaged.tombstones] at hrow
        exact Or.inl hrow
  | decideStage stage approve reason principal publishedAt =>
    obtain ⟨hfalse, -⟩ | ⟨-, hdecided⟩ := decideStage_ok h
    · cases hfalse
    · cases approve with
      | true =>
        refine ⟨nofun, fun id => ?_, fun key hkey => hkey ▸ hdecided.version_new, fun key => ?_,
          fun key row hrow => ?_⟩
        · rw [hdecided.stages]
          exact isSome_map_ite.trans (iff_of_eq (or_false _)).symm
        · rw [hdecided.versions]
          exact isSome_ite
        · rw [hdecided.tombstones] at hrow
          exact Or.inl hrow
      | false =>
        refine ⟨nofun, fun id => ?_, nofun, fun key => ?_, fun key row hrow => ?_⟩
        · rw [hdecided.stages]
          exact isSome_map_ite.trans (iff_of_eq (or_false _)).symm
        · rw [hdecided.versions]
          exact (iff_of_eq (or_false _)).symm
        · rw [hdecided.tombstones] at hrow
          exact Or.inl hrow
  | revokeVersion tombstone =>
    obtain ⟨hfalse, -⟩ | ⟨-, hrevoked⟩ := revokeVersion_ok h
    · cases hfalse
    · refine ⟨nofun, fun id => ?_, nofun, fun key => ?_, fun key row hrow => ?_⟩
      · rw [hrevoked.stages]
        exact (iff_of_eq (or_false _)).symm
      · rw [hrevoked.versions]
        exact isSome_map_ite.trans (iff_of_eq (or_false _)).symm
      · rw [hrevoked.tombstones] at hrow
        split_ifs at hrow
        · exact Or.inr (congrArg Transaction.revokeVersion (Option.some.inj hrow))
        · exact Or.inl hrow

/-! ## What a step can do -/

/-- Every way an action can move the system, with what it has found before. -/
inductive Moved (registry : PostgresRegistry) (s : AuditSystem) :
    Action → AuditSystem → Prop
  | same {action : Action} : Moved registry s action s
  | reserved {action : Action} {tx : Transaction} (hready : tx.ready s.db = true) :
    Moved registry s action
      { s with nextId := s.nextId + 1, transactions := (s.nextId, tx) :: s.transactions }
  | abandoned {action : Action} (id : ℕ) : Moved registry s action (s.abandon id)
  | committed {action : Action} {id now : ℕ} {tx : Transaction} {db : Database}
    (hrunning : (id, tx) ∈ s.transactions)
    (happly : tx.apply registry s.db now = .ok (true, db)) :
    Moved registry s action { s.abandon id with
      db
      deliveries := s.deliveries.upsert {
        eventKey := tx.eventKey
        id
        attempts := 0
        deliveredAt := none }
      commits := s.commits ++ [tx] }
  | granted {action : Action} (row : PackageRoleRow) :
    Moved registry s action { s with db := ControlPlane.grantPackageRole s.db row }
  | downloaded {action : Action} (name version : String) :
    Moved registry s action { s with db := s.db.recordDownload name version }
  | drained {w : ℕ} (now : ℕ) (hworker : s.workers w = .idle) :
    Moved registry s (.drain w now) (s.setWorker w (.draining (s.pendingOutbox now 100)))
  | started {action : Action} {w : ℕ} (event : Value) (hworker : s.workers w = .idle) :
    Moved registry s action
      (s.setWorker w (.appending ⟨none, directKey registry.assess.sha event, event⟩ .begun []))
  | finished {action : Action} (w : ℕ) : Moved registry s action (s.setWorker w .idle)
  | taken {action : Action} {w : ℕ} {row : PendingRow} {rest : List PendingRow}
    (hworker : s.workers w = .draining (row :: rest)) :
    Moved registry s action (s.setWorker w (.appending row.job .begun rest))
  | acquired {action : Action} {w : ℕ} {job : Job} {rest : List PendingRow}
    (hworker : s.workers w = .appending job .begun rest) (hlock : s.lock = none) :
    Moved registry s action
      { s.setWorker w (.appending job .locked rest) with lock := some (.worker w) }
  | seen {action : Action} {w : ℕ} {job : Job} {rest : List PendingRow}
    (hworker : s.workers w = .appending job .locked rest)
    (hkey : hasKey s.events job.eventKey = true) :
    Moved registry s action
      { s.setWorker w (.appending job .appended rest) with lock := s.released w }
  | unseen {action : Action} {w : ℕ} {job : Job} {rest : List PendingRow}
    (hworker : s.workers w = .appending job .locked rest)
    (hkey : hasKey s.events job.eventKey = false) :
    Moved registry s action (s.setWorker w (.appending job .absent rest))
  | read {action : Action} {w : ℕ} {job : Job} {rest : List PendingRow}
    (hworker : s.workers w = .appending job .absent rest) :
    Moved registry s action (s.setWorker w (.appending job (.linked (latestHash s.events)) rest))
  | inserted {action : Action} {w now : ℕ} {job : Job} {previous : String} {rest : List PendingRow}
    {events : List RegistryEvent} (hworker : s.workers w = .appending job (.linked previous) rest)
    (hinsert : insertEvent s.events (linkedEvent registry job.eventKey job.event previous now) =
      .ok events) :
    Moved registry s action (s.setWorker w (.appending job
      (.inserted (linkedEvent registry job.eventKey job.event previous now)) rest))
  | appended {action : Action} {w : ℕ} {job : Job} {event : RegistryEvent} {rest : List PendingRow}
    (hworker : s.workers w = .appending job (.inserted event) rest) :
    Moved registry s action { s.setWorker w (.appending job .appended rest) with
      events := s.events ++ [event]
      lock := s.released w }
  | failed {action : Action} {w : ℕ} {job : Job} {progress : Progress} {rest : List PendingRow}
    (hworker : s.workers w = .appending job progress rest) :
    Moved registry s action { s.setWorker w (.appending job .failed rest) with lock := s.released w }
  | lost {action : Action} {w : ℕ} {job : Job} {event : RegistryEvent} {rest : List PendingRow}
    (hworker : s.workers w = .appending job (.inserted event) rest) :
    Moved registry s action
      { s.setWorker w (.appending job .failed rest) with lock := some (.lost event) }
  | settled {action : Action} {event : RegistryEvent} (hlock : s.lock = some (.lost event)) :
    Moved registry s action { s with events := s.events ++ [event], lock := none }
  | undone {action : Action} {event : RegistryEvent} (hlock : s.lock = some (.lost event)) :
    Moved registry s action { s with lock := none }
  | acknowledged {action : Action} {w id : ℕ} {eventKey : String} {event : Value} {rest : List PendingRow} (now : ℕ)
    (hworker : s.workers w = .appending ⟨some id, eventKey, event⟩ .appended rest) :
    Moved registry s action ((s.markOutboxDelivered id now).setWorker w (.draining rest))
  | retried {w id : ℕ} {eventKey : String} {event : Value} {rest : List PendingRow} (now : ℕ)
    (hworker : s.workers w = .appending ⟨some id, eventKey, event⟩ .failed rest) :
    Moved registry s (.retry w now) ((s.retryOutbox id now).setWorker w (.draining rest))
  | stopped {action : Action} (w : ℕ) : Moved registry s action { s.setWorker w .idle with lock := s.released w }

section Moves
variable (registry : PostgresRegistry) (s : AuditSystem) {action : Action}

theorem fail_moved (w : ℕ) : Moved registry s action (s.fail w) := by
  unfold AuditSystem.fail
  split
  · exact .same
  · next hworker => exact .failed hworker
  · exact .same

theorem commit_moved (id now : ℕ) : Moved registry s action (s.commit registry id now) := by
  unfold AuditSystem.commit
  split
  · exact .same
  · next hfind =>
    have hmem := List.mem_of_find?_eq_some hfind
    obtain rfl : _ = id := by simpa using List.find?_some hfind
    split
    · next happly => exact .committed hmem happly
    · exact .abandoned _

theorem drain_moved (w now : ℕ) : Moved registry s (.drain w now) (s.drain w now) := by
  unfold AuditSystem.drain
  split
  · next hworker => exact .drained now hworker
  · exact .same

theorem direct_moved (w : ℕ) (event : Value) :
    Moved registry s action (s.direct registry w event) := by
  unfold AuditSystem.direct
  split
  · next hworker => exact .started event hworker
  · exact .same

theorem next_moved (w : ℕ) : Moved registry s action (s.next w) := by
  unfold AuditSystem.next
  split
  · exact .finished w
  · next hworker => exact .taken hworker
  · exact .same

theorem acquire_moved (w : ℕ) : Moved registry s action (s.acquire w) := by
  unfold AuditSystem.acquire
  split
  · next hworker hlock => exact .acquired hworker hlock
  · exact .same

theorem look_moved (w : ℕ) : Moved registry s action (s.look w) := by
  unfold AuditSystem.look
  split
  · next hworker =>
    split_ifs with hkey
    · exact .seen hworker hkey
    · exact .unseen hworker (by simpa using hkey)
  · exact .same

theorem insert_moved (w now : ℕ) : Moved registry s action (s.insert registry w now) := by
  unfold AuditSystem.insert
  split
  · next hworker =>
    dsimp only
    split
    · next hinsert => exact .inserted hworker hinsert
    · exact fail_moved registry s w
  · exact .same

theorem commitEvent_moved (w : ℕ) : Moved registry s action (s.commitEvent w) := by
  unfold AuditSystem.commitEvent
  split
  · next hworker => exact .appended hworker
  · exact .same

theorem lose_moved (w : ℕ) : Moved registry s action (s.lose w) := by
  unfold AuditSystem.lose
  split
  · next hworker => exact .lost hworker
  · exact .same

theorem settle_moved (committed : Bool) : Moved registry s action (s.settle committed) := by
  unfold AuditSystem.settle
  split
  · next hlock =>
    cases committed with
    | true => exact .settled hlock
    | false => exact .undone hlock
  · exact .same

theorem acknowledge_moved (w now : ℕ) : Moved registry s action (s.acknowledge w now) := by
  unfold AuditSystem.acknowledge
  split
  · next hworker => exact .acknowledged now hworker
  · exact .finished w
  · exact .same

theorem retry_moved (w now : ℕ) : Moved registry s (.retry w now) (s.retry w now) := by
  unfold AuditSystem.retry
  split
  · next hworker => exact .retried now hworker
  · exact .finished w
  · exact .same

theorem step_moved (action : Action) : Moved registry s action (step registry s action) := by
  cases action with
  | reserve tx =>
    change Moved registry s _ (s.reserve tx)
    unfold AuditSystem.reserve
    split_ifs with hready
    · exact .reserved hready
    · exact .same
  | abandon id => exact .abandoned id
  | commit id now => exact commit_moved registry s id now
  | grantRole row => exact .granted row
  | download name version => exact .downloaded name version
  | drain w now => exact drain_moved registry s w now
  | direct w event => exact direct_moved registry s w event
  | next w => exact next_moved registry s w
  | acquire w => exact acquire_moved registry s w
  | look w => exact look_moved registry s w
  | readPrevious w =>
    change Moved registry s _ (s.readPrevious w)
    unfold AuditSystem.readPrevious
    split
    · next hworker => exact .read hworker
    · exact .same
  | insert w now => exact insert_moved registry s w now
  | commitEvent w => exact commitEvent_moved registry s w
  | fail w => exact fail_moved registry s w
  | lose w => exact lose_moved registry s w
  | settle committed => exact settle_moved registry s committed
  | acknowledge w now => exact acknowledge_moved registry s w now
  | retry w now => exact retry_moved registry s w now
  | stop w => exact .stopped w

end Moves

end Oath.Registry
