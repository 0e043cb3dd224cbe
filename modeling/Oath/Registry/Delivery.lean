import Mathlib.Data.List.Sort
import Oath.Registry.AuditLog
import Oath.Registry.Revocation

/-! How events reach the audit log. A transaction leaves its event in the outbox; workers take
what is pending there and append it, one lock for all of them, and any of their statements can
fail. Every statement is a step of its own. -/

namespace Oath.Registry
open Contracts Database

/-! ## Transactions that leave an event -/

inductive Transaction
  | createStage (stage : StageRecord) (principal : Principal)
  | decideStage (stage : StageRecord) (approve : Bool) (reason : Option String)
    (principal : Principal) (publishedAt : ℕ)
  | revokeVersion (tombstone : TombstoneRow)

namespace Transaction

def eventKey : Transaction → String
  | createStage stage _ => "stage.created:" ++ stage.id
  | decideStage stage approve _ _ _ =>
    "stage." ++ (if approve then "approved" else "rejected") ++ ":" ++ stage.id
  | revokeVersion tombstone => revocationKey tombstone

def event : Transaction → Value
  | createStage stage principal => stageEvent stage principal
  | decideStage stage approve reason principal _ =>
    decisionEvent stage stage.id approve reason principal
  | revokeVersion tombstone => revocationEvent tombstone

def apply (registry : PostgresRegistry) (db : Database) (now : ℕ) :
    Transaction → Except String (Bool × Database)
  | tx@(createStage stage _) =>
    ControlPlane.createStage db stage tx.eventKey tx.event registry.maximumPendingStages now
  | tx@(decideStage stage approve reason _ publishedAt) =>
    ControlPlane.decideStage db stage approve reason tx.eventKey tx.event publishedAt now
  | tx@(revokeVersion tombstone) =>
    ControlPlane.revokeVersion registry.semver db tombstone tx.eventKey tx.event now

/-- What the transaction has found before it inserts its event. -/
def ready (db : Database) : Transaction → Bool
  | createStage _ _ => true
  | decideStage stage _ _ _ _ => (db.stages.find? stage.id).any fun row =>
      row.name = stage.name ∧ row.version = stage.version
  | revokeVersion tombstone => (db.version tombstone.name tombstone.version).isSome

/-- The stage and the version that a transaction makes, and the ones it needs. -/
def creates (id : String) : Transaction → Prop
  | createStage stage _ => stage.id = id
  | _ => False

def publishes (key : String × String) : Transaction → Prop
  | decideStage stage true _ _ _ => (stage.name, stage.version) = key
  | _ => False

def decides (id : String) : Transaction → Prop
  | decideStage stage _ _ _ _ => stage.id = id
  | _ => False

def revokes (key : String × String) : Transaction → Prop
  | revokeVersion tombstone => (tombstone.name, tombstone.version) = key
  | _ => False

end Transaction

/-! ## The system -/

/-- The other columns of an outbox row. -/
structure Delivery where
  eventKey : String
  id : ℕ
  attempts : ℕ
  deliveredAt : Option ℕ
deriving DecidableEq, Repr

/-- A row as `pending_outbox` returns it. -/
structure PendingRow where
  id : ℕ
  eventKey : String
  event : Value

/-- An event to append, and the outbox row it comes from, if it comes from one. -/
structure Job where
  row : Option ℕ
  eventKey : String
  event : Value

def PendingRow.job (row : PendingRow) : Job := ⟨some row.id, row.eventKey, row.event⟩

/-- How far `append_event_keyed` has come. -/
inductive Progress
  | begun
  | locked
  | absent
  | linked (previous : String)
  | inserted (event : RegistryEvent)
  | appended
  | failed

/-- A worker runs `drain_outbox`, with the rest of the rows it has read, or `append_event`. -/
inductive Worker
  | idle
  | draining (rest : List PendingRow)
  | appending (job : Job) (progress : Progress) (rest : List PendingRow)

/-- Who holds the lock of the log: a worker, or the transaction of one that has lost its
connection while it was committing. -/
inductive Holder
  | worker (w : ℕ)
  | lost (event : RegistryEvent)
deriving DecidableEq

/-- The ids of the outbox come from a sequence; a transaction takes its id before it commits.
The commits are kept for the statements only. -/
structure AuditSystem where
  db : Database
  deliveries : Table Delivery.eventKey
  nextId : ℕ
  transactions : List (ℕ × Transaction)
  events : List RegistryEvent
  lock : Option Holder
  workers : ℕ → Worker
  commits : List Transaction

def AuditSystem.start : AuditSystem where
  db := .empty
  deliveries := .empty
  nextId := 1
  transactions := []
  events := []
  lock := none
  workers := fun _ => .idle
  commits := []

namespace AuditSystem
variable (registry : PostgresRegistry) (s : AuditSystem)

/-! ## The outbox -/

def pendingRow (now : ℕ) (delivery : Delivery) : Option PendingRow :=
  if delivery.deliveredAt = none then
    ((s.db.outbox.find? delivery.eventKey).filter fun row => row.availableAt ≤ now).map
      fun row => ⟨delivery.id, row.eventKey, row.event⟩
  else none

def pendingOutbox (now limit : ℕ) : List PendingRow :=
  ((s.deliveries.rows.filterMap (s.pendingRow now)).insertionSort
    fun a b => a.id ≤ b.id).take limit

def delivered (now : ℕ) (delivery : Delivery) : Delivery :=
  { delivery with deliveredAt := some now }

theorem delivered_key (now : ℕ) (delivery : Delivery) :
    (delivered now delivery).eventKey = delivery.eventKey := rfl

def markOutboxDelivered (id now : ℕ) : AuditSystem :=
  { s with
    deliveries := s.deliveries.update (fun delivery => delivery.id = id) (delivered now)
      (delivered_key now) }

def retried (delivery : Delivery) : Delivery :=
  { delivery with attempts := delivery.attempts + 1 }

theorem retried_key (delivery : Delivery) : (retried delivery).eventKey = delivery.eventKey := rfl

def postponed (now : ℕ) (row : OutboxRow) : OutboxRow := { row with availableAt := now + 5 }

theorem postponed_key (now : ℕ) (row : OutboxRow) :
    (postponed now row).eventKey = row.eventKey := rfl

def retryOutbox (id now : ℕ) : AuditSystem :=
  let ofRow := fun row : OutboxRow => s.deliveries.rows.any fun delivery =>
    delivery.id = id && delivery.eventKey = row.eventKey
  { s with
    db := { s.db with outbox := s.db.outbox.update ofRow (postponed now) (postponed_key now) }
    deliveries := s.deliveries.update (fun delivery => delivery.id = id) retried retried_key }

/-! ## The transactions -/

def reserve (tx : Transaction) : AuditSystem :=
  if tx.ready s.db then
    { s with nextId := s.nextId + 1, transactions := (s.nextId, tx) :: s.transactions }
  else s

def abandon (id : ℕ) : AuditSystem :=
  { s with transactions := s.transactions.filter fun running => running.1 ≠ id }

def commit (id now : ℕ) : AuditSystem :=
  match s.transactions.find? fun running => running.1 = id with
  | none => s
  | some (_, tx) =>
    match tx.apply registry s.db now with
    | .ok (true, db) =>
      { s.abandon id with
        db
        deliveries := s.deliveries.upsert {
          eventKey := tx.eventKey
          id
          attempts := 0
          deliveredAt := none }
        commits := s.commits ++ [tx] }
    | _ => s.abandon id

/-! ## The workers -/

def setWorker (w : ℕ) (worker : Worker) : AuditSystem :=
  { s with workers := Function.update s.workers w worker }

def released (w : ℕ) : Option Holder :=
  if s.lock = some (.worker w) then none else s.lock

def drain (w now : ℕ) : AuditSystem :=
  match s.workers w with
  | .idle => s.setWorker w (.draining (s.pendingOutbox now 100))
  | _ => s

def direct (w : ℕ) (event : Value) : AuditSystem :=
  match s.workers w with
  | .idle =>
    s.setWorker w (.appending ⟨none, directKey registry.assess.sha event, event⟩ .begun [])
  | _ => s

def next (w : ℕ) : AuditSystem :=
  match s.workers w with
  | .draining [] => s.setWorker w .idle
  | .draining (row :: rest) => s.setWorker w (.appending row.job .begun rest)
  | _ => s

/-- `pg_advisory_xact_lock`. -/
def acquire (w : ℕ) : AuditSystem :=
  match s.workers w, s.lock with
  | .appending job .begun rest, none =>
    { s.setWorker w (.appending job .locked rest) with lock := some (.worker w) }
  | _, _ => s

/-- A key that is in the log ends the transaction. -/
def look (w : ℕ) : AuditSystem :=
  match s.workers w with
  | .appending job .locked rest =>
    if hasKey s.events job.eventKey then
      { s.setWorker w (.appending job .appended rest) with lock := s.released w }
    else s.setWorker w (.appending job .absent rest)
  | _ => s

def readPrevious (w : ℕ) : AuditSystem :=
  match s.workers w with
  | .appending job .absent rest =>
    s.setWorker w (.appending job (.linked (latestHash s.events)) rest)
  | _ => s

/-- A statement fails, and its transaction with it. -/
def fail (w : ℕ) : AuditSystem :=
  match s.workers w with
  | .appending _ .appended _ => s
  | .appending job _ rest =>
    { s.setWorker w (.appending job .failed rest) with lock := s.released w }
  | _ => s

def insert (w now : ℕ) : AuditSystem :=
  match s.workers w with
  | .appending job (.linked previous) rest =>
    let event := linkedEvent registry job.eventKey job.event previous now
    match insertEvent s.events event with
    | .ok _ => s.setWorker w (.appending job (.inserted event) rest)
    | .error _ => s.fail w
  | _ => s

def commitEvent (w : ℕ) : AuditSystem :=
  match s.workers w with
  | .appending job (.inserted event) rest =>
    { s.setWorker w (.appending job .appended rest) with
      events := s.events ++ [event]
      lock := s.released w }
  | _ => s

/-- The connection breaks during the commit: the worker sees an error, the transaction is not
over. -/
def lose (w : ℕ) : AuditSystem :=
  match s.workers w with
  | .appending job (.inserted event) rest =>
    { s.setWorker w (.appending job .failed rest) with lock := some (.lost event) }
  | _ => s

def settle (committed : Bool) : AuditSystem :=
  match s.lock with
  | some (.lost event) =>
    { s with events := if committed then s.events ++ [event] else s.events, lock := none }
  | _ => s

/-- After `append_event_keyed` has succeeded. -/
def acknowledge (w now : ℕ) : AuditSystem :=
  match s.workers w with
  | .appending ⟨some id, _, _⟩ .appended rest =>
    (s.markOutboxDelivered id now).setWorker w (.draining rest)
  | .appending ⟨none, _, _⟩ .appended _ => s.setWorker w .idle
  | _ => s

/-- After `append_event_keyed` has failed. -/
def retry (w now : ℕ) : AuditSystem :=
  match s.workers w with
  | .appending ⟨some id, _, _⟩ .failed rest =>
    (s.retryOutbox id now).setWorker w (.draining rest)
  | .appending ⟨none, _, _⟩ .failed _ => s.setWorker w .idle
  | _ => s

/-- The worker ends early, with an error or with its process. -/
def stop (w : ℕ) : AuditSystem := { s.setWorker w .idle with lock := s.released w }

end AuditSystem

inductive Action
  | reserve (tx : Transaction)
  | abandon (id : ℕ)
  | commit (id now : ℕ)
  | grantRole (row : PackageRoleRow)
  | download (name version : String)
  | drain (w now : ℕ)
  | direct (w : ℕ) (event : Value)
  | next (w : ℕ)
  | acquire (w : ℕ)
  | look (w : ℕ)
  | readPrevious (w : ℕ)
  | insert (w now : ℕ)
  | commitEvent (w : ℕ)
  | fail (w : ℕ)
  | lose (w : ℕ)
  | settle (committed : Bool)
  | acknowledge (w now : ℕ)
  | retry (w now : ℕ)
  | stop (w : ℕ)

/-- An action that is not enabled does nothing. -/
def step (registry : PostgresRegistry) (s : AuditSystem) : Action → AuditSystem
  | .reserve tx => s.reserve tx
  | .abandon id => s.abandon id
  | .commit id now => s.commit registry id now
  | .grantRole row => { s with db := ControlPlane.grantPackageRole s.db row }
  | .download name version => { s with db := s.db.recordDownload name version }
  | .drain w now => s.drain w now
  | .direct w event => s.direct registry w event
  | .next w => s.next w
  | .acquire w => s.acquire w
  | .look w => s.look w
  | .readPrevious w => s.readPrevious w
  | .insert w now => s.insert registry w now
  | .commitEvent w => s.commitEvent w
  | .fail w => s.fail w
  | .lose w => s.lose w
  | .settle committed => s.settle committed
  | .acknowledge w now => s.acknowledge w now
  | .retry w now => s.retry w now
  | .stop w => s.stop w

def steps (registry : PostgresRegistry) (s : AuditSystem) (actions : List Action) : AuditSystem :=
  actions.foldl (step registry) s

end Oath.Registry
