import Oath.Library.LockedTransactions
import Oath.Registry.Transactions

/-! Stages that are created and decided at the same time, statement by statement: how many of an
organization are pending. -/

namespace Oath.Registry
open Contracts Database

/-! ## Statements and what they lock -/

inductive Lock
  | advisory (key : ℤ)
  | package (name : String)
  | stage (id : String)
  | stageVersion (name version : String)
  | version (name version : String)
  | distTag (name tag : String)
  | outbox (eventKey : String)
deriving DecidableEq, Repr

namespace Sql

def advisoryXactLock (key : ℤ) : Statement Database Lock Unit where
  locks _ := [.advisory key]
  run _ := .ok ((), id)

def countStaged (organization : String) : Statement Database Lock ℕ where
  locks _ := []
  run db := .ok (db.pendingStages organization, id)

/-- `SELECT … FOR UPDATE`: the row is locked when there is one. -/
def forUpdate {Row : Type} (lock : Lock) (row : Database → Option Row) :
    Statement Database Lock (Option Row) where
  locks db := if (row db).isSome then [lock] else []
  run db := .ok (row db, id)

/-- A write that can be refused; a refused one locks nothing. -/
def write (locks : List Lock) (f : Database → Except String Database) :
    Statement Database Lock Unit where
  locks db := match f db with
    | .ok _ => locks
    | .error _ => []
  run db := (f db).map fun _ => ((), fun db => (f db).toOption.getD db)

/-- `INSERT … ON CONFLICT (name) DO NOTHING` waits only when the name is new. -/
def claimPackage (row : PackageRow) : Statement Database Lock Unit where
  locks db := if (db.package row.name).isNone then [.package row.name] else []
  run _ := .ok ((), fun db => db.claimPackage row)

def insertStage (stage : StageRecord) : Statement Database Lock Unit :=
  write [.stage stage.id, .stageVersion stage.name stage.version] fun db => db.insertStage stage

def markStage (id status : String) (reason : Option String) : Statement Database Lock Unit :=
  write [.stage id] fun db => .ok (db.markStage id status reason)

def insertVersion (row : VersionRow) : Statement Database Lock Unit :=
  write [.version row.name row.version] fun db => db.insertVersion row

def setTag (row : DistTagRow) : Statement Database Lock Unit :=
  write [.distTag row.name row.tag] fun db => .ok (db.setTag row)

def insertOutbox (eventKey : String) (event : Value) (now : ℕ) : Statement Database Lock Unit :=
  write [.outbox eventKey] fun db => db.insertOutbox eventKey event now

end Sql

/-! ## The transactions -/

namespace StageTransaction

/-- The event, and the end. -/
def announce (eventKey : String) (event : Value) : Transaction Database Lock Bool :=
  .clock fun now =>
  .statement (Sql.insertOutbox eventKey event now) fun _ =>
  .commit true

/-- What is done for a stage for which there is room. -/
def addStage (stage : StageRecord) (eventKey : String) (event : Value) :
    Transaction Database Lock Bool :=
  .statement (Sql.claimPackage {
    name := stage.name
    organization := stage.organization
    isPrivate := stage.isPrivate
    createdAt := stage.createdAt }) fun _ =>
  .statement (Sql.forUpdate (.package stage.name) fun db => db.package stage.name) fun row =>
  match row with
  | none =>
    .rollback (.error "no rows returned by a query that expected to return at least one row")
  | some package =>
    if package.organization ≠ stage.organization then
      .rollback (.error "package belongs to another organization")
    else if package.isPrivate ≠ stage.isPrivate then
      .rollback (.error "package visibility cannot change between versions")
    else
      .statement (Sql.insertStage stage) fun _ =>
      announce eventKey event

def createStage (hashtext : String → ℤ) (stage : StageRecord) (eventKey : String) (event : Value)
    (maximumPendingStages : ℕ) : Transaction Database Lock Bool :=
  .statement (Sql.advisoryXactLock (hashtext stage.organization)) fun _ =>
  .statement (Sql.countStaged stage.organization) fun pending =>
  if maximumPendingStages ≤ pending then .rollback (.ok false)
  else addStage stage eventKey event

def decideStage (stage : StageRecord) (approve : Bool) (reason : Option String)
    (eventKey : String) (event : Value) : Transaction Database Lock Bool :=
  .statement (Sql.forUpdate (.stage stage.id) fun db =>
    (db.stages.find? stage.id).map fun row => row.status) fun status =>
  if status ≠ some "staged" then .rollback (.ok false)
  else if approve then
    .statement (Sql.markStage stage.id "approved" reason) fun _ =>
    .clock fun publishedAt =>
    .statement (Sql.insertVersion (versionOf stage publishedAt)) fun _ =>
    .statement (Sql.setTag {
      name := stage.name, tag := stage.tag, version := stage.version }) fun _ =>
    announce eventKey event
  else
    .statement (Sql.markStage stage.id "rejected" reason) fun _ =>
    announce eventKey event

end StageTransaction

inductive StageCall
  | create (stage : StageRecord) (eventKey : String) (event : Value)
  | decide (stage : StageRecord) (approve : Bool) (reason : Option String) (eventKey : String)
    (event : Value)

def StageCall.transaction (hashtext : String → ℤ) (maximumPendingStages : ℕ) :
    StageCall → Transaction Database Lock Bool
  | create stage eventKey event =>
    StageTransaction.createStage hashtext stage eventKey event maximumPendingStages
  | decide stage approve reason eventKey event =>
    StageTransaction.decideStage stage approve reason eventKey event

/-! ## One transaction on its own -/

section Alone
variable {db : Database} {locks : List Lock} {f : Database → Except String Database}

theorem write_ok {b : Unit} {write : Database → Database}
    (h : (Sql.write locks f).run db = .ok (b, write)) :
    (∃ db', f db = .ok db') ∧ write = fun db => (f db).toOption.getD db := by
  change (f db).map _ = Except.ok (b, write) at h
  cases hf : f db with
  | error message =>
    rw [hf] at h
    cases h
  | ok db' =>
    rw [hf] at h
    exact ⟨⟨db', rfl⟩, (Prod.mk.inj (Except.ok.inj h)).2.symm⟩

/-- On its own a write is done at once. -/
theorem alone_write {time : ℕ} {next : Unit → Transaction Database Lock Bool}
    {writes : Database → Database} :
    (Transaction.statement (Sql.write locks f) next).alone time db writes =
      (f (writes db) >>= fun _ =>
        (next ()).alone time db ((fun db => (f db).toOption.getD db) ∘ writes)) := by
  rw [Transaction.alone]
  show ((f (writes db)).map _ >>= _) = _
  cases f (writes db) with
  | error message => rfl
  | ok db' => rfl

theorem alone_write_ok {time : ℕ} {next : Unit → Transaction Database Lock Bool}
    {writes : Database → Database} {db' : Database} (h : f (writes db) = .ok db') :
    (Transaction.statement (Sql.write locks f) next).alone time db writes =
      (next ()).alone time db ((fun db => (f db).toOption.getD db) ∘ writes) := by
  rw [alone_write, h]
  rfl

/-- A write that is never refused. -/
theorem alone_assign {time : ℕ} {g : Database → Database}
    {next : Unit → Transaction Database Lock Bool} {writes : Database → Database} :
    (Transaction.statement (Sql.write locks fun db => .ok (g db)) next).alone time db writes =
      (next ()).alone time db (g ∘ writes) := rfl

theorem alone_announce {eventKey : String} {event : Value} {now : ℕ}
    {writes : Database → Database} :
    (StageTransaction.announce eventKey event).alone now db writes =
      ((writes db).insertOutbox eventKey event now >>= fun db => .ok (true, db)) := by
  rw [StageTransaction.announce, Transaction.alone, Sql.insertOutbox, alone_write]
  cases h : (writes db).insertOutbox eventKey event now with
  | error message => rfl
  | ok db' =>
    show Except.ok (true, ((writes db).insertOutbox eventKey event now).toOption.getD (writes db)) =
      Except.ok (true, db')
    rw [h]
    rfl

theorem written {writes : Database → Database} {db' : Database} (h : f (writes db) = .ok db') :
    ((fun db => (f db).toOption.getD db) ∘ writes) db = db' := by
  show (f (writes db)).toOption.getD (writes db) = db'
  rw [h]
  rfl

/-- On its own a stage is created as a single step. -/
theorem alone_createStage (hashtext : String → ℤ) (stage : StageRecord) (eventKey : String)
    (event : Value) (maximumPendingStages now : ℕ) :
    (StageTransaction.createStage hashtext stage eventKey event maximumPendingStages).alone now db
      id = ControlPlane.createStage db stage eventKey event maximumPendingStages now := by
  rw [StageTransaction.createStage, Transaction.alone_statement rfl,
    Transaction.alone_statement rfl, ControlPlane.createStage]
  simp only [Function.comp_id, id_eq]
  split_ifs with hquota
  · rfl
  · rw [StageTransaction.addStage, Transaction.alone_statement rfl, Transaction.alone_statement rfl]
    simp only [Function.comp_id, Function.id_comp]
    set claimed := db.claimPackage _ with hclaimed
    cases hpackage : claimed.package stage.name with
    | none => rfl
    | some package =>
      dsimp only
      split_ifs with howner hprivate
      · rfl
      · rfl
      · rw [Sql.insertStage, alone_write, ← hclaimed]
        cases hinsert : claimed.insertStage stage with
        | error message => rfl
        | ok staged =>
          show Transaction.alone now db (StageTransaction.announce eventKey event) _ = _
          rw [alone_announce, written hinsert]
          rfl

/-- On its own a stage is decided as a single step. -/
theorem alone_decideStage (stage : StageRecord) (approve : Bool) (reason : Option String)
    (eventKey : String) (event : Value) (now : ℕ) :
    (StageTransaction.decideStage stage approve reason eventKey event).alone now db id =
      ControlPlane.decideStage db stage approve reason eventKey event now now := by
  rw [StageTransaction.decideStage, Transaction.alone_statement rfl, ControlPlane.decideStage]
  simp only [Function.comp_id, id_eq]
  split_ifs with hstatus happrove
  · rfl
  · rw [Sql.markStage, alone_assign, Transaction.alone, Sql.insertVersion,
      ControlPlane.applyDecision, if_pos happrove]
    show _ = (((db.markStage stage.id "approved" reason).insertVersion _ >>= _) >>= _)
    cases hinsert : (db.markStage stage.id "approved" reason).insertVersion
        (versionOf stage now) with
    | error message =>
      rw [alone_write]
      show ((db.markStage stage.id "approved" reason).insertVersion _ >>= _) = _
      rw [hinsert]
      rfl
    | ok inserted =>
      have hwritten : ((fun db => (db.insertVersion (versionOf stage now)).toOption.getD db) ∘
          fun db => db.markStage stage.id "approved" reason) db = inserted := written hinsert
      rw [alone_write_ok hinsert, Sql.setTag, alone_assign, alone_announce, Function.comp_apply,
        Function.comp_id, hwritten]
      rfl
  · rw [Sql.markStage, alone_assign, alone_announce, ControlPlane.applyDecision, if_neg happrove]
    rfl

/-- The call in one step. -/
def StageCall.atOnce (maximumPendingStages now : ℕ) (db : Database) :
    StageCall → Except String (Bool × Database)
  | create stage eventKey event =>
    ControlPlane.createStage db stage eventKey event maximumPendingStages now
  | decide stage approve reason eventKey event =>
    ControlPlane.decideStage db stage approve reason eventKey event now now

theorem alone_transaction (hashtext : String → ℤ) (maximumPendingStages now : ℕ)
    (call : StageCall) : (call.transaction hashtext maximumPendingStages).alone now db id =
      call.atOnce maximumPendingStages now db := by
  cases call with
  | create stage eventKey event =>
    exact alone_createStage hashtext stage eventKey event maximumPendingStages now
  | decide stage approve reason eventKey event =>
    exact alone_decideStage stage approve reason eventKey event now

/-- Where nothing comes in between, the statements of a call do what the call does at once. -/
theorem exists_run_atOnce {ι : Type} [DecidableEq ι] {hashtext : String → ℤ}
    {maximumPendingStages now : ℕ} (calls : ι → StageCall) {i : ι} {answer : Bool} {db' : Database}
    (h : (calls i).atOnce maximumPendingStages now db = .ok (answer, db')) :
    ∃ events s', Transaction.sessions.run (Transaction.start db now fun i =>
      (calls i).transaction hashtext maximumPendingStages) events = some s' ∧
      s'.shared.committed = db' ∧
      ∃ times committed, s'.locals i = .ended times committed (.ok answer) := by
  rw [← alone_transaction hashtext] at h
  refine Transaction.exists_run_alone rfl (fun k => ?_) h
  rw [Transaction.Server.free_iff]
  exact Or.inl rfl

end Alone

/-! ## How many are pending -/

section Quota
variable {organization : String}

/-- The writes add at most so many pending stages of the organization. -/
def Adds (organization : String) (n : ℕ) (writes : Database → Database) : Prop :=
  ∀ db, (writes db).pendingStages organization ≤ db.pendingStages organization + n

theorem adds_id : Adds organization 0 id := fun _ => le_refl _

theorem Adds.comp {m n : ℕ} {write writes : Database → Database} (h : Adds organization m write)
    (h' : Adds organization n writes) : Adds organization (n + m) (write ∘ writes) := by
  intro db
  calc (write (writes db)).pendingStages organization
      ≤ (writes db).pendingStages organization + m := h (writes db)
    _ ≤ db.pendingStages organization + n + m := Nat.add_le_add_right (h' db) m
    _ = db.pendingStages organization + (n + m) := Nat.add_assoc ..

theorem adds_write {n : ℕ} {f : Database → Except String Database}
    (h : ∀ db db', f db = .ok db' →
      db'.pendingStages organization ≤ db.pendingStages organization + n) :
    Adds organization n fun db => (f db).toOption.getD db := by
  intro db
  dsimp only
  cases hf : f db with
  | error message => exact Nat.le_add_right ..
  | ok db' => exact h db db' hf

/-- One more when the stage is one of the organization's. -/
def room (organization : String) (stage : StageRecord) : ℕ :=
  if stage.organization = organization then 1 else 0

theorem pendingStages_insertStage {db db' : Database} {stage : StageRecord}
    (h : db.insertStage stage = .ok db') :
    db'.pendingStages organization ≤ db.pendingStages organization + room organization stage := by
  obtain ⟨stages, hinsert, h⟩ := Except.bind_eq_ok.mp h
  rw [unique_eq_ok] at hinsert
  split_ifs at h with hany
  obtain rfl := Except.ok.inj h
  unfold pendingStages room
  rw [Table.rows_of_insert? hinsert, List.countP_append, List.countP_singleton]
  refine Nat.add_le_add_left ?_ _
  split_ifs with hstaged hsame
  · exact le_refl 1
  · rw [decide_eq_true_eq] at hstaged
    exact absurd hstaged.1 hsame
  · exact Nat.zero_le 1
  · exact le_refl 0

theorem pendingStages_insertOutbox {db db' : Database} {eventKey : String} {event : Value}
    {now : ℕ} (h : db.insertOutbox eventKey event now = .ok db') :
    db'.pendingStages organization ≤ db.pendingStages organization + 0 := by
  obtain ⟨outbox, rfl⟩ := insertOutbox_ok h
  exact le_refl _

theorem pendingStages_insertVersion {db db' : Database} {row : VersionRow}
    (h : db.insertVersion row = .ok db') :
    db'.pendingStages organization ≤ db.pendingStages organization + 0 := by
  obtain ⟨versions, -, h⟩ := Except.bind_eq_ok.mp h
  obtain rfl := Except.ok.inj h
  exact le_refl _

/-- A decided stage is not pending. -/
theorem pendingStages_markStage (db : Database) {id status : String} {reason : Option String}
    (hstatus : status ≠ "staged") :
    (db.markStage id status reason).pendingStages organization ≤
      db.pendingStages organization := by
  unfold pendingStages
  show (db.stages.rows.map _).countP _ ≤ _
  rw [List.countP_map]
  apply List.countP_mono_left
  intro row _ hrow
  rw [Function.comp_apply, decide_eq_true_eq] at hrow
  split_ifs at hrow with hid
  · exact absurd hrow.2 hstatus
  · rw [decide_eq_true_eq]
    exact hrow

/-! ## The quota -/

variable {ι : Type} {hashtext : String → ℤ} {maximum : ℕ}

/-- Only under the lock of the organization do its pending stages become more. -/
def quota (ι : Type) (hashtext : String → ℤ) (organization : String) (maximum : ℕ) :
    Transaction.Discipline ι Database Lock Bool where
  good db := db.pendingStages organization ≤ maximum
  may _ _ held db db' := Lock.advisory (hashtext organization) ∈ held ∨
    db'.pendingStages organization ≤ db.pendingStages organization
  after _ _ _ _ := True

/-- There is room for what a transaction will add, and its lock keeps it. -/
structure Reserved (ι : Type) (hashtext : String → ℤ) (organization : String) (maximum n : ℕ)
    (held : Set Lock) (A : Database → Prop) : Prop where
  stable : (quota ι hashtext organization maximum).Stable held A
  room : ∀ db, db.pendingStages organization ≤ maximum → A db →
    db.pendingStages organization + n ≤ maximum
  locked : n = 0 ∨ Lock.advisory (hashtext organization) ∈ held

variable {i : ι} {times : List ℕ} {writes : Database → Database} {held held' : Set Lock}
  {A : Database → Prop} {n : ℕ}

theorem Reserved.mono (h : Reserved ι hashtext organization maximum n held A)
    (hsub : held ⊆ held') : Reserved ι hashtext organization maximum n held' A :=
  ⟨h.stable.mono hsub, h.room, h.locked.imp_right fun hmem => hsub hmem⟩

theorem reserved_none (held : Set Lock) :
    Reserved ι hashtext organization maximum 0 held fun _ => True :=
  ⟨Transaction.Discipline.stable_true held, fun _ hgood _ => hgood, Or.inl rfl⟩

theorem keeps_commit (h : Reserved ι hashtext organization maximum n held A)
    (hadds : Adds organization n writes) :
    (quota ι hashtext organization maximum).Keeps i (.commit true) times writes held A := by
  intro db hgood hA
  refine ⟨?_, (hadds db).trans (h.room db hgood hA), trivial⟩
  rcases h.locked with hzero | hlock
  · have hsame := hadds db
    rw [hzero] at hsame
    exact Or.inr hsame
  · exact Or.inl hlock

theorem keeps_write {m k : ℕ} {locks : List Lock} {f : Database → Except String Database}
    {next : Unit → Transaction Database Lock Bool}
    (h : Reserved ι hashtext organization maximum n held A) (hadds : Adds organization m writes)
    (hf : ∀ db db', f db = .ok db' →
      db'.pendingStages organization ≤ db.pendingStages organization + k)
    (hnext : ∀ writes', Adds organization (m + k) writes' → ∀ held',
      Reserved ι hashtext organization maximum n held' A →
        (quota ι hashtext organization maximum).Keeps i (next ()) times writes' held' A) :
    (quota ι hashtext organization maximum).Keeps i (.statement (Sql.write locks f) next) times
      writes held A := by
  refine Transaction.Discipline.keeps_statement h.stable fun db b write hrun held' hsub => ?_
  obtain ⟨-, rfl⟩ := write_ok hrun
  exact hnext _ ((adds_write hf).comp hadds) held' (h.mono hsub)

theorem keeps_announce {eventKey : String} {event : Value}
    (h : Reserved ι hashtext organization maximum n held A) (hadds : Adds organization n writes) :
    (quota ι hashtext organization maximum).Keeps i (StageTransaction.announce eventKey event)
      times writes held A := by
  intro now
  exact keeps_write h hadds (fun _ _ hok => pendingStages_insertOutbox hok)
    fun writes' hadds' held' h' => keeps_commit h' hadds'

theorem keeps_addStage {stage : StageRecord} {eventKey : String} {event : Value}
    (h : Reserved ι hashtext organization maximum (room organization stage) held A)
    (hadds : Adds organization 0 writes) :
    (quota ι hashtext organization maximum).Keeps i
      (StageTransaction.addStage stage eventKey event) times writes held A := by
  refine Transaction.Discipline.keeps_statement h.stable fun db b write hrun held₁ hsub₁ => ?_
  obtain ⟨-, rfl⟩ := Prod.mk.inj (Except.ok.inj hrun)
  have hclaimed : Adds organization 0 ((fun db => db.claimPackage {
      name := stage.name
      organization := stage.organization
      isPrivate := stage.isPrivate
      createdAt := stage.createdAt }) ∘ writes) := hadds
  have h₁ := h.mono hsub₁
  refine Transaction.Discipline.keeps_statement h₁.stable fun db row write hrun held₂ hsub₂ => ?_
  obtain ⟨-, rfl⟩ := Prod.mk.inj (Except.ok.inj hrun)
  cases row with
  | none => trivial
  | some package =>
    dsimp only
    split_ifs with howner hprivate
    · trivial
    · trivial
    · exact keeps_write (h₁.mono hsub₂) hclaimed (fun _ _ hok => pendingStages_insertStage hok)
        fun writes' hadds' held' h' => keeps_announce h' (by rwa [Nat.zero_add] at hadds')

/-- Under the lock of the organization the room that the count finds stays. -/
theorem keeps_count {stage : StageRecord} {eventKey : String} {event : Value}
    (hlock : Lock.advisory (hashtext stage.organization) ∈ held) :
    (quota ι hashtext organization maximum).Keeps i
      (.statement (Sql.countStaged stage.organization) fun pending =>
        if maximum ≤ pending then .rollback (.ok false)
        else StageTransaction.addStage stage eventKey event) [] id held fun _ => True := by
  intro db _ _ pending write hrun
  obtain ⟨hpending, rfl⟩ := Prod.mk.inj (Except.ok.inj hrun)
  dsimp only
  have hheld : Lock.advisory (hashtext stage.organization) ∈
      held ∪ {k | k ∈ (Sql.countStaged stage.organization).locks (id db)} := Or.inl hlock
  split_ifs with hquota
  · exact ⟨fun _ => True, Transaction.Discipline.stable_true _, trivial, trivial⟩
  · have hroom : db.pendingStages stage.organization < maximum := by
      rw [← hpending] at hquota
      exact not_le.mp hquota
    by_cases hsame : stage.organization = organization
    · rw [hsame] at hroom
      have hstable : (quota ι hashtext organization maximum).Stable
          (held ∪ {k | k ∈ (Sql.countStaged stage.organization).locks (id db)})
          fun db => db.pendingStages organization < maximum := by
        intro _ _ others db db' hdisjoint _ hmay hless
        rcases hmay with hothers | hfewer
        · rw [hsame] at hheld
          exact absurd hheld (Set.disjoint_left.mp hdisjoint hothers)
        · exact lt_of_le_of_lt hfewer hless
      refine ⟨fun db => db.pendingStages organization < maximum, hstable, hroom, ?_⟩
      refine keeps_addStage ⟨hstable, fun db _ hless => ?_, Or.inr ?_⟩ adds_id
      · rw [room, if_pos hsame]
        exact hless
      · rw [← hsame]
        exact hheld
    · refine ⟨fun _ => True, Transaction.Discipline.stable_true _, trivial, ?_⟩
      refine keeps_addStage ?_ adds_id
      rw [room, if_neg hsame]
      exact reserved_none _

theorem keeps_createStage (stage : StageRecord) (eventKey : String) (event : Value) :
    (quota ι hashtext organization maximum).Keeps i
      (StageTransaction.createStage hashtext stage eventKey event maximum) [] id held
      fun _ => True := by
  intro db _ _ b write hrun
  obtain ⟨-, rfl⟩ := Prod.mk.inj (Except.ok.inj hrun)
  refine ⟨fun _ => True, Transaction.Discipline.stable_true _, trivial, keeps_count (Or.inr ?_)⟩
  exact List.mem_singleton_self _

theorem keeps_decideStage (stage : StageRecord) (approve : Bool) (reason : Option String)
    (eventKey : String) (event : Value) :
    (quota ι hashtext organization maximum).Keeps i
      (StageTransaction.decideStage stage approve reason eventKey event) [] id held
      fun _ => True := by
  have h : Reserved ι hashtext organization maximum 0 held fun _ => True := reserved_none held
  refine Transaction.Discipline.keeps_statement h.stable fun db b write hrun held' hsub => ?_
  obtain ⟨-, rfl⟩ := Prod.mk.inj (Except.ok.inj hrun)
  have h' := h.mono hsub
  have hmark : ∀ status : String, status ≠ "staged" → ∀ db db' : Database,
      Except.ok (ε := String) (db.markStage stage.id status reason) = .ok db' →
        db'.pendingStages organization ≤ db.pendingStages organization + 0 := by
    intro status hstatus db db' hok
    obtain rfl := Except.ok.inj hok
    exact pendingStages_markStage db hstatus
  split_ifs with hstaged happrove
  · trivial
  · refine keeps_write h' adds_id (hmark "approved" (by decide)) fun _ hadds _ h' now => ?_
    refine keeps_write h' hadds (fun _ _ hok => pendingStages_insertVersion hok)
      fun _ hadds _ h' => ?_
    refine keeps_write (k := 0) h' hadds (fun db db' hok => ?_) fun _ hadds _ h' => ?_
    · obtain rfl := Except.ok.inj hok
      exact le_refl _
    · exact keeps_announce h' hadds
  · refine keeps_write h' adds_id (hmark "rejected" (by decide)) fun _ hadds _ h' => ?_
    exact keeps_announce h' hadds

/-! ## Any order of the steps -/

section Runs
variable [DecidableEq ι]

/-- No order of the steps takes an organization past the maximum, whatever else is created and
decided and whichever connections are lost. -/
theorem pendingStages_le (calls : ι → StageCall) {db : Database} {time : ℕ}
    (hstart : db.pendingStages organization ≤ maximum)
    {s' : Threads.State ι (Transaction.Server ι Database Lock)
      (Transaction.Session Database Lock Bool)} {events : List (ι × Transaction.Action)}
    (hrun : Transaction.sessions.run
      (Transaction.start db time fun i => (calls i).transaction hashtext maximum) events =
        some s') :
    s'.shared.committed.pendingStages organization ≤ maximum := by
  have hkeeps : ∀ i held, (quota ι hashtext organization maximum).Keeps i
      ((calls i).transaction hashtext maximum) [] id held fun _ => True := by
    intro i held
    cases calls i with
    | create stage eventKey event => exact keeps_createStage stage eventKey event
    | decide stage approve reason eventKey event =>
      exact keeps_decideStage stage approve reason eventKey event
  have hholds := Transaction.Discipline.start_holds time hstart hkeeps
  have hafter : ∀ i times a,
      (quota ι hashtext organization maximum).Stable ∅
        ((quota ι hashtext organization maximum).after i times a) :=
    fun _ _ _ => Transaction.Discipline.stable_true ∅
  exact (Transaction.Discipline.run_holds hafter hholds hrun).1

/-! ## Two stages of one organization -/

def namedStage (id name : String) : StageRecord where
  id
  organization := "acme"
  name
  version := "1.0.0"
  tag := "latest"
  digest := ""
  status := "staged"
  isPrivate := false
  manifest := .null
  publisherAssessment := .null
  assessment := .null
  serverEvidence := .null
  sbom := .null
  provenance := .null
  createdAt := 0

def twoStages : Bool → StageCall
  | false => .create (namedStage "a" "left-pad") "stage-a" .null
  | true => .create (namedStage "b" "right-pad") "stage-b" .null

/-- The second waits for the lock, counts the stage of the first and is refused. -/
def oneAfterTheOther : List (Bool × Transaction.Action) :=
  List.replicate 8 (false, .next .none) ++ List.replicate 3 (true, .next .none)

theorem pendingStages_le_one : ∃ s',
    Transaction.sessions.run (Transaction.start Database.empty 0 fun i =>
      (twoStages i).transaction (fun text => text.length) 1) oneAfterTheOther = some s' ∧
    s'.shared.committed.pendingStages "acme" ≤ 1 := by
  have hsome : (Transaction.sessions.run (Transaction.start Database.empty 0 fun i =>
      (twoStages i).transaction (fun text => text.length) 1) oneAfterTheOther).isSome := by
    decide
  obtain ⟨s', hrun⟩ := Option.isSome_iff_exists.mp hsome
  have hstart : Database.empty.pendingStages "acme" ≤ 1 := Nat.zero_le 1
  exact ⟨s', hrun, pendingStages_le twoStages hstart hrun⟩

end Runs

end Quota

end Oath.Registry
