import Oath.Registry.ExactlyOnce

/-! The order of the events in the log. An event whose append has failed comes later than the
ones behind it, so that a decision can stand before the stage it is about. -/

namespace Oath.Registry
open Contracts Database

/-! ## What comes first -/

/-- The decision follows the creation of its stage, the revocation the publication. -/
def Transaction.follows : Transaction → Transaction → Bool
  | decideStage stage _ _ _ _, createStage created _ => stage.id = created.id
  | revokeVersion tombstone, decideStage stage true _ _ _ =>
    stage.name = tombstone.name ∧ stage.version = tombstone.version
  | _, _ => false

namespace AuditSystem
variable (s : AuditSystem)

/-- The event of one key follows the event of another. -/
def keyFollows (eventKey cause : String) : Bool :=
  s.commits.any fun tx => tx.eventKey == eventKey && s.commits.any fun other =>
    other.eventKey == cause && tx.follows other

/-- A drain leaves out no postponed row that one of its rows follows, and does not go on past a
row that has failed to one that follows it. -/
def inOrder : Action → Bool
  | .drain _ now => (s.pendingOutbox now 100).all fun row => s.deliveries.rows.all fun delivery =>
    delivery.deliveredAt.isSome || !s.keyFollows row.eventKey delivery.eventKey ||
      (s.db.outbox.find? delivery.eventKey).all fun stored => stored.availableAt ≤ now
  | .retry w _ =>
    match s.workers w with
    | .appending job .failed rest => rest.all fun row => !s.keyFollows row.eventKey job.eventKey
    | _ => true
  | _ => true

end AuditSystem

/-- Every action of the run is taken in order. -/
def stepsInOrder (registry : PostgresRegistry) (s : AuditSystem) : List Action → Bool
  | [] => true
  | action :: rest => s.inOrder action && stepsInOrder registry (step registry s action) rest

/-- In the log every decision has its stage's creation before it, every revocation the
publication of its version. -/
structure CausalOrder (s : AuditSystem) : Prop where
  decisions : ∀ stage approve reason principal publishedAt,
    .decideStage stage approve reason principal publishedAt ∈ s.commits →
    ∀ before event after, s.events = before ++ event :: after →
      event.eventKey =
        (Transaction.decideStage stage approve reason principal publishedAt).eventKey →
      hasKey before ("stage.created:" ++ stage.id) = true
  revocations : ∀ tombstone, .revokeVersion tombstone ∈ s.commits →
    ∀ before event after, s.events = before ++ event :: after →
      event.eventKey = revocationKey tombstone →
      ∃ publication ∈ s.commits, publication.publishes (tombstone.name, tombstone.version) ∧
        hasKey before publication.eventKey = true

namespace Transaction

theorem follows_iff {tx cause : Transaction} : tx.follows cause = true ↔
    (∃ id, tx.decides id ∧ cause.creates id) ∨ ∃ key, tx.revokes key ∧ cause.publishes key := by
  cases tx with
  | createStage stage principal => simp [follows, decides, revokes]
  | decideStage stage approve reason principal publishedAt =>
    cases cause with
    | createStage created principal => simp [follows, decides, creates, revokes, eq_comm]
    | decideStage => simp [follows, creates, revokes]
    | revokeVersion => simp [follows, creates, revokes]
  | revokeVersion tombstone =>
    cases cause with
    | createStage => simp [follows, decides, publishes]
    | decideStage stage approve =>
      cases approve with
      | true => simp [follows, decides, revokes, publishes]
      | false => simp [follows, decides, publishes]
    | revokeVersion => simp [follows, decides, publishes]

/-- What the transaction needs is there. -/
def Found (db : Database) (tx : Transaction) : Prop :=
  (∀ id, tx.decides id → (db.stages.find? id).isSome) ∧
    ∀ key, tx.revokes key → (db.versions.find? key).isSome

theorem found_of_ready {db : Database} {tx : Transaction} (h : tx.ready db = true) :
    tx.Found db := by
  cases tx with
  | createStage stage principal =>
    exact ⟨fun _ hdecides => False.elim hdecides, fun _ hrevokes => False.elim hrevokes⟩
  | decideStage stage approve reason principal publishedAt =>
    refine ⟨fun id hid => ?_, fun _ hrevokes => False.elim hrevokes⟩
    rw [← hid]
    simp only [ready] at h
    cases hrow : db.stages.find? stage.id with
    | none =>
      rw [hrow] at h
      cases h
    | some row => rfl
  | revokeVersion tombstone => exact ⟨fun _ hdecides => False.elim hdecides, fun key hkey => hkey ▸ h⟩

theorem Found.applied {db db' : Database} {tx other : Transaction} (h : other.Found db)
    (happlied : Applied tx db db') : other.Found db' :=
  ⟨fun id hid => (happlied.stages id).mpr (Or.inl (h.1 id hid)),
    fun key hkey => (happlied.versions key).mpr (Or.inl (h.2 key hkey))⟩

/-- What a commit makes is new: nothing that has found what it needs follows it. -/
theorem Found.not_follows {db db' : Database} {tx other : Transaction} (h : other.Found db)
    (happlied : Applied tx db db') : other.follows tx = false := by
  rw [← Bool.not_eq_true, follows_iff]
  intro hfollows
  rcases hfollows with ⟨id, hdecides, hcreates⟩ | ⟨key, hrevokes, hpublishes⟩
  · have hsome := h.1 id hdecides
    rw [happlied.created_new id hcreates] at hsome
    cases hsome
  · have hsome := h.2 key hrevokes
    rw [happlied.published_new key hpublishes] at hsome
    cases hsome

end Transaction

theorem keyFollows_iff {s : AuditSystem} {eventKey cause : String} :
    s.keyFollows eventKey cause = true ↔ ∃ tx ∈ s.commits, tx.eventKey = eventKey ∧
      ∃ other ∈ s.commits, other.eventKey = cause ∧ tx.follows other = true := by
  simp [AuditSystem.keyFollows]

/-! ## What holds while the run is in order -/

section Invariant
variable (s : AuditSystem)

/-- The rows that are left stand in the order of their ids, and what they follow is in the log,
has just been taken, or stands before them. -/
def Queued (taken : String → Prop) (rest : List PendingRow) : Prop :=
  rest.Pairwise (fun row next => row.id < next.id) ∧
    ∀ row ∈ rest, ∀ cause, s.keyFollows row.eventKey cause = true →
      hasKey s.events cause = true ∨ taken cause ∨
        ∃ other ∈ rest, other.eventKey = cause ∧ other.id < row.id

def WorkerOrdered : Worker → Prop
  | .idle => True
  | .draining rest => Queued s (fun _ => False) rest
  | .appending job _ rest =>
    (∀ cause, s.keyFollows job.eventKey cause = true → hasKey s.events cause = true) ∧
      Queued s (· = job.eventKey) rest

/-- An event has the ones it follows before it. -/
def Logged (events : List RegistryEvent) : Prop :=
  ∀ before event after, events = before ++ event :: after →
    ∀ cause, s.keyFollows event.eventKey cause = true → hasKey before cause = true

/-- Ids are given in the order of what follows what. -/
structure IdsOrdered : Prop where
  committed : ∀ tx ∈ s.commits, ∀ cause ∈ s.commits, tx.follows cause = true →
    ∀ delivery ∈ s.deliveries.rows, ∀ earlier ∈ s.deliveries.rows,
      delivery.eventKey = tx.eventKey → earlier.eventKey = cause.eventKey →
        earlier.id < delivery.id
  running : ∀ id tx, (id, tx) ∈ s.transactions → ∀ cause ∈ s.commits, tx.follows cause = true →
    ∀ earlier ∈ s.deliveries.rows, earlier.eventKey = cause.eventKey → earlier.id < id

structure CausalOk : Prop where
  committed : ∀ tx ∈ s.commits, tx.Found s.db
  running : ∀ id tx, (id, tx) ∈ s.transactions → tx.Found s.db
  ids : IdsOrdered s
  logged : Logged s s.events
  lost : ∀ row, s.lock = some (.lost row) →
    ∀ cause, s.keyFollows row.eventKey cause = true → hasKey s.events cause = true
  workers : ∀ w, WorkerOrdered s (s.workers w)

end Invariant

section Frame
variable {registry : PostgresRegistry} {s s' : AuditSystem}

/-- No key that is in use has come to follow another. -/
def FollowsKept (registry : PostgresRegistry) (s s' : AuditSystem) : Prop :=
  ∀ eventKey cause event, Sourced registry s eventKey event →
    s'.keyFollows eventKey cause = true → s.keyFollows eventKey cause = true

theorem FollowsKept.of_eq (h : s'.commits = s.commits) : FollowsKept registry s s' := by
  intro eventKey cause event _ hfollows
  unfold AuditSystem.keyFollows at hfollows ⊢
  rwa [h] at hfollows

theorem Queued.frame {taken : String → Prop} {rest : List PendingRow} (h : Queued s taken rest)
    (howed : ∀ row ∈ rest, JobOwed registry s row.job) (hkept : FollowsKept registry s s')
    (hextends : ∃ more, s'.events = s.events ++ more) : Queued s' taken rest := by
  refine ⟨h.1, fun row hmem cause hfollows => ?_⟩
  have hold := hkept row.eventKey cause row.event (howed row hmem).sourced hfollows
  rcases h.2 row hmem cause hold with hthere | hother
  · obtain ⟨more, hmore⟩ := hextends
    rw [hmore]
    exact Or.inl (hasKey_of_extends hthere)
  · exact Or.inr hother

theorem WorkerOrdered.frame {w : ℕ} {worker : Worker} (h : WorkerOrdered s worker)
    (hok : WorkerOk registry s w worker) (hkept : FollowsKept registry s s')
    (hextends : ∃ more, s'.events = s.events ++ more) : WorkerOrdered s' worker := by
  cases worker with
  | idle => trivial
  | draining rest => exact Queued.frame h hok hkept hextends
  | appending job progress rest =>
    refine ⟨fun cause hfollows => ?_, h.2.frame hok.2.2 hkept hextends⟩
    obtain ⟨more, hmore⟩ := hextends
    rw [hmore]
    exact hasKey_of_extends (h.1 cause (hkept _ cause job.event hok.1.sourced hfollows))

/-- A row is added behind everything it follows. -/
theorem Logged.append {events : List RegistryEvent} {row : RegistryEvent}
    (h : Logged s events)
    (hrow : ∀ cause, s.keyFollows row.eventKey cause = true → hasKey events cause = true) :
    Logged s (events ++ [row]) := by
  intro before event after hevents cause hfollows
  rcases List.eq_nil_or_concat after with rfl | ⟨rest, last, rfl⟩
  · obtain ⟨rfl, hlast⟩ := List.append_inj' hevents rfl
    obtain rfl := List.singleton_inj.mp hlast
    exact hrow cause hfollows
  · have hsplit : events ++ [row] = (before ++ event :: rest) ++ [last] := by
      rw [hevents]
      simp
    obtain ⟨hbefore, -⟩ := List.append_inj' hsplit rfl
    exact h before event rest hbefore cause hfollows

end Frame

/-! ## Steps in order -/

section Steps
variable {registry : PostgresRegistry} {s s' : AuditSystem}

/-- A step of a worker, or of nobody, that leaves the tables and the log alone. -/
theorem CausalOk.worker_step (h : CausalOk s) (hinv : AuditInvariant registry s) {w : ℕ}
    {worker : Worker} {lock : Option Holder}
    (hlost : ∀ row, lock = some (.lost row) → s.lock = some (.lost row) ∨
      ∀ cause, s.keyFollows row.eventKey cause = true → hasKey s.events cause = true)
    (hworker : WorkerOrdered s worker) : CausalOk { s.setWorker w worker with lock } where
  committed := h.committed
  running := h.running
  ids := ⟨h.ids.committed, h.ids.running⟩
  logged := h.logged
  lost := by
    intro row hrow
    rcases hlost row hrow with hold | hnew
    · exact h.lost row hold
    · exact hnew
  workers := by
    intro other
    have hkept : FollowsKept registry s { s.setWorker w worker with lock } := .of_eq rfl
    show WorkerOrdered _ (Function.update s.workers w worker other)
    by_cases hsame : other = w
    · rw [hsame, Function.update_self]
      cases worker with
      | idle => trivial
      | draining rest => exact hworker
      | appending job progress rest => exact hworker
    · rw [Function.update_of_ne hsame]
      exact (h.workers other).frame (hinv.workers other) hkept ⟨[], (List.append_nil _).symm⟩

theorem CausalOk.worker_only (h : CausalOk s) (hinv : AuditInvariant registry s) {w : ℕ}
    {worker : Worker} (hworker : WorkerOrdered s worker) : CausalOk (s.setWorker w worker) :=
  h.worker_step hinv (fun _ hrow => Or.inl hrow) hworker

theorem CausalOk.worker_released (h : CausalOk s) (hinv : AuditInvariant registry s) {w : ℕ}
    {worker : Worker} (hworker : WorkerOrdered s worker) :
    CausalOk { s.setWorker w worker with lock := s.released w } :=
  h.worker_step hinv (fun _ hrow => Or.inl (released_lost hrow)) hworker

/-- A step of the tables that commits nothing. -/
theorem CausalOk.table_step (h : CausalOk s) (hinv : AuditInvariant registry s)
    (hcommits : s'.commits = s.commits) (hevents : s'.events = s.events)
    (hlock : s'.lock = s.lock) (hworkers : s'.workers = s.workers)
    (hfound : ∀ tx : Transaction, tx.Found s.db → tx.Found s'.db)
    (hrunning : ∀ running ∈ s'.transactions, running ∈ s.transactions)
    (hdeliveries : ∀ delivery ∈ s'.deliveries.rows, ∃ old ∈ s.deliveries.rows,
      old.id = delivery.id ∧ old.eventKey = delivery.eventKey) : CausalOk s' := by
  have hkept : FollowsKept registry s s' := .of_eq hcommits
  have hsame (eventKey cause : String) :
      s'.keyFollows eventKey cause = s.keyFollows eventKey cause := by
    unfold AuditSystem.keyFollows
    rw [hcommits]
  refine ⟨?_, ?_, ⟨?_, ?_⟩, ?_, ?_, ?_⟩
  · rw [hcommits]
    exact fun tx hmem => hfound tx (h.committed tx hmem)
  · exact fun id tx hmem => hfound tx (h.running id tx (hrunning _ hmem))
  · rw [hcommits]
    intro tx htx cause hcause hfollows delivery hmem earlier hearlier hkey hcauseKey
    obtain ⟨old, hold, hid, holdKey⟩ := hdeliveries delivery hmem
    obtain ⟨first, hfirst, hfirstId, hfirstKey⟩ := hdeliveries earlier hearlier
    rw [← hid, ← hfirstId]
    exact h.ids.committed tx htx cause hcause hfollows old hold first hfirst
      (holdKey.trans hkey) (hfirstKey.trans hcauseKey)
  · rw [hcommits]
    intro id tx hmem cause hcause hfollows earlier hearlier hcauseKey
    obtain ⟨first, hfirst, hfirstId, hfirstKey⟩ := hdeliveries earlier hearlier
    rw [← hfirstId]
    exact h.ids.running id tx (hrunning _ hmem) cause hcause hfollows first hfirst
      (hfirstKey.trans hcauseKey)
  · intro before event after hsplit cause hfollows
    rw [hsame] at hfollows
    exact h.logged before event after (hevents ▸ hsplit) cause hfollows
  · intro row hrow cause hfollows
    rw [hlock] at hrow
    rw [hsame] at hfollows
    rw [hevents]
    exact h.lost row hrow cause hfollows
  · intro w
    rw [hworkers]
    exact (h.workers w).frame (hinv.workers w) hkept ⟨[], by rw [hevents, List.append_nil]⟩

theorem CausalOk.append (h : CausalOk s) (hinv : AuditInvariant registry s) {row : RegistryEvent}
    {workers : ℕ → Worker}
    (hrow : ∀ cause, s.keyFollows row.eventKey cause = true → hasKey s.events cause = true)
    (hworkers : ∀ w, workers w = s.workers w ∨ WorkerOrdered
      { s with workers, events := s.events ++ [row], lock := none } (workers w)) :
    CausalOk { s with workers, events := s.events ++ [row], lock := none } where
  committed := h.committed
  running := h.running
  ids := ⟨h.ids.committed, h.ids.running⟩
  logged := h.logged.append hrow
  lost := nofun
  workers := by
    intro w
    have hkept : FollowsKept registry s
      { s with workers, events := s.events ++ [row], lock := none } := .of_eq rfl
    rcases hworkers w with hsame | hnew
    · show WorkerOrdered _ (workers w)
      rw [hsame]
      exact (h.workers w).frame (hinv.workers w) hkept ⟨[row], rfl⟩
    · exact hnew

theorem reserved_causal (h : CausalOk s) (hinv : AuditInvariant registry s) {tx : Transaction}
    (hready : tx.ready s.db = true) :
    CausalOk
      { s with nextId := s.nextId + 1, transactions := (s.nextId, tx) :: s.transactions } := by
  have hkept : FollowsKept registry s
    { s with nextId := s.nextId + 1, transactions := (s.nextId, tx) :: s.transactions } :=
    .of_eq rfl
  refine ⟨h.committed, ?_, ⟨h.ids.committed, ?_⟩, h.logged, h.lost, fun w => ?_⟩
  · intro id other hmem
    rcases List.mem_cons.mp hmem with hnew | hold
    · obtain ⟨-, rfl⟩ := Prod.mk.inj hnew
      exact Transaction.found_of_ready hready
    · exact h.running id other hold
  · intro id other hmem cause hcause hfollows earlier hearlier hkey
    rcases List.mem_cons.mp hmem with hnew | hold
    · obtain ⟨rfl, -⟩ := Prod.mk.inj hnew
      exact hinv.outbox.used _ (List.mem_append_left _ (List.mem_map_of_mem hearlier))
    · exact h.ids.running id other hold cause hcause hfollows earlier hearlier hkey
  · exact (h.workers w).frame (hinv.workers w) hkept ⟨[], (List.append_nil _).symm⟩

/-- The key of a transaction that commits is in no use. -/
theorem committed_key_new {db : Database} {tx : Transaction} {now : ℕ}
    (happly : tx.apply registry s.db now = .ok (true, db)) :
    s.db.outbox.find? tx.eventKey = none ∧
      ∀ event, ¬ Sourced registry s tx.eventKey event := by
  obtain ⟨row, hkey, -, hinsert⟩ := Transaction.apply_outbox happly
  have hnone := Table.find?_of_insert? hinsert
  rw [hkey] at hnone
  refine ⟨hnone, fun event hsourced => ?_⟩
  rcases hsourced with hdirect | ⟨stored, hstored, -⟩
  · exact tx.eventKey_ne_direct _ _ hdirect
  · rw [hnone] at hstored
    cases hstored

/-- The keys of the commits are those of the outbox, and of the deliveries. -/
theorem OutboxOk.commit_key (h : OutboxOk s) {tx : Transaction} (htx : tx ∈ s.commits) :
    ∃ row ∈ s.db.outbox.rows, row.eventKey = tx.eventKey := by
  have hpair : (tx.eventKey, tx.event) ∈
      s.db.outbox.rows.map fun row => (row.eventKey, row.event) := by
    rw [h.commits]
    exact List.mem_map_of_mem htx
  obtain ⟨row, hrow, hsame⟩ := List.mem_map.mp hpair
  exact ⟨row, hrow, congrArg Prod.fst hsame⟩

theorem OutboxOk.delivery_of_commit (h : OutboxOk s) {tx : Transaction} (htx : tx ∈ s.commits) :
    ∃ delivery ∈ s.deliveries.rows, delivery.eventKey = tx.eventKey := by
  obtain ⟨row, hrow, hkey⟩ := h.commit_key htx
  have hmem : row.eventKey ∈ s.deliveries.rows.map Delivery.eventKey := by
    rw [h.deliveries]
    exact List.mem_map_of_mem hrow
  obtain ⟨delivery, hdelivery, hsame⟩ := List.mem_map.mp hmem
  exact ⟨delivery, hdelivery, hsame.trans hkey⟩

theorem committed_causal (h : CausalOk s) (hinv : AuditInvariant registry s) {id now : ℕ}
    {tx : Transaction} {db : Database} (hrunning : (id, tx) ∈ s.transactions)
    (happly : tx.apply registry s.db now = .ok (true, db)) :
    CausalOk { s.abandon id with
      db
      deliveries := s.deliveries.upsert {
        eventKey := tx.eventKey
        id
        attempts := 0
        deliveredAt := none }
      commits := s.commits ++ [tx] } := by
  have happlied := Transaction.applied happly
  obtain ⟨hfree, hunused⟩ := committed_key_new happly
  have hnoDelivery : ∀ delivery ∈ s.deliveries.rows, delivery.eventKey ≠ tx.eventKey := by
    intro delivery hmem hsame
    obtain ⟨row, hrow⟩ := hinv.outbox.row_of_delivery hmem
    rw [hsame, hfree] at hrow
    cases hrow
  have hnoCommit : ∀ other ∈ s.commits, other.eventKey ≠ tx.eventKey := by
    intro other hmem hsame
    obtain ⟨delivery, hdelivery, hkey⟩ := hinv.outbox.delivery_of_commit hmem
    exact hnoDelivery delivery hdelivery (hkey.trans hsame)
  have hdeliveries : (s.deliveries.upsert ⟨tx.eventKey, id, 0, none⟩).rows =
      s.deliveries.rows ++ [⟨tx.eventKey, id, 0, none⟩] := by
    apply Table.rows_upsert_of_new
    exact Table.find?_eq_none _ |>.mpr hnoDelivery
  have hfound := h.running id tx hrunning
  -- nothing older follows the transaction, and its own key is new
  have hfollows : ∀ other ∈ s.commits ++ [tx], ∀ cause ∈ s.commits ++ [tx],
      other.follows cause = true → cause ∈ s.commits ∧ (other ∈ s.commits ∨ other = tx) := by
    intro other hother cause hcause hfollows
    have hfoundOther : other.Found s.db := by
      rcases List.mem_append.mp hother with hold | hnew
      · exact h.committed other hold
      · rw [List.mem_singleton.mp hnew]
        exact hfound
    rcases List.mem_append.mp hcause with hold | hnew
    · exact ⟨hold, (List.mem_append.mp hother).imp_right List.mem_singleton.mp⟩
    · rw [List.mem_singleton.mp hnew, hfoundOther.not_follows happlied] at hfollows
      cases hfollows
  have hkept : FollowsKept registry s { s.abandon id with
      db
      deliveries := s.deliveries.upsert ⟨tx.eventKey, id, 0, none⟩
      commits := s.commits ++ [tx] } := by
    intro eventKey cause event hsourced hkeys
    obtain ⟨other, hother, hkey, first, hfirst, hfirstKey, hafter⟩ := keyFollows_iff.mp hkeys
    obtain ⟨hcause, hold | rfl⟩ := hfollows other hother first hfirst hafter
    · exact keyFollows_iff.mpr ⟨other, hold, hkey, first, hcause, hfirstKey, hafter⟩
    · exact absurd (hkey ▸ hsourced) (hunused event)
  refine ⟨?_, ?_, ⟨?_, ?_⟩, ?_, ?_, fun w => ?_⟩
  · intro other hmem
    rcases List.mem_append.mp hmem with hold | hnew
    · exact (h.committed other hold).applied happlied
    · rw [List.mem_singleton.mp hnew]
      exact hfound.applied happlied
  · intro other running hmem
    exact (h.running other running (List.mem_filter.mp hmem).1).applied happlied
  · intro other hother cause hcause hafter delivery hdelivery earlier hearlier hkey hcauseKey
    change delivery ∈ (s.deliveries.upsert _).rows at hdelivery
    change earlier ∈ (s.deliveries.upsert _).rows at hearlier
    rw [hdeliveries] at hdelivery hearlier
    obtain ⟨hcauseOld, hotherOld⟩ := hfollows other hother cause hcause hafter
    have hearlierOld : earlier ∈ s.deliveries.rows := by
      rcases List.mem_append.mp hearlier with hold | hnew
      · exact hold
      · rw [List.mem_singleton.mp hnew] at hcauseKey
        exact absurd hcauseKey.symm (hnoCommit cause hcauseOld)
    rcases hotherOld with hold | rfl
    · rcases List.mem_append.mp hdelivery with hdeliveryOld | hnew
      · exact h.ids.committed other hold cause hcauseOld hafter delivery hdeliveryOld earlier
          hearlierOld hkey hcauseKey
      · rw [List.mem_singleton.mp hnew] at hkey
        exact absurd hkey.symm (hnoCommit other hold)
    · rcases List.mem_append.mp hdelivery with hdeliveryOld | hnew
      · exact absurd hkey (hnoDelivery delivery hdeliveryOld)
      · rw [List.mem_singleton.mp hnew]
        exact h.ids.running id other hrunning cause hcauseOld hafter earlier hearlierOld hcauseKey
  · intro other running hmem cause hcause hafter earlier hearlier hcauseKey
    have hold := (List.mem_filter.mp hmem).1
    change earlier ∈ (s.deliveries.upsert _).rows at hearlier
    rw [hdeliveries] at hearlier
    have hcauseOld : cause ∈ s.commits := by
      rcases List.mem_append.mp hcause with hcauseOld | hnew
      · exact hcauseOld
      · rw [List.mem_singleton.mp hnew,
          (h.running other running hold).not_follows happlied] at hafter
        cases hafter
    rcases List.mem_append.mp hearlier with hearlierOld | hnew
    · exact h.ids.running other running hold cause hcauseOld hafter earlier hearlierOld hcauseKey
    · rw [List.mem_singleton.mp hnew] at hcauseKey
      exact absurd hcauseKey.symm (hnoCommit cause hcauseOld)
  · intro before event after hsplit cause hkeys
    have hmem : event ∈ s.events := by
      rw [show s.events = before ++ event :: after from hsplit]
      simp
    obtain ⟨value, -, hsourced⟩ := hinv.log.sourced event hmem
    exact h.logged before event after hsplit cause (hkept _ cause value hsourced hkeys)
  · intro row hrow cause hkeys
    obtain ⟨eventKey, value, hsourced, ⟨stamp, hlinked⟩, -⟩ := hinv.lost row hrow
    have hkey : row.eventKey = eventKey := by
      rw [hlinked]
      rfl
    exact h.lost row hrow cause (hkept _ cause value (hkey ▸ hsourced) hkeys)
  · exact (h.workers w).frame (hinv.workers w) hkept ⟨[], (List.append_nil _).symm⟩

/-! ## A drain -/

theorem pendingRow_id {now : ℕ} {delivery : Delivery} {row : PendingRow}
    (h : s.pendingRow now delivery = some row) : row.id = delivery.id := by
  obtain ⟨-, stored, -, -, rfl⟩ := pendingRow_eq_some.mp h
  rfl

/-- The rows of a drain come in the order of their ids, no id twice. -/
theorem pairwise_pending (hok : OutboxOk s) (now : ℕ) :
    ((s.deliveries.rows.filterMap (s.pendingRow now)).insertionSort
      fun a b => a.id ≤ b.id).Pairwise fun a b => a.id < b.id := by
  have : Std.Total fun a b : PendingRow => a.id ≤ b.id := ⟨fun a b => Nat.le_total a.id b.id⟩
  have : IsTrans PendingRow fun a b => a.id ≤ b.id := ⟨fun _ _ _ => Nat.le_trans⟩
  have hsorted := List.pairwise_insertionSort (fun a b : PendingRow => a.id ≤ b.id)
    (s.deliveries.rows.filterMap (s.pendingRow now))
  have hrows : s.deliveries.rows.Pairwise fun a b => a.id ≠ b.id :=
    List.pairwise_map.mp (List.nodup_append.mp hok.ids).1
  have hdistinct : (s.deliveries.rows.filterMap (s.pendingRow now)).Pairwise
      fun a b => a.id ≠ b.id := by
    apply List.Pairwise.filterMap _ _ hrows
    intro a b hne row hrow other hother
    rw [pendingRow_id hrow, pendingRow_id hother]
    exact hne
  have hdistinct' := ((List.perm_insertionSort (fun a b : PendingRow => a.id ≤ b.id)
    _).pairwise_iff fun {a b} hne => hne.symm).mpr hdistinct
  exact hsorted.imp₂ (fun a b hle hne => Nat.lt_of_le_of_ne hle hne) hdistinct'

/-- What stands before a row of the drain's list is in the list. -/
theorem mem_take_of_lt {rows : List PendingRow} (h : rows.Pairwise fun a b => a.id < b.id)
    {limit : ℕ} {row other : PendingRow} (hrow : row ∈ rows.take limit) (hother : other ∈ rows)
    (hlt : other.id < row.id) : other ∈ rows.take limit := by
  rw [← List.take_append_drop limit rows] at h hother
  rcases List.mem_append.mp hother with htaken | hdropped
  · exact htaken
  · have hafter := (List.pairwise_append.mp h).2.2 row hrow other hdropped
    exact absurd hafter (Nat.lt_asymm hlt)

/-- A drain in order has everything that its rows follow in the log or earlier in its list. -/
theorem drained_queued (h : CausalOk s) (hinv : AuditInvariant registry s) {w now : ℕ}
    (horder : s.inOrder (.drain w now) = true) :
    Queued s (fun _ => False) (s.pendingOutbox now 100) := by
  have hpairwise := pairwise_pending hinv.outbox now
  refine ⟨hpairwise.sublist (List.take_sublist _ _), fun row hmem cause hfollows => ?_⟩
  obtain ⟨delivery, hdelivery, hrow⟩ := mem_pendingOutbox hmem
  obtain ⟨tx, htx, hkey, first, hfirst, hfirstKey, hafter⟩ := keyFollows_iff.mp hfollows
  obtain ⟨earlier, hearlier, hearlierKey⟩ := hinv.outbox.delivery_of_commit hfirst
  by_cases hdelivered : earlier.deliveredAt = none
  · right
    right
    obtain ⟨-, stored, hstored, -, hsame⟩ := pendingRow_eq_some.mp hrow
    have hdeliveryKey : delivery.eventKey = tx.eventKey := by
      rw [hkey, hsame, ← Table.key_of_find? hstored]
    have hlt : earlier.id < delivery.id := h.ids.committed tx htx first hfirst hafter delivery
      hdelivery earlier hearlier hdeliveryKey hearlierKey
    obtain ⟨firstRow, hfirstRow⟩ := hinv.outbox.row_of_delivery hearlier
    have havailable : firstRow.availableAt ≤ now := by
      have hall := List.all_eq_true.mp (List.all_eq_true.mp horder row hmem) earlier hearlier
      have hearlierFollows : s.keyFollows row.eventKey earlier.eventKey = true := by
        rw [hearlierKey, hfirstKey]
        exact hfollows
      simpa [hdelivered, hearlierFollows, hfirstRow] using hall
    have hpending : s.pendingRow now earlier =
        some ⟨earlier.id, firstRow.eventKey, firstRow.event⟩ :=
      pendingRow_eq_some.mpr ⟨hdelivered, firstRow, hfirstRow, havailable, rfl⟩
    refine ⟨⟨earlier.id, firstRow.eventKey, firstRow.event⟩, ?_, ?_, ?_⟩
    · apply mem_take_of_lt hpairwise hmem
      · exact (List.mem_insertionSort _).mpr (List.mem_filterMap.mpr ⟨earlier, hearlier, hpending⟩)
      · rw [pendingRow_id hrow]
        exact hlt
    · show firstRow.eventKey = cause
      rw [Table.key_of_find? hfirstRow, hearlierKey, hfirstKey]
    · rw [pendingRow_id hrow]
      exact hlt
  · left
    rw [← hfirstKey, ← hearlierKey]
    exact hinv.delivered earlier hearlier hdelivered

/-- No row follows another that it has found in the log by a key of its own. -/
theorem directKey_not_follows (event : Value) (cause : String) :
    s.keyFollows (directKey registry.assess.sha event) cause = false := by
  rw [← Bool.not_eq_true, keyFollows_iff]
  intro ⟨tx, _, hkey, _⟩
  exact tx.eventKey_ne_direct _ _ hkey

/-- The first row of the list has everything it follows in the log. -/
theorem Queued.head {row : PendingRow} {rest : List PendingRow}
    (h : Queued s (fun _ => False) (row :: rest)) :
    (∀ cause, s.keyFollows row.eventKey cause = true → hasKey s.events cause = true) ∧
      Queued s (· = row.eventKey) rest := by
  obtain ⟨hpairwise, hrows⟩ := h
  obtain ⟨hfirst, hrest⟩ := List.pairwise_cons.mp hpairwise
  refine ⟨fun cause hfollows => ?_, hrest, fun next hmem cause hfollows => ?_⟩
  · rcases hrows row List.mem_cons_self cause hfollows with hthere | hfalse | ⟨other, hother, -, hlt⟩
    · exact hthere
    · exact hfalse.elim
    · rcases List.mem_cons.mp hother with rfl | hlater
      · exact absurd hlt (Nat.lt_irrefl _)
      · exact absurd hlt (Nat.lt_asymm (hfirst other hlater))
  · rcases hrows next (List.mem_cons_of_mem _ hmem) cause hfollows with
      hthere | hfalse | ⟨other, hother, hkey, hlt⟩
    · exact Or.inl hthere
    · exact hfalse.elim
    · rcases List.mem_cons.mp hother with rfl | hlater
      · exact Or.inr (Or.inl hkey.symm)
      · exact Or.inr (Or.inr ⟨other, hlater, hkey, hlt⟩)

/-- Once the row that was taken is in the log, or nothing follows it, the rest goes on. -/
theorem Queued.resume {eventKey : String} {rest : List PendingRow}
    (h : Queued s (· = eventKey) rest)
    (hdone : hasKey s.events eventKey = true ∨
      ∀ row ∈ rest, s.keyFollows row.eventKey eventKey = false) :
    Queued s (fun _ => False) rest := by
  refine ⟨h.1, fun row hmem cause hfollows => ?_⟩
  rcases h.2 row hmem cause hfollows with hthere | rfl | hother
  · exact Or.inl hthere
  · rcases hdone with hkey | hnone
    · exact Or.inl hkey
    · rw [hnone row hmem] at hfollows
      cases hfollows
  · exact Or.inr (Or.inr hother)

theorem appendable_key {eventKey : String} {event : Value} {row : RegistryEvent}
    (h : Appendable registry s eventKey event row) : row.eventKey = eventKey := by
  obtain ⟨⟨now, hlinked⟩, -⟩ := h
  rw [hlinked]
  rfl

theorem marked_causal (h : CausalOk s) (hinv : AuditInvariant registry s) (id now : ℕ) :
    CausalOk (s.markOutboxDelivered id now) := by
  refine h.table_step hinv rfl rfl rfl rfl (fun _ hfound => hfound) (fun _ hmem => hmem) ?_
  intro delivery hmem
  obtain ⟨old, hold, ⟨-, rfl⟩ | ⟨-, rfl⟩⟩ :=
    Table.mem_update (AuditSystem.delivered_key now) hmem
  · exact ⟨old, hold, rfl, rfl⟩
  · exact ⟨delivery, hold, rfl, rfl⟩

theorem retried_causal (h : CausalOk s) (hinv : AuditInvariant registry s) (id now : ℕ) :
    CausalOk (s.retryOutbox id now) := by
  refine h.table_step hinv rfl rfl rfl rfl (fun _ hfound => hfound) (fun _ hmem => hmem) ?_
  intro delivery hmem
  obtain ⟨old, hold, ⟨-, rfl⟩ | ⟨-, rfl⟩⟩ := Table.mem_update AuditSystem.retried_key hmem
  · exact ⟨old, hold, rfl, rfl⟩
  · exact ⟨delivery, hold, rfl, rfl⟩

theorem CausalOk.moved (h : CausalOk s) (hinv : AuditInvariant registry s) {action : Action}
    (hmoved : Moved registry s action s') (horder : s.inOrder action = true) : CausalOk s' := by
  cases hmoved with
  | same => exact h
  | reserved hready => exact reserved_causal h hinv hready
  | abandoned id =>
    refine h.table_step hinv rfl rfl rfl rfl (fun _ hfound => hfound) ?_ ?_
    · exact fun running hmem => (List.mem_filter.mp hmem).1
    · exact fun delivery hmem => ⟨delivery, hmem, rfl, rfl⟩
  | committed hrunning happly => exact committed_causal h hinv hrunning happly
  | granted row =>
    refine h.table_step hinv rfl rfl rfl rfl (fun _ hfound => hfound) (fun _ hmem => hmem) ?_
    exact fun delivery hmem => ⟨delivery, hmem, rfl, rfl⟩
  | downloaded name version =>
    refine h.table_step hinv rfl rfl rfl rfl (fun tx hfound => ⟨hfound.1, fun key hkey => ?_⟩)
      (fun _ hmem => hmem) fun delivery hmem => ⟨delivery, hmem, rfl, rfl⟩
    rw [find?_recordDownload]
    exact isSome_map_ite.mpr (hfound.2 key hkey)
  | drained now hworker => exact h.worker_only hinv (drained_queued h hinv horder)
  | started event hworker =>
    refine h.worker_only hinv ⟨fun cause hfollows => ?_, .nil, nofun⟩
    rw [directKey_not_follows] at hfollows
    cases hfollows
  | finished w => exact h.worker_only hinv trivial
  | @taken _ w row rest hworker =>
    have hqueued := h.workers w
    rw [hworker] at hqueued
    exact h.worker_only hinv (Queued.head hqueued)
  | @acquired _ w job rest hworker hlock =>
    have hordered := h.workers w
    rw [hworker] at hordered
    exact h.worker_step hinv nofun hordered
  | @seen _ w job rest hworker hkey =>
    have hordered := h.workers w
    rw [hworker] at hordered
    exact h.worker_released hinv hordered
  | @unseen _ w job rest hworker hkey =>
    have hordered := h.workers w
    rw [hworker] at hordered
    exact h.worker_only hinv hordered
  | @read _ w job rest hworker =>
    have hordered := h.workers w
    rw [hworker] at hordered
    exact h.worker_only hinv hordered
  | @inserted _ w now job previous rest events hworker hinsert =>
    have hordered := h.workers w
    rw [hworker] at hordered
    exact h.worker_only hinv hordered
  | @failed _ w job progress rest hworker =>
    have hordered := h.workers w
    rw [hworker] at hordered
    exact h.worker_released hinv hordered
  | @appended _ w job event rest hworker =>
    have hordered := h.workers w
    have hok := hinv.workers w
    rw [hworker] at hordered hok
    obtain ⟨-, ⟨hlock, happend⟩, -⟩ := hok
    have hreleased : s.released w = none := if_pos hlock
    rw [hreleased]
    refine h.append hinv ?_ fun other => ?_
    · rw [appendable_key happend]
      exact hordered.1
    · by_cases hsame : other = w
      · right
        rw [hsame]
        show WorkerOrdered _ (Function.update s.workers w (.appending job .appended rest) w)
        rw [Function.update_self]
        have hkept : FollowsKept registry s
            { s.setWorker w (.appending job .appended rest) with
              events := s.events ++ [event]
              lock := none } := .of_eq rfl
        have hframe := WorkerOrdered.frame hordered (hworker ▸ hinv.workers w) hkept
          ⟨[event], rfl⟩
        exact hframe
      · exact Or.inl (Function.update_of_ne hsame _ _)
  | @lost _ w job event rest hworker =>
    have hordered := h.workers w
    have hok := hinv.workers w
    rw [hworker] at hordered hok
    obtain ⟨-, ⟨hlock, happend⟩, -⟩ := hok
    refine h.worker_step hinv (fun row hrow => Or.inr ?_) hordered
    obtain rfl := Holder.lost.inj (Option.some.inj hrow)
    rw [appendable_key happend]
    exact hordered.1
  | settled hlock => exact h.append hinv (h.lost _ hlock) fun w => Or.inl rfl
  | undone hlock =>
    have hkept : FollowsKept registry s { s with lock := none } := .of_eq rfl
    exact ⟨h.committed, h.running, ⟨h.ids.committed, h.ids.running⟩, h.logged, nofun,
      fun w => (h.workers w).frame (hinv.workers w) hkept ⟨[], (List.append_nil _).symm⟩⟩
  | @acknowledged _ w id eventKey event rest now hworker =>
    have hordered := h.workers w
    have hok := hinv.workers w
    rw [hworker] at hordered hok
    have hmarked := marked_inv hinv now hok.1 rfl hok.2.1
    refine (marked_causal h hinv id now).worker_only hmarked ?_
    exact hordered.2.resume (Or.inl hok.2.1)
  | @retried w id eventKey event rest now hworker =>
    have hordered := h.workers w
    rw [hworker] at hordered
    refine (retried_causal h hinv id now).worker_only (retried_inv hinv id now) ?_
    refine hordered.2.resume (Or.inr fun row hmem => ?_)
    unfold AuditSystem.inOrder at horder
    simp only [hworker] at horder
    have hnone := List.all_eq_true.mp horder row hmem
    simpa using hnone
  | stopped w => exact h.worker_released hinv trivial

theorem start_causal : CausalOk .start where
  committed := nofun
  running := nofun
  ids := ⟨nofun, nofun⟩
  logged := by
    intro before event after hevents
    simp [AuditSystem.start] at hevents
  lost := nofun
  workers _ := trivial

theorem CausalOk.steps (h : CausalOk s) (hinv : AuditInvariant registry s) {actions : List Action}
    (horder : stepsInOrder registry s actions = true) : CausalOk (steps registry s actions) := by
  induction actions generalizing s with
  | nil => exact h
  | cons action rest ih =>
    rw [stepsInOrder, Bool.and_eq_true] at horder
    have hmoved := step_moved registry s action
    exact ih (h.moved hinv hmoved horder.1) (hinv.moved hmoved) horder.2

end Steps

/-- A run in order keeps the causal order of its log. -/
theorem log_ordered_of_inOrder (registry : PostgresRegistry) (actions : List Action)
    (horder : stepsInOrder registry .start actions = true) :
    CausalOrder (steps registry .start actions) := by
  have hcausal : CausalOk (steps registry .start actions) :=
    start_causal.steps (start_inv registry) horder
  have hcommits := steps_commitsOk registry start_commitsOk actions
  generalize steps registry .start actions = s at hcausal hcommits
  constructor
  · intro stage approve reason principal publishedAt htx before event after hevents hkey
    have hstage := (hcausal.committed _ htx).1 stage.id rfl
    obtain ⟨cause, hcause, hcreates⟩ := (hcommits.stages stage.id).mp hstage
    have hcauseKey : cause.eventKey = "stage.created:" ++ stage.id := by
      cases cause with
      | createStage created principal => rw [← hcreates]; rfl
      | decideStage => exact hcreates.elim
      | revokeVersion => exact hcreates.elim
    rw [← hcauseKey]
    apply hcausal.logged before event after hevents
    rw [hkey]
    apply keyFollows_iff.mpr
    refine ⟨_, htx, rfl, cause, hcause, rfl, ?_⟩
    exact Transaction.follows_iff.mpr (Or.inl ⟨stage.id, rfl, hcreates⟩)
  · intro tombstone htx before event after hevents hkey
    have hversion := (hcausal.committed _ htx).2 (tombstone.name, tombstone.version) rfl
    obtain ⟨cause, hcause, hpublishes⟩ := (hcommits.versions _).mp hversion
    refine ⟨cause, hcause, hpublishes, ?_⟩
    apply hcausal.logged before event after hevents
    rw [hkey]
    apply keyFollows_iff.mpr
    refine ⟨_, htx, rfl, cause, hcause, rfl, ?_⟩
    exact Transaction.follows_iff.mpr (Or.inr ⟨_, rfl, hpublishes⟩)

/-! ## A decision before its stage -/

def demoApproved : Transaction := .decideStage demoStage true none demoAdmin demoTime

/-- Each event is delivered before the next transaction. -/
def orderedRun : List Action :=
  demoDrain ++ appendActions 0 demoTime ++
    [.acknowledge 0 demoTime, .next 0, .reserve demoApproved, .commit 2 demoTime,
      .drain 0 demoTime] ++ appendActions 0 demoTime

/-- The first append fails; the stage is approved before the retry is due. -/
def lateRun : List Action :=
  demoDrain ++ [.next 0, .fail 0, .retry 0 demoTime, .next 0, .reserve demoApproved,
    .commit 2 demoTime, .drain 0 demoTime] ++ appendActions 0 demoTime

theorem log_ordered_of_inOrder_demo : stepsInOrder demoRegistry .start orderedRun = true ∧
    CausalOrder (steps demoRegistry .start orderedRun) := by
  have horder : stepsInOrder demoRegistry .start orderedRun = true := by decide +kernel
  exact ⟨horder, log_ordered_of_inOrder demoRegistry orderedRun horder⟩

/-- The approval is in the log, and the creation is not. -/
theorem log_unordered : ¬ ∀ registry actions, CausalOrder (steps registry .start actions) := by
  intro hall
  have hkeys : (steps demoRegistry .start lateRun).events.map RegistryEvent.eventKey =
      [demoApproved.eventKey] := by decide +kernel
  have hcommits : (steps demoRegistry .start lateRun).commits = [demoCreated, demoApproved] := rfl
  obtain ⟨event, hevents, hkey⟩ := List.map_eq_singleton_iff.mp hkeys
  have happroved : demoApproved ∈ (steps demoRegistry .start lateRun).commits := by
    rw [hcommits]
    exact List.mem_cons_of_mem _ List.mem_cons_self
  have hbefore := (hall demoRegistry lateRun).decisions demoStage true none demoAdmin demoTime
    happroved [] event [] hevents hkey
  cases hbefore

end Oath.Registry
