import Oath.Registry.DeliverySteps

/-! The invariant of the delivery: one worker at a time writes to the log, and knows that nobody
else does; every row of the outbox that is marked has its event. -/

namespace Oath.Registry
open Contracts Database

/-! ## What holds of the system -/

section Invariant
variable (registry : PostgresRegistry) (s : AuditSystem)

/-- The event belongs to its key: by its own digest, or by the outbox row with the key. -/
def Sourced (eventKey : String) (event : Value) : Prop :=
  eventKey = directKey registry.assess.sha event ∨
    ∃ row, s.db.outbox.find? eventKey = some row ∧ row.event = event

structure JobOwed (job : Job) : Prop where
  sourced : Sourced registry s job.eventKey job.event
  row : ∀ id, job.row = some id →
    ∃ delivery ∈ s.deliveries.rows, delivery.id = id ∧ delivery.eventKey = job.eventKey

/-- The row links to the last one, and the log does not have its key or its hash. -/
def Appendable (eventKey : String) (event : Value) (row : RegistryEvent) : Prop :=
  (∃ now, row = linkedEvent registry eventKey event (latestHash s.events) now) ∧
    insertEvent s.events row = .ok (s.events ++ [row])

/-- What a worker knows at each point: from the lock on, that nobody else has written. -/
def ProgressOk (w : ℕ) (job : Job) : Progress → Prop
  | .begun => True
  | .locked => s.lock = some (.worker w)
  | .absent => s.lock = some (.worker w) ∧ hasKey s.events job.eventKey = false
  | .linked previous => s.lock = some (.worker w) ∧ hasKey s.events job.eventKey = false ∧
    previous = latestHash s.events
  | .inserted row => s.lock = some (.worker w) ∧ Appendable registry s job.eventKey job.event row
  | .appended => hasKey s.events job.eventKey = true
  | .failed => True

def WorkerOk (w : ℕ) : Worker → Prop
  | .idle => True
  | .draining rest => ∀ row ∈ rest, JobOwed registry s row.job
  | .appending job progress rest => JobOwed registry s job ∧
    ProgressOk registry s w job progress ∧ ∀ row ∈ rest, JobOwed registry s row.job

/-- What the transaction that has lost its connection would append. -/
def LostOk : Prop := ∀ row, s.lock = some (.lost row) →
  ∃ eventKey event, Sourced registry s eventKey event ∧ Appendable registry s eventKey event row

/-- The log: one chain, no key twice, and every event belongs to its key. -/
structure LogOk : Prop where
  chain : HashChain registry.assess.sha s.events
  keys : (s.events.map RegistryEvent.eventKey).Nodup
  sourced : ∀ row ∈ s.events, ∃ event, row.eventJson = eventText event ∧
    Sourced registry s row.eventKey event

/-- The outbox: one row for every commit, with an id of its own. -/
structure OutboxOk : Prop where
  commits : s.db.outbox.rows.map (fun row => (row.eventKey, row.event)) =
    s.commits.map fun tx => (tx.eventKey, tx.event)
  deliveries : s.deliveries.rows.map Delivery.eventKey =
    s.db.outbox.rows.map OutboxRow.eventKey
  ids : (s.deliveries.rows.map Delivery.id ++ s.transactions.map Prod.fst).Nodup
  used : ∀ id ∈ s.deliveries.rows.map Delivery.id ++ s.transactions.map Prod.fst, id < s.nextId

structure AuditInvariant : Prop where
  log : LogOk registry s
  outbox : OutboxOk s
  delivered : ∀ delivery ∈ s.deliveries.rows, delivery.deliveredAt ≠ none →
    hasKey s.events delivery.eventKey = true
  lost : LostOk registry s
  workers : ∀ w, WorkerOk registry s w (s.workers w)

end Invariant

/-! ## What a change leaves alone -/

section Frame
variable {registry : PostgresRegistry} {s s' : AuditSystem}

/-- The outbox has only got more rows: times and attempts apart, the old ones are as they were. -/
structure Grows (s s' : AuditSystem) : Prop where
  outbox : ∀ eventKey row, s.db.outbox.find? eventKey = some row →
    ∃ row', s'.db.outbox.find? eventKey = some row' ∧ row'.event = row.event
  deliveries : ∀ delivery ∈ s.deliveries.rows, ∃ delivery' ∈ s'.deliveries.rows,
    delivery'.id = delivery.id ∧ delivery'.eventKey = delivery.eventKey

theorem Grows.of_eq (hdb : s'.db.outbox = s.db.outbox) (hdeliveries : s'.deliveries = s.deliveries) :
    Grows s s' where
  outbox := by
    intro eventKey row hrow
    rw [hdb]
    exact ⟨row, hrow, rfl⟩
  deliveries := by
    intro delivery hmem
    rw [hdeliveries]
    exact ⟨delivery, hmem, rfl, rfl⟩

theorem Sourced.grows {eventKey : String} {event : Value} (h : Sourced registry s eventKey event)
    (hgrows : Grows s s') : Sourced registry s' eventKey event := by
  rcases h with hdirect | ⟨row, hrow, hevent⟩
  · exact Or.inl hdirect
  · obtain ⟨row', hrow', hsame⟩ := hgrows.outbox eventKey row hrow
    exact Or.inr ⟨row', hrow', hsame.trans hevent⟩

theorem JobOwed.grows {job : Job} (h : JobOwed registry s job) (hgrows : Grows s s') :
    JobOwed registry s' job where
  sourced := h.sourced.grows hgrows
  row := by
    intro id hid
    obtain ⟨delivery, hmem, hsame, hkey⟩ := h.row id hid
    obtain ⟨delivery', hmem', hsame', hkey'⟩ := hgrows.deliveries delivery hmem
    exact ⟨delivery', hmem', hsame'.trans hsame, hkey'.trans hkey⟩

theorem hasKey_of_extends {events more : List RegistryEvent} {eventKey : String}
    (h : hasKey events eventKey = true) : hasKey (events ++ more) eventKey = true := by
  rw [hasKey_append, h, Bool.true_or]

/-- A worker knows what it knew while the lock is its own and the log the same, and what it has
appended stays. -/
theorem WorkerOk.frame {w : ℕ} {worker : Worker} (h : WorkerOk registry s w worker)
    (hgrows : Grows s s')
    (hheld : s.lock = some (.worker w) → s'.lock = some (.worker w) ∧ s'.events = s.events)
    (hextends : ∃ more, s'.events = s.events ++ more) : WorkerOk registry s' w worker := by
  cases worker with
  | idle => trivial
  | draining rest => exact fun row hmem => (h row hmem).grows hgrows
  | appending job progress rest =>
    obtain ⟨howed, hprogress, hrest⟩ := h
    refine ⟨howed.grows hgrows, ?_, fun row hmem => (hrest row hmem).grows hgrows⟩
    cases progress with
    | begun => trivial
    | locked => exact (hheld hprogress).1
    | absent =>
      obtain ⟨hlock, hevents⟩ := hheld hprogress.1
      exact ⟨hlock, hevents ▸ hprogress.2⟩
    | linked previous =>
      obtain ⟨hlock, hevents⟩ := hheld hprogress.1
      exact ⟨hlock, hevents ▸ hprogress.2⟩
    | inserted row =>
      obtain ⟨hlock, hevents⟩ := hheld hprogress.1
      refine ⟨hlock, ?_⟩
      unfold Appendable
      rw [hevents]
      exact hprogress.2
    | appended =>
      obtain ⟨more, hmore⟩ := hextends
      show hasKey s'.events job.eventKey = true
      rw [hmore]
      exact hasKey_of_extends hprogress
    | failed => trivial

theorem LogOk.grows (h : LogOk registry s) (hgrows : Grows s s') (hevents : s'.events = s.events) :
    LogOk registry s' where
  chain := hevents ▸ h.chain
  keys := hevents ▸ h.keys
  sourced := by
    intro row hmem
    rw [hevents] at hmem
    obtain ⟨event, htext, hsourced⟩ := h.sourced row hmem
    exact ⟨event, htext, hsourced.grows hgrows⟩

/-- The log after a row that was linked to its end. -/
theorem LogOk.append {eventKey : String} {event : Value} {row : RegistryEvent}
    (h : LogOk registry s) (hsourced : Sourced registry s eventKey event)
    (happend : Appendable registry s eventKey event row) (hgrows : Grows s s')
    (hevents : s'.events = s.events ++ [row]) : LogOk registry s' := by
  obtain ⟨⟨now, hlinked⟩, hinsert⟩ := happend
  obtain ⟨-, hfree, -⟩ := insertEvent_ok.mp hinsert
  refine ⟨?_, ?_, ?_⟩
  · rw [hevents]
    apply h.chain.append
    · rw [hlinked]
      rfl
    · rw [hlinked]
      rfl
  · rw [hevents, List.map_append]
    apply List.nodup_append.mpr
    refine ⟨h.keys, List.nodup_singleton _, ?_⟩
    intro old hold new hnew heq
    obtain ⟨other, hmem, rfl⟩ := List.mem_map.mp hold
    have hnew' : new = row.eventKey := List.mem_singleton.mp hnew
    rw [hasKey_iff.mpr ⟨other, hmem, heq.trans hnew'⟩] at hfree
    cases hfree
  · intro other hmem
    rw [hevents] at hmem
    rcases List.mem_append.mp hmem with hold | hnew
    · obtain ⟨value, htext, hother⟩ := h.sourced other hold
      exact ⟨value, htext, hother.grows hgrows⟩
    · obtain rfl := List.mem_singleton.mp hnew
      refine ⟨event, ?_, ?_⟩
      · rw [hlinked]
        rfl
      · have hkey : other.eventKey = eventKey := by
          rw [hlinked]
          rfl
        rw [hkey]
        exact hsourced.grows hgrows

end Frame

/-! ## Steps of the workers -/

section Workers
variable {registry : PostgresRegistry} {s : AuditSystem}

theorem released_other {w other : ℕ} (hne : other ≠ w) (h : s.lock = some (.worker other)) :
    s.released w = some (.worker other) := by
  unfold AuditSystem.released
  rw [h, if_neg (by simp [hne])]

theorem released_lost {w : ℕ} {row : RegistryEvent} (h : s.released w = some (.lost row)) :
    s.lock = some (.lost row) := by
  unfold AuditSystem.released at h
  split_ifs at h
  exact h

/-- A worker moves; the others keep the lock if they have it. -/
theorem AuditInvariant.setWorker (h : AuditInvariant registry s) {w : ℕ} {worker : Worker}
    {lock : Option Holder}
    (hother : ∀ other ≠ w, s.lock = some (.worker other) → lock = some (.worker other))
    (hlost : ∀ row, lock = some (.lost row) → s.lock = some (.lost row) ∨
      ∃ eventKey event, Sourced registry s eventKey event ∧
        Appendable registry s eventKey event row)
    (hworker : WorkerOk registry { s.setWorker w worker with lock } w worker) :
    AuditInvariant registry { s.setWorker w worker with lock } where
  log := h.log.grows (.of_eq rfl rfl) rfl
  outbox := ⟨h.outbox.commits, h.outbox.deliveries, h.outbox.ids, h.outbox.used⟩
  delivered := h.delivered
  lost := by
    intro row hrow
    rcases hlost row hrow with hold | hnew
    · exact h.lost row hold
    · exact hnew
  workers := by
    intro other
    have hgrows : Grows s { s.setWorker w worker with lock } := .of_eq rfl rfl
    show WorkerOk registry _ other (Function.update s.workers w worker other)
    by_cases hsame : other = w
    · rw [hsame, Function.update_self]
      exact hworker
    · rw [Function.update_of_ne hsame]
      apply (h.workers other).frame hgrows
      · intro hheld
        exact ⟨hother other hsame hheld, rfl⟩
      · exact ⟨[], (List.append_nil _).symm⟩

/-- The same without a change of the lock. -/
theorem AuditInvariant.setWorker_only (h : AuditInvariant registry s) {w : ℕ} {worker : Worker}
    (hworker : WorkerOk registry (s.setWorker w worker) w worker) :
    AuditInvariant registry (s.setWorker w worker) :=
  h.setWorker (fun _ _ hheld => hheld) (fun _ hrow => Or.inl hrow) hworker

theorem AuditInvariant.setWorker_released (h : AuditInvariant registry s) {w : ℕ}
    {worker : Worker}
    (hworker : WorkerOk registry { s.setWorker w worker with lock := s.released w } w worker) :
    AuditInvariant registry { s.setWorker w worker with lock := s.released w } :=
  h.setWorker (fun _ hne hheld => released_other hne hheld)
    (fun _ hrow => Or.inl (released_lost hrow)) hworker

/-- The holder of the lock appends its row and lets the lock go. -/
theorem AuditInvariant.append (h : AuditInvariant registry s) {eventKey : String} {event : Value}
    {row : RegistryEvent} {workers : ℕ → Worker} (hsourced : Sourced registry s eventKey event)
    (happend : Appendable registry s eventKey event row)
    (hworkers : ∀ w, workers w = s.workers w ∧ s.lock ≠ some (.worker w) ∨
      WorkerOk registry { s with workers, events := s.events ++ [row], lock := none } w
        (workers w)) :
    AuditInvariant registry
      { s with workers, events := s.events ++ [row], lock := none } where
  log := h.log.append hsourced happend (.of_eq rfl rfl) rfl
  outbox := ⟨h.outbox.commits, h.outbox.deliveries, h.outbox.ids, h.outbox.used⟩
  delivered := by
    intro delivery hmem hdelivered
    exact hasKey_of_extends (h.delivered delivery hmem hdelivered)
  lost := nofun
  workers := by
    intro w
    have hgrows : Grows s { s with workers, events := s.events ++ [row], lock := none } :=
      .of_eq rfl rfl
    rcases hworkers w with ⟨hsame, hfree⟩ | hnew
    · show WorkerOk registry _ w (workers w)
      rw [hsame]
      apply (h.workers w).frame hgrows
      · intro hheld
        exact absurd hheld hfree
      · exact ⟨[row], rfl⟩
    · exact hnew

end Workers

/-! ## Steps of the outbox -/

section Outbox
variable {registry : PostgresRegistry} {s s' : AuditSystem}

/-- A step that leaves the workers, the log and its lock alone. -/
theorem AuditInvariant.outbox_step (h : AuditInvariant registry s) (hgrows : Grows s s')
    (houtbox : OutboxOk s') (hevents : s'.events = s.events) (hlock : s'.lock = s.lock)
    (hworkers : s'.workers = s.workers)
    (hdelivered : ∀ delivery ∈ s'.deliveries.rows, delivery.deliveredAt ≠ none →
      hasKey s'.events delivery.eventKey = true) : AuditInvariant registry s' where
  log := h.log.grows hgrows hevents
  outbox := houtbox
  delivered := hdelivered
  lost := by
    intro row hrow
    rw [hlock] at hrow
    obtain ⟨eventKey, event, hsourced, happend⟩ := h.lost row hrow
    refine ⟨eventKey, event, hsourced.grows hgrows, ?_⟩
    unfold Appendable
    rw [hevents]
    exact happend
  workers := by
    intro w
    rw [hworkers]
    apply (h.workers w).frame hgrows
    · intro hheld
      exact ⟨hlock.trans hheld, hevents⟩
    · exact ⟨[], by rw [hevents, List.append_nil]⟩

theorem OutboxOk.delivery_inj (h : OutboxOk s) {delivery other : Delivery}
    (hmem : delivery ∈ s.deliveries.rows) (hother : other ∈ s.deliveries.rows)
    (hid : delivery.id = other.id) : delivery = other :=
  List.inj_on_of_nodup_map (List.nodup_append.mp h.ids).1 hmem hother hid

/-- Every delivery is of a row of the outbox. -/
theorem OutboxOk.row_of_delivery (h : OutboxOk s) {delivery : Delivery}
    (hmem : delivery ∈ s.deliveries.rows) :
    ∃ row, s.db.outbox.find? delivery.eventKey = some row := by
  have hkey : delivery.eventKey ∈ s.db.outbox.rows.map OutboxRow.eventKey := by
    rw [← h.deliveries]
    exact List.mem_map_of_mem hmem
  obtain ⟨row, hrow, hsame⟩ := List.mem_map.mp hkey
  rw [← hsame]
  exact ⟨row, Table.find?_key hrow⟩

theorem reserved_inv (h : AuditInvariant registry s) (tx : Transaction) :
    AuditInvariant registry
      { s with nextId := s.nextId + 1, transactions := (s.nextId, tx) :: s.transactions } := by
  refine h.outbox_step (Grows.of_eq rfl rfl) ?_ rfl rfl rfl h.delivered
  refine ⟨h.outbox.commits, h.outbox.deliveries, ?_, ?_⟩
  · rw [List.map_cons, List.nodup_middle, List.nodup_cons]
    refine ⟨fun hmem => ?_, h.outbox.ids⟩
    exact Nat.lt_irrefl _ (h.outbox.used s.nextId hmem)
  · intro id hmem
    rw [List.map_cons, List.mem_append, List.mem_cons] at hmem
    rcases hmem with hold | rfl | hold
    · exact Nat.lt_succ_of_lt (h.outbox.used id (List.mem_append_left _ hold))
    · exact Nat.lt_succ_self _
    · exact Nat.lt_succ_of_lt (h.outbox.used id (List.mem_append_right _ hold))

theorem abandon_ids (s : AuditSystem) (id : ℕ) :
    ((s.abandon id).transactions.map Prod.fst).Sublist (s.transactions.map Prod.fst) :=
  List.filter_sublist.map Prod.fst

theorem abandoned_inv (h : AuditInvariant registry s) (id : ℕ) :
    AuditInvariant registry (s.abandon id) := by
  refine h.outbox_step (Grows.of_eq rfl rfl) ?_ rfl rfl rfl h.delivered
  have hsub : (s.deliveries.rows.map Delivery.id ++
      (s.abandon id).transactions.map Prod.fst).Sublist
      (s.deliveries.rows.map Delivery.id ++ s.transactions.map Prod.fst) :=
    (List.append_sublist_append_left _).mpr (abandon_ids s id)
  refine ⟨h.outbox.commits, h.outbox.deliveries, hsub.nodup h.outbox.ids, ?_⟩
  intro other hmem
  exact h.outbox.used other (hsub.subset hmem)

/-- The new row comes last, in the outbox and among the deliveries. -/
theorem committed_inv (h : AuditInvariant registry s) {id now : ℕ} {tx : Transaction}
    {db : Database} (hrunning : (id, tx) ∈ s.transactions)
    (happly : tx.apply registry s.db now = .ok (true, db)) :
    AuditInvariant registry { s.abandon id with
      db
      deliveries := s.deliveries.upsert {
        eventKey := tx.eventKey
        id
        attempts := 0
        deliveredAt := none }
      commits := s.commits ++ [tx] } := by
  obtain ⟨row, hkey, hevent, hinsert⟩ := Transaction.apply_outbox happly
  have hnew := Table.find?_of_insert? hinsert
  have hrows := Table.rows_of_insert? hinsert
  have hfree : s.deliveries.find? tx.eventKey = none := by
    rw [Table.find?_eq_none] at hnew ⊢
    intro delivery hmem hsame
    have hmem' : delivery.eventKey ∈ s.db.outbox.rows.map OutboxRow.eventKey := by
      rw [← h.outbox.deliveries]
      exact List.mem_map_of_mem hmem
    obtain ⟨other, hother, hother'⟩ := List.mem_map.mp hmem'
    exact hnew other hother ((hother'.trans hsame).trans hkey.symm)
  have hdeliveries : (s.deliveries.upsert ⟨tx.eventKey, id, 0, none⟩).rows =
      s.deliveries.rows ++ [⟨tx.eventKey, id, 0, none⟩] := Table.rows_upsert_of_new hfree
  have hused : id ∈ s.transactions.map Prod.fst := List.mem_map_of_mem hrunning
  apply h.outbox_step
  · refine ⟨fun eventKey old hold => ?_, fun delivery hmem => ?_⟩
    · refine ⟨old, ?_, rfl⟩
      show db.outbox.find? eventKey = some old
      rw [Table.find?_insert? hinsert, if_neg]
      · exact hold
      · intro hsame
        rw [← hsame, hnew] at hold
        cases hold
    · refine ⟨delivery, ?_, rfl, rfl⟩
      show delivery ∈ (s.deliveries.upsert _).rows
      rw [hdeliveries]
      exact List.mem_append_left _ hmem
  · refine ⟨?_, ?_, ?_, ?_⟩
    · show db.outbox.rows.map _ = (s.commits ++ [tx]).map _
      rw [hrows, List.map_append, List.map_append, h.outbox.commits]
      simp [hkey, hevent]
    · show (s.deliveries.upsert _).rows.map _ = db.outbox.rows.map _
      rw [hdeliveries, hrows, List.map_append, List.map_append, h.outbox.deliveries]
      simp [hkey]
    · show ((s.deliveries.upsert _).rows.map Delivery.id ++ _).Nodup
      rw [hdeliveries, List.map_append, List.append_assoc]
      obtain ⟨hold, hrunningIds, hapart⟩ := List.nodup_append.mp h.outbox.ids
      apply List.nodup_append.mpr
      refine ⟨hold, ?_, ?_⟩
      · refine List.nodup_cons.mpr ⟨?_, (abandon_ids s id).nodup hrunningIds⟩
        intro hmem
        obtain ⟨running, hfilter, hsame⟩ := List.mem_map.mp hmem
        have hother := (List.mem_filter.mp hfilter).2
        simp [hsame] at hother
      · intro a ha b hb
        rcases List.mem_cons.mp hb with rfl | hb
        · exact hapart a ha _ hused
        · exact hapart a ha b ((abandon_ids s id).subset hb)
    · intro other hmem
      apply h.outbox.used
      change other ∈ (s.deliveries.upsert _).rows.map Delivery.id ++ _ at hmem
      rw [hdeliveries, List.map_append, List.append_assoc, List.mem_append] at hmem
      apply List.mem_append.mpr
      rcases hmem with hold | hnew
      · exact Or.inl hold
      · rcases List.mem_cons.mp hnew with rfl | hrest
        · exact Or.inr hused
        · exact Or.inr ((abandon_ids s id).subset hrest)
  · rfl
  · rfl
  · rfl
  · intro delivery hmem hdelivered
    change delivery ∈ (s.deliveries.upsert _).rows at hmem
    rw [hdeliveries] at hmem
    rcases List.mem_append.mp hmem with hold | hnew
    · exact h.delivered delivery hold hdelivered
    · rw [List.mem_singleton.mp hnew] at hdelivered
      exact absurd rfl hdelivered

/-- A change of tables that nothing here reads. -/
theorem database_inv (h : AuditInvariant registry s) {db : Database}
    (hsame : db.outbox = s.db.outbox) : AuditInvariant registry { s with db } := by
  refine h.outbox_step (Grows.of_eq hsame rfl) ?_ rfl rfl rfl h.delivered
  refine ⟨?_, ?_, h.outbox.ids, h.outbox.used⟩
  · show db.outbox.rows.map _ = _
    rw [hsame]
    exact h.outbox.commits
  · show _ = db.outbox.rows.map _
    rw [hsame]
    exact h.outbox.deliveries

theorem update_deliveries {p : Delivery → Bool} {f : Delivery → Delivery}
    (hkey : ∀ delivery, (f delivery).eventKey = delivery.eventKey)
    (hid : ∀ delivery, (f delivery).id = delivery.id) :
    ∀ delivery ∈ s.deliveries.rows, ∃ delivery' ∈ (s.deliveries.update p f hkey).rows,
      delivery'.id = delivery.id ∧ delivery'.eventKey = delivery.eventKey := by
  intro delivery hmem
  refine ⟨_, List.mem_map_of_mem hmem, ?_, ?_⟩
  · split_ifs
    · exact hid delivery
    · rfl
  · split_ifs
    · exact hkey delivery
    · rfl

/-- The row that is marked has its event in the log. -/
theorem marked_inv (h : AuditInvariant registry s) {job : Job} {id : ℕ} (now : ℕ)
    (howed : JobOwed registry s job) (hrow : job.row = some id)
    (hkey : hasKey s.events job.eventKey = true) :
    AuditInvariant registry (s.markOutboxDelivered id now) := by
  have hgrows : Grows s (s.markOutboxDelivered id now) := by
    refine ⟨fun eventKey row hfind => ⟨row, hfind, rfl⟩, ?_⟩
    exact update_deliveries (AuditSystem.delivered_key now) fun _ => rfl
  have hids : (s.markOutboxDelivered id now).deliveries.rows.map Delivery.id =
      s.deliveries.rows.map Delivery.id := Table.map_update _ _ (AuditSystem.delivered_key now) _ fun _ => rfl
  refine h.outbox_step hgrows ?_ rfl rfl rfl ?_
  · refine ⟨h.outbox.commits, ?_, ?_, ?_⟩
    · have hkeys : (s.markOutboxDelivered id now).deliveries.rows.map Delivery.eventKey =
          s.deliveries.rows.map Delivery.eventKey :=
        Table.map_update _ _ (AuditSystem.delivered_key now) _ fun _ => rfl
      exact hkeys.trans h.outbox.deliveries
    · rw [hids]
      exact h.outbox.ids
    · rw [hids]
      exact h.outbox.used
  · intro delivery hmem hdelivered
    obtain ⟨old, hold, ⟨hid, rfl⟩ | ⟨-, rfl⟩⟩ := Table.mem_update (AuditSystem.delivered_key now) hmem
    · obtain ⟨other, hother, hsame, hotherKey⟩ := howed.row id hrow
      obtain rfl := h.outbox.delivery_inj hold hother ((of_decide_eq_true hid).trans hsame.symm)
      rw [AuditSystem.delivered_key, hotherKey]
      exact hkey
    · exact h.delivered delivery hold hdelivered

theorem retryOutbox_grows (s : AuditSystem) (id now : ℕ) : Grows s (s.retryOutbox id now) := by
  refine ⟨fun eventKey row hfind => ?_, update_deliveries AuditSystem.retried_key fun _ => rfl⟩
  have hfind' := s.db.outbox.find?_update (fun row => s.deliveries.rows.any fun delivery =>
    delivery.id = id && delivery.eventKey = row.eventKey) (AuditSystem.postponed now)
    (AuditSystem.postponed_key now) eventKey
  rw [hfind, Option.map_some] at hfind'
  refine ⟨_, hfind', ?_⟩
  split_ifs <;> rfl

theorem retried_inv (h : AuditInvariant registry s) (id now : ℕ) :
    AuditInvariant registry (s.retryOutbox id now) := by
  have hids : (s.retryOutbox id now).deliveries.rows.map Delivery.id =
      s.deliveries.rows.map Delivery.id := Table.map_update _ _ AuditSystem.retried_key _ fun _ => rfl
  refine h.outbox_step (retryOutbox_grows s id now) ?_ rfl rfl rfl ?_
  · refine ⟨?_, ?_, ?_, ?_⟩
    · rw [show (s.retryOutbox id now).commits = s.commits from rfl, ← h.outbox.commits]
      exact Table.map_update _ _ (AuditSystem.postponed_key now) _ fun _ => rfl
    · have hkeys : (s.retryOutbox id now).db.outbox.rows.map OutboxRow.eventKey =
          s.db.outbox.rows.map OutboxRow.eventKey :=
        Table.map_update _ _ (AuditSystem.postponed_key now) _ fun _ => rfl
      rw [hkeys, ← h.outbox.deliveries]
      exact Table.map_update _ _ AuditSystem.retried_key _ fun _ => rfl
    · rw [hids]
      exact h.outbox.ids
    · rw [hids]
      exact h.outbox.used
  · intro delivery hmem hdelivered
    obtain ⟨old, hold, ⟨-, rfl⟩ | ⟨-, rfl⟩⟩ := Table.mem_update AuditSystem.retried_key hmem
    · exact h.delivered old hold hdelivered
    · exact h.delivered delivery hold hdelivered

end Outbox

/-! ## Runs -/

section Runs
variable {registry : PostgresRegistry} {s s' : AuditSystem}

theorem pendingRow_eq_some {now : ℕ} {delivery : Delivery} {row : PendingRow} :
    s.pendingRow now delivery = some row ↔ delivery.deliveredAt = none ∧
      ∃ stored, s.db.outbox.find? delivery.eventKey = some stored ∧ stored.availableAt ≤ now ∧
        row = ⟨delivery.id, stored.eventKey, stored.event⟩ := by
  unfold AuditSystem.pendingRow
  split_ifs with hpending
  · simp only [hpending, true_and, Option.map_eq_some_iff, Option.filter_eq_some_iff,
      decide_eq_true_eq, and_assoc]
    apply exists_congr
    intro stored
    exact and_congr_right fun _ => and_congr_right fun _ => eq_comm
  · simp [hpending]

theorem mem_pendingOutbox {now limit : ℕ} {row : PendingRow}
    (h : row ∈ s.pendingOutbox now limit) :
    ∃ delivery ∈ s.deliveries.rows, s.pendingRow now delivery = some row :=
  List.mem_filterMap.mp ((List.mem_insertionSort _).mp (List.mem_of_mem_take h))

/-- A drain reads rows of the outbox. -/
theorem pendingOutbox_owed {now limit : ℕ} {row : PendingRow}
    (h : row ∈ s.pendingOutbox now limit) : JobOwed registry s row.job := by
  obtain ⟨delivery, hmem, hrow⟩ := mem_pendingOutbox h
  obtain ⟨-, stored, hfind, -, rfl⟩ := pendingRow_eq_some.mp hrow
  have hkey := Table.key_of_find? hfind
  refine ⟨Or.inr ⟨stored, ?_, rfl⟩, ?_⟩
  · show s.db.outbox.find? stored.eventKey = some stored
    rw [hkey]
    exact hfind
  · intro id hid
    obtain rfl := Option.some.inj hid
    exact ⟨delivery, hmem, rfl, hkey.symm⟩

theorem AuditInvariant.moved (h : AuditInvariant registry s) {action : Action}
    (hmoved : Moved registry s action s') :
    AuditInvariant registry s' := by
  cases hmoved with
  | same => exact h
  | reserved hready => exact reserved_inv h _
  | abandoned id => exact abandoned_inv h id
  | committed hrunning happly => exact committed_inv h hrunning happly
  | granted row => exact database_inv h rfl
  | downloaded name version => exact database_inv h rfl
  | drained now hworker =>
    apply h.setWorker_only
    exact fun row hmem => (pendingOutbox_owed hmem).grows (.of_eq rfl rfl)
  | started event hworker =>
    apply h.setWorker_only
    exact ⟨⟨Or.inl rfl, nofun⟩, trivial, nofun⟩
  | finished w => exact h.setWorker_only trivial
  | @taken _ w row rest hworker =>
    have hworkers := h.workers w
    rw [hworker] at hworkers
    apply h.setWorker_only
    have hgrows : Grows s (s.setWorker w (.appending row.job .begun rest)) := .of_eq rfl rfl
    exact ⟨(hworkers row List.mem_cons_self).grows hgrows, trivial,
      fun other hmem => (hworkers other (List.mem_cons_of_mem _ hmem)).grows hgrows⟩
  | @acquired _ w job rest hworker hlock =>
    have hworkers := h.workers w
    rw [hworker] at hworkers
    refine h.setWorker (fun _ _ hheld => ?_) nofun ?_
    · rw [hlock] at hheld
      cases hheld
    · exact ⟨hworkers.1.grows (.of_eq rfl rfl), rfl,
        fun row hmem => (hworkers.2.2 row hmem).grows (.of_eq rfl rfl)⟩
  | @seen _ w job rest hworker hkey =>
    have hworkers := h.workers w
    rw [hworker] at hworkers
    apply h.setWorker_released
    exact ⟨hworkers.1.grows (.of_eq rfl rfl), hkey,
      fun row hmem => (hworkers.2.2 row hmem).grows (.of_eq rfl rfl)⟩
  | @unseen _ w job rest hworker hkey =>
    have hworkers := h.workers w
    rw [hworker] at hworkers
    apply h.setWorker_only
    exact ⟨hworkers.1.grows (.of_eq rfl rfl), ⟨hworkers.2.1, hkey⟩,
      fun row hmem => (hworkers.2.2 row hmem).grows (.of_eq rfl rfl)⟩
  | @read _ w job rest hworker =>
    have hworkers := h.workers w
    rw [hworker] at hworkers
    apply h.setWorker_only
    exact ⟨hworkers.1.grows (.of_eq rfl rfl), ⟨hworkers.2.1.1, hworkers.2.1.2, rfl⟩,
      fun row hmem => (hworkers.2.2 row hmem).grows (.of_eq rfl rfl)⟩
  | @inserted _ w now job previous rest events hworker hinsert =>
    have hworkers := h.workers w
    rw [hworker] at hworkers
    obtain ⟨howed, ⟨hlock, -, hprevious⟩, hrest⟩ := hworkers
    apply h.setWorker_only
    refine ⟨howed.grows (.of_eq rfl rfl), ⟨hlock, ⟨now, ?_⟩, ?_⟩,
      fun row hmem => (hrest row hmem).grows (.of_eq rfl rfl)⟩
    · rw [hprevious]
      rfl
    · obtain ⟨hhash, hfree, -⟩ := insertEvent_ok.mp hinsert
      exact insertEvent_ok.mpr ⟨hhash, hfree, rfl⟩
  | @appended _ w job event rest hworker =>
    have hworkers := h.workers w
    rw [hworker] at hworkers
    obtain ⟨howed, ⟨hlock, happend⟩, hrest⟩ := hworkers
    have hreleased : s.released w = none := if_pos hlock
    rw [hreleased]
    refine h.append howed.sourced happend fun other => ?_
    by_cases hsame : other = w
    · right
      rw [hsame]
      show WorkerOk registry _ w (Function.update s.workers w (.appending job .appended rest) w)
      rw [Function.update_self]
      have hnow : event.eventKey = job.eventKey := by
        obtain ⟨⟨now, hlinked⟩, -⟩ := happend
        rw [hlinked]
        rfl
      have happended : hasKey (s.events ++ [event]) job.eventKey = true :=
        hasKey_iff.mpr ⟨event, List.mem_append_right _ List.mem_cons_self, hnow⟩
      exact ⟨howed.grows (.of_eq rfl rfl), happended,
        fun row hmem => (hrest row hmem).grows (.of_eq rfl rfl)⟩
    · left
      refine ⟨Function.update_of_ne hsame _ _, ?_⟩
      rw [hlock]
      simp [Ne.symm hsame]
  | @failed _ w job progress rest hworker =>
    have hworkers := h.workers w
    rw [hworker] at hworkers
    apply h.setWorker_released
    exact ⟨hworkers.1.grows (.of_eq rfl rfl), trivial,
      fun row hmem => (hworkers.2.2 row hmem).grows (.of_eq rfl rfl)⟩
  | @lost _ w job event rest hworker =>
    have hworkers := h.workers w
    rw [hworker] at hworkers
    obtain ⟨howed, ⟨hlock, happend⟩, hrest⟩ := hworkers
    refine h.setWorker (fun other hne hheld => ?_) (fun row hrow => ?_) ?_
    · rw [hlock] at hheld
      exact absurd (Holder.worker.inj (Option.some.inj hheld)).symm hne
    · obtain rfl := Holder.lost.inj (Option.some.inj hrow)
      exact Or.inr ⟨job.eventKey, job.event, howed.sourced, happend⟩
    · exact ⟨howed.grows (.of_eq rfl rfl), trivial,
        fun row hmem => (hrest row hmem).grows (.of_eq rfl rfl)⟩
  | @settled _ event hlock =>
    obtain ⟨eventKey, value, hsourced, happend⟩ := h.lost event hlock
    refine h.append hsourced happend fun w => Or.inl ⟨rfl, ?_⟩
    rw [hlock]
    simp
  | @undone _ event hlock =>
    refine ⟨h.log.grows (.of_eq rfl rfl) rfl,
      ⟨h.outbox.commits, h.outbox.deliveries, h.outbox.ids, h.outbox.used⟩, h.delivered, nofun,
      fun w => ?_⟩
    have hgrows : Grows s { s with lock := none } := .of_eq rfl rfl
    apply (h.workers w).frame hgrows
    · intro hheld
      rw [hlock] at hheld
      cases hheld
    · exact ⟨[], (List.append_nil _).symm⟩
  | @acknowledged _ w id eventKey event rest now hworker =>
    have hworkers := h.workers w
    rw [hworker] at hworkers
    obtain ⟨howed, hkey, hrest⟩ := hworkers
    have hmarked := marked_inv h now howed rfl hkey
    have hgrows : Grows s ((s.markOutboxDelivered id now).setWorker w (.draining rest)) :=
      ⟨fun eventKey row hfind => ⟨row, hfind, rfl⟩,
        update_deliveries (AuditSystem.delivered_key now) fun _ => rfl⟩
    apply hmarked.setWorker_only
    exact fun row hmem => (hrest row hmem).grows hgrows
  | @retried w id eventKey event rest now hworker =>
    have hworkers := h.workers w
    rw [hworker] at hworkers
    have hretried := retried_inv h id now
    have hgrows : Grows s ((s.retryOutbox id now).setWorker w (.draining rest)) :=
      ⟨(retryOutbox_grows s id now).outbox, (retryOutbox_grows s id now).deliveries⟩
    apply hretried.setWorker_only
    exact fun row hmem => (hworkers.2.2 row hmem).grows hgrows
  | stopped w => exact h.setWorker_released trivial

theorem start_inv (registry : PostgresRegistry) : AuditInvariant registry .start where
  log := ⟨.nil _, List.nodup_nil, nofun⟩
  outbox := ⟨rfl, rfl, List.nodup_nil, nofun⟩
  delivered := nofun
  lost := nofun
  workers _ := trivial

theorem AuditInvariant.steps (h : AuditInvariant registry s) (actions : List Action) :
    AuditInvariant registry (steps registry s actions) := by
  induction actions generalizing s with
  | nil => exact h
  | cons action rest ih => exact ih (h.moved (step_moved registry s action))

/-- The log only grows. -/
theorem Moved.extends {action : Action} (h : Moved registry s action s') : s.events <+: s'.events := by
  cases h with
  | appended hworker => exact List.prefix_append _ _
  | settled hlock => exact List.prefix_append _ _
  | _ => exact List.prefix_rfl

theorem steps_extends (registry : PostgresRegistry) (s : AuditSystem) (actions : List Action) :
    s.events <+: (steps registry s actions).events := by
  induction actions generalizing s with
  | nil => exact List.prefix_rfl
  | cons action rest ih => exact (step_moved registry s action).extends.trans (ih _)

end Runs

end Oath.Registry
