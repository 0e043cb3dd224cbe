import Oath.Registry.DeliveryRules

/-! The audit log is one chain whatever the workers and their failures, and has every event of
the outbox once when it has been delivered. -/

namespace Oath.Registry
open Contracts Database

/-- No transaction has the key of a direct event. -/
theorem Transaction.eventKey_ne_direct (tx : Transaction) (sha : Sha256) (event : Value) :
    tx.eventKey ≠ directKey sha event := by
  have hhead : tx.eventKey.toList.head? = some 's' ∨ tx.eventKey.toList.head? = some 'v' := by
    cases tx with
    | createStage stage principal => exact Or.inl (by simp [eventKey])
    | decideStage stage approve reason principal publishedAt =>
      exact Or.inl (by simp [eventKey])
    | revokeVersion tombstone => exact Or.inr (by simp [eventKey, revocationKey])
  intro heq
  rw [heq] at hhead
  simp [directKey] at hhead

/-- Every stage, version and tombstone comes from a commit. -/
structure CommitsOk (s : AuditSystem) : Prop where
  stages : ∀ id, (s.db.stages.find? id).isSome ↔ ∃ tx ∈ s.commits, tx.creates id
  versions : ∀ key, (s.db.versions.find? key).isSome ↔ ∃ tx ∈ s.commits, tx.publishes key
  tombstones : ∀ key row, s.db.tombstones.find? key = some row → .revokeVersion row ∈ s.commits

theorem exists_mem_concat {tx : Transaction} {commits : List Transaction}
    {p : Transaction → Prop} :
    (∃ other ∈ commits ++ [tx], p other) ↔ (∃ other ∈ commits, p other) ∨ p tx := by
  simp [or_and_right, exists_or]

theorem CommitsOk.moved {registry : PostgresRegistry} {s s' : AuditSystem} (h : CommitsOk s)
    {action : Action}
    (hmoved : Moved registry s action s') : CommitsOk s' := by
  cases hmoved with
  | @committed _ id now tx db hrunning happly =>
    have happlied := Transaction.applied happly
    refine ⟨fun id => ?_, fun key => ?_, fun key row hrow => ?_⟩
    · rw [happlied.stages, exists_mem_concat, h.stages]
    · rw [happlied.versions, exists_mem_concat, h.versions]
    · rcases happlied.tombstones key row hrow with hold | rfl
      · exact List.mem_append_left _ (h.tombstones key row hold)
      · exact List.mem_append_right _ List.mem_cons_self
  | downloaded name version =>
    refine ⟨h.stages, fun key => ?_, h.tombstones⟩
    rw [← h.versions, find?_recordDownload]
    exact isSome_map_ite
  | _ => exact ⟨h.stages, h.versions, h.tombstones⟩

theorem steps_commitsOk (registry : PostgresRegistry) {s : AuditSystem} (h : CommitsOk s)
    (actions : List Action) : CommitsOk (steps registry s actions) := by
  induction actions generalizing s with
  | nil => exact h
  | cons action rest ih => exact ih (h.moved (step_moved registry s action))

theorem start_commitsOk : CommitsOk .start where
  stages := by simp [AuditSystem.start, Database.empty]
  versions := by simp [AuditSystem.start, Database.empty]
  tombstones := nofun

theorem OutboxOk.owned {s : AuditSystem} (h : OutboxOk s) {i : ℕ} {tx : Transaction}
    (htx : s.commits[i]? = some tx) : ∃ row, s.db.outbox.rows[i]? = some row ∧
      row.eventKey = tx.eventKey ∧ row.event = tx.event ∧
      ∀ (j : ℕ) (other : OutboxRow), s.db.outbox.rows[j]? = some other →
        other.eventKey = tx.eventKey → j = i := by
  have hrow := congrArg (·[i]?) h.commits
  simp only [List.getElem?_map, htx, Option.map_some] at hrow
  obtain ⟨row, hfound, hsame⟩ := Option.map_eq_some_iff.mp hrow
  obtain ⟨hkey, hevent⟩ := Prod.mk.inj hsame
  refine ⟨row, hfound, hkey, hevent, fun j other hother hotherKey => ?_⟩
  have hkeys := s.db.outbox.nodup
  have hlength : j < (s.db.outbox.rows.map OutboxRow.eventKey).length := by
    rw [List.length_map]
    exact (List.getElem?_eq_some_iff.mp hother).1
  apply (List.getElem?_inj hlength hkeys).mp
  rw [List.getElem?_map, List.getElem?_map, hother, hfound, Option.map_some, Option.map_some,
    hotherKey, hkey]

/-- A row that is marked as delivered has exactly one event, and that event is its own. -/
theorem AuditInvariant.delivered_once {registry : PostgresRegistry} {s : AuditSystem}
    (h : AuditInvariant registry s) {delivery : Delivery} (hmem : delivery ∈ s.deliveries.rows)
    (hdelivered : delivery.deliveredAt ≠ none) :
    ∃ row, s.db.outbox.find? delivery.eventKey = some row ∧
      ∃ event ∈ s.events, event.eventKey = row.eventKey ∧
        event.eventJson = eventText row.event ∧
        ∀ other ∈ s.events, other.eventKey = row.eventKey → other = event := by
  obtain ⟨row, hrow⟩ := h.outbox.row_of_delivery hmem
  have hkey := Table.key_of_find? hrow
  obtain ⟨event, hevent, hsame⟩ := hasKey_iff.mp (h.delivered delivery hmem hdelivered)
  refine ⟨row, hrow, event, hevent, hsame.trans hkey.symm, ?_, fun other hother hotherKey => ?_⟩
  · obtain ⟨value, htext, hdirect | ⟨stored, hstored, hvalue⟩⟩ := h.log.sourced event hevent
    · -- the key of the row is a transaction's
      have hpair : (row.eventKey, row.event) ∈ s.commits.map fun tx => (tx.eventKey, tx.event) := by
        rw [← h.outbox.commits]
        exact List.mem_map_of_mem (Table.mem_of_find? hrow)
      obtain ⟨tx, -, hpair⟩ := List.mem_map.mp hpair
      have htx : tx.eventKey = row.eventKey := congrArg Prod.fst hpair
      exact absurd (htx.trans (hkey.trans (hsame.symm.trans hdirect)))
        (tx.eventKey_ne_direct _ _)
    · rw [hsame, hrow] at hstored
      obtain rfl := Option.some.inj hstored
      rw [htext, hvalue]
  · exact List.inj_on_of_nodup_map h.log.keys hother hevent
      (hotherKey.trans (hkey.trans hsame.symm))

/-- What the log, the outbox and the tables say of each other. -/
structure AuditLogSound (registry : PostgresRegistry) (s : AuditSystem) : Prop where
  chain : HashChain registry.assess.sha s.events
  keys : (s.events.map RegistryEvent.eventKey).Nodup
  commits : CommitsOk s
  owned : ∀ (i : ℕ) (tx : Transaction), s.commits[i]? = some tx →
    ∃ row, s.db.outbox.rows[i]? = some row ∧ row.eventKey = tx.eventKey ∧ row.event = tx.event ∧
      ∀ (j : ℕ) (other : OutboxRow), s.db.outbox.rows[j]? = some other →
        other.eventKey = tx.eventKey → j = i
  delivered : ∀ delivery ∈ s.deliveries.rows, delivery.deliveredAt ≠ none →
    ∃ row, s.db.outbox.find? delivery.eventKey = some row ∧
      ∃ event ∈ s.events, event.eventKey = row.eventKey ∧
        event.eventJson = eventText row.event ∧
        ∀ other ∈ s.events, other.eventKey = row.eventKey → other = event

/-- In every interleaving the log is sound, and a list of hashes that has been served is the
beginning of every later one, so that the two are consistent. -/
theorem audit_log_exactly_once (registry : PostgresRegistry) (actions later : List Action) :
    let s := steps registry .start actions
    let s' := steps registry s later
    AuditLogSound registry s ∧ eventHashes s.events <+: eventHashes s'.events ∧
      ((eventHashes s'.events).length ≤ usizeMax →
        ∃ proof, merkleConsistencyProof registry.assess.sha (eventHashes s'.events)
            (eventHashes s.events).length = some proof ∧
          verifyMerkleConsistency registry.assess.sha proof
            (merkleRoot registry.assess.sha (eventHashes s.events))
            (merkleRoot registry.assess.sha (eventHashes s'.events)) = true) := by
  intro s s'
  have hinv : AuditInvariant registry s := (start_inv registry).steps actions
  have hcommits : CommitsOk s := steps_commitsOk registry start_commitsOk actions
  have hserved : eventHashes s.events <+: eventHashes s'.events :=
    (steps_extends registry s later).map RegistryEvent.eventHash
  refine ⟨⟨hinv.log.chain, hinv.log.keys, hcommits, ?_, ?_⟩, hserved, ?_⟩
  · exact fun i tx htx => hinv.outbox.owned htx
  · exact fun delivery hmem hdelivered => hinv.delivered_once hmem hdelivered
  · exact consistent_of_extends registry.assess.sha hserved

/-! ## A stage and its event -/

def demoStage : StageRecord where
  id := "801017a368159c7300622593784c3d687f4f22955377e28ee32def3ab028e0d4"
  organization := "acme"
  name := "demo"
  version := "1.0.0"
  tag := "latest"
  digest := hexSha256 demoRegistry.assess.sha demoTarball
  status := "staged"
  isPrivate := false
  manifest := demoManifest
  publisherAssessment := .null
  assessment := .null
  serverEvidence := .null
  sbom := .null
  provenance := .null
  createdAt := demoTime

def demoCreated : Transaction := .createStage demoStage demoAdmin

/-- What a worker does for one row when nothing fails. -/
def appendActions (w now : ℕ) : List Action :=
  [.next w, .acquire w, .look w, .readPrevious w, .insert w now, .commitEvent w]

def demoDrain : List Action :=
  [.reserve demoCreated, .commit 1 demoTime, .drain 0 demoTime]

theorem audit_log_exactly_once_demo :
    let s := steps demoRegistry .start demoDrain
    let s' := steps demoRegistry s (appendActions 0 demoTime)
    (eventHashes s'.events).length ≤ usizeMax ∧
      ∃ proof, merkleConsistencyProof demoRegistry.assess.sha (eventHashes s'.events)
          (eventHashes s.events).length = some proof ∧
        verifyMerkleConsistency demoRegistry.assess.sha proof
          (merkleRoot demoRegistry.assess.sha (eventHashes s.events))
          (merkleRoot demoRegistry.assess.sha (eventHashes s'.events)) = true := by
  intro s s'
  have hone : (eventHashes s'.events).length = 1 := by decide +kernel
  have hfits : (eventHashes s'.events).length ≤ usizeMax := by
    rw [hone]
    decide
  exact ⟨hfits, (audit_log_exactly_once demoRegistry demoDrain (appendActions 0 demoTime)).2.2
    hfits⟩

end Oath.Registry
