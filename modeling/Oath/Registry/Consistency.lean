import Oath.Registry.Effects

/-! What ties the registry's tables and its objects together in every state it can come
to. -/

namespace Oath.Registry
open Contracts Service Unix Database

/-! ## Versions and the stages they come from -/

/-- The version has the columns of the stage. -/
structure PublishedFrom (row : VersionRow) (stage : StageRecord) : Prop where
  name : row.name = stage.name
  version : row.version = stage.version
  organization : row.organization = stage.organization
  digest : row.digest = stage.digest
  isPrivate : row.isPrivate = stage.isPrivate
  manifest : row.manifest = stage.manifest
  assessment : row.assessment = stage.assessment
  serverEvidence : row.serverEvidence = stage.serverEvidence
  sbom : row.sbom = stage.sbom
  provenance : row.provenance = stage.provenance

theorem versionOf_publishedFrom (stage : StageRecord) (publishedAt : ℕ) :
    PublishedFrom (versionOf stage publishedAt) stage :=
  ⟨rfl, rfl, rfl, rfl, rfl, rfl, rfl, rfl, rfl, rfl⟩

theorem PublishedFrom.decided {row : VersionRow} {stage : StageRow}
    (h : PublishedFrom row stage.toStageRecord) (status : String) (reason : Option String) :
    PublishedFrom row (Database.decided status reason stage).toStageRecord :=
  ⟨h.name, h.version, h.organization, h.digest, h.isPrivate, h.manifest, h.assessment,
    h.serverEvidence, h.sbom, h.provenance⟩

theorem PublishedFrom.withStatus {row : VersionRow} {stage : StageRecord}
    (h : PublishedFrom row stage) (status : String) :
    PublishedFrom (Database.withStatus status row) stage :=
  ⟨h.name, h.version, h.organization, h.digest, h.isPrivate, h.manifest, h.assessment,
    h.serverEvidence, h.sbom, h.provenance⟩

theorem PublishedFrom.countDownload {row : VersionRow} {stage : StageRecord}
    (h : PublishedFrom row stage) : PublishedFrom (Database.countDownload row) stage :=
  ⟨h.name, h.version, h.organization, h.digest, h.isPrivate, h.manifest, h.assessment,
    h.serverEvidence, h.sbom, h.provenance⟩

theorem Assessed.decided {registry : PostgresRegistry} {stage : StageRow}
    {tarball : List UInt8} {bundle : RegistryAssessmentBundle}
    (h : Assessed registry stage.toStageRecord tarball bundle) (status : String)
    (reason : Option String) :
    Assessed registry (Database.decided status reason stage).toStageRecord tarball bundle :=
  ⟨h.digest, h.manifest, h.assessed, h.assessment, h.serverEvidence, h.sbom, h.provenance⟩

/-! ## What a step keeps -/

/-- Stages stay, but for their status. -/
theorem Decided.stage_kept {db db' : Database} {stage : StageRecord} {status : String}
    {reason : Option String} (h : Decided db stage status reason db') {id : String}
    {row : StageRow} (hrow : db'.stages.find? id = some row) :
    ∃ old, db.stages.find? id = some old ∧ (row = old ∨ row = decided status reason old) := by
  rw [h.stages] at hrow
  split_ifs at hrow
  · obtain ⟨old, hold, rfl⟩ := Option.map_eq_some_iff.mp hrow
    exact ⟨old, hold, Or.inr rfl⟩
  · exact ⟨row, hrow, Or.inl rfl⟩

/-- An approved stage is not decided again. -/
theorem Decided.approved_kept {db db' : Database} {stage : StageRecord} {status : String}
    {reason : Option String} (h : Decided db stage status reason db') {id : String}
    {row : StageRow} (hrow : db.stages.find? id = some row) (happroved : row.status = "approved") :
    db'.stages.find? id = some row := by
  rw [h.stages, if_neg, hrow]
  rintro rfl
  obtain ⟨staged, hstaged, hstatus⟩ := h.staged
  obtain rfl := Option.some.inj (hrow.symm.trans hstaged)
  rw [happroved] at hstatus
  exact absurd hstatus (by decide)

theorem readStage_eq {db : Database} {id : String} {stage : StageRecord}
    (h : db.readStage id = some stage) :
    ∃ row, db.stages.find? id = some row ∧ row.toStageRecord = stage ∧ stage.id = id := by
  obtain ⟨row, hrow, rfl⟩ := Option.map_eq_some_iff.mp h
  have hkey : row.key = id := Table.key_of_find? hrow
  exact ⟨row, hrow, rfl, hkey⟩

theorem Revoked.version_kept {db db' : Database} {tombstone : TombstoneRow}
    (h : Revoked db tombstone db') {key : String × String} {row : VersionRow}
    (hrow : db'.versions.find? key = some row) :
    ∃ old, db.versions.find? key = some old ∧
      (row = old ∧ key ≠ (tombstone.name, tombstone.version) ∨
        row = withStatus tombstone.status old ∧ key = (tombstone.name, tombstone.version)) := by
  rw [h.versions] at hrow
  split_ifs at hrow with hkey
  · obtain ⟨old, hold, rfl⟩ := Option.map_eq_some_iff.mp hrow
    exact ⟨old, hold, Or.inr ⟨rfl, hkey⟩⟩
  · exact ⟨row, hrow, Or.inl ⟨rfl, hkey⟩⟩

theorem recordDownload_kept {db : Database} {name version : String} {key : String × String}
    {row : VersionRow} (hrow : (db.recordDownload name version).versions.find? key = some row) :
    ∃ old, db.versions.find? key = some old ∧ (row = old ∨ row = countDownload old) := by
  rw [find?_recordDownload] at hrow
  split_ifs at hrow
  · obtain ⟨old, hold, rfl⟩ := Option.map_eq_some_iff.mp hrow
    exact ⟨old, hold, Or.inr rfl⟩
  · exact ⟨row, hrow, Or.inl rfl⟩

/-! ## The invariant -/

structure Consistent (registry : PostgresRegistry) (s : RegistryState) : Prop where
  /-- Every stage is the assessment of the bytes stored under its digest. -/
  assessed (id : String) (row : StageRow) (h : s.db.stages.find? id = some row) :
    ∃ tarball bundle, Assessed registry row.toStageRecord tarball bundle ∧
      s.objects.primary.find? row.digest = some { path := row.digest, bytes := tarball }
  owned (id : String) (row : StageRow) (h : s.db.stages.find? id = some row) :
    ∃ package, s.db.packages.find? row.name = some package ∧
      package.organization = row.organization ∧ package.isPrivate = row.isPrivate
  published (key : String × String) (row : VersionRow)
    (h : s.db.versions.find? key = some row) :
    ∃ id stage, s.db.stages.find? id = some stage ∧ stage.status = "approved" ∧
      PublishedFrom row stage.toStageRecord
  tombstoned (key : String × String) (row : VersionRow)
    (h : s.db.versions.find? key = some row) :
    row.status = "active" ∧ s.db.tombstones.find? key = none ∨
      row.status ≠ "active" ∧
        ∃ tombstone, s.db.tombstones.find? key = some tombstone ∧ tombstone.status = row.status
  buried (key : String × String) (h : s.db.versions.find? key = none) :
    s.db.tombstones.find? key = none

section Step
variable {registry : PostgresRegistry} {s s' : RegistryState} {request : Request}

theorem consistent_empty (replicas : ℕ) : Consistent registry (.empty replicas) := by
  constructor
  · rintro id row ⟨⟩
  · rintro id row ⟨⟩
  · rintro key row ⟨⟩
  · rintro key row ⟨⟩
  · rintro key -
    rfl

theorem step_assessed (hstep : Effect registry s request s') (hs : Consistent registry s)
    (id : String) (row : StageRow) (h : s'.db.stages.find? id = some row) :
    ∃ tarball bundle, Assessed registry row.toStageRecord tarball bundle ∧
      s'.objects.primary.find? row.digest = some { path := row.digest, bytes := tarball } := by
  have hold : ∀ old, s.db.stages.find? id = some old → ∀ objects,
      KeepsPrimary s.objects objects → ∀ row : StageRow,
      (row = old ∨ ∃ status reason, row = decided status reason old) →
      ∃ tarball bundle, Assessed registry row.toStageRecord tarball bundle ∧
        objects.primary.find? row.digest = some { path := row.digest, bytes := tarball } := by
    intro old hold objects hkeeps row hrow
    obtain ⟨tarball, bundle, hassessed, hobject⟩ := hs.assessed id old hold
    rcases hrow with rfl | ⟨status, reason, rfl⟩
    · exact ⟨tarball, bundle, hassessed, hkeeps _ _ hobject⟩
    · exact ⟨tarball, bundle, hassessed.decided status reason, hkeeps _ _ hobject⟩
  have hrefl : KeepsPrimary s.objects s.objects := Std.Refl.refl _
  cases hstep with
  | stored hkeeps => exact hold row h _ hkeeps row (Or.inl rfl)
  | @staged _ _ _ _ stage tarball bundle _ _ _ _ _ hassessed hobject hkeeps hstaged =>
    rw [hstaged.stages] at h
    split_ifs at h with hid
    · obtain rfl := Option.some.inj h
      exact ⟨tarball, bundle, hassessed, hobject⟩
    · exact hold row h _ hkeeps row (Or.inl rfl)
  | approved _ _ _ _ _ _ happroved =>
    obtain ⟨old, hfind, hrow⟩ := happroved.toDecided.stage_kept h
    exact hold old hfind _ hrefl row (hrow.imp_right fun heq => ⟨_, _, heq⟩)
  | rejected _ _ _ _ hrejected =>
    obtain ⟨old, hfind, hrow⟩ := hrejected.toDecided.stage_kept h
    exact hold old hfind _ hrefl row (hrow.imp_right fun heq => ⟨_, _, heq⟩)
  | revoked _ _ hrevoked =>
    rw [hrevoked.stages] at h
    exact hold row h _ hrefl row (Or.inl rfl)
  | granted => exact hold row h _ hrefl row (Or.inl rfl)
  | downloaded hkeeps => exact hold row h _ hkeeps row (Or.inl rfl)

theorem step_package (hstep : Effect registry s request s') {name : String}
    {package : PackageRow} (h : s.db.packages.find? name = some package) :
    s'.db.packages.find? name = some package := by
  cases hstep with
  | staged _ _ _ _ _ _ _ hstaged => exact hstaged.packages_kept name package h
  | approved _ _ _ _ _ _ happroved =>
    show _ = _
    rwa [happroved.packages]
  | rejected _ _ _ _ hrejected =>
    show _ = _
    rwa [hrejected.packages]
  | revoked _ _ hrevoked =>
    show _ = _
    rwa [hrevoked.packages]
  | stored | granted | downloaded => exact h

theorem step_owned (hstep : Effect registry s request s') (hs : Consistent registry s)
    (id : String) (row : StageRow) (h : s'.db.stages.find? id = some row) :
    ∃ package, s'.db.packages.find? row.name = some package ∧
      package.organization = row.organization ∧ package.isPrivate = row.isPrivate := by
  have hold : ∀ old, s.db.stages.find? id = some old →
      ∃ package, s'.db.packages.find? old.name = some package ∧
        package.organization = old.organization ∧ package.isPrivate = old.isPrivate := by
    intro old hold
    obtain ⟨package, hpackage, hfields⟩ := hs.owned id old hold
    exact ⟨package, step_package hstep hpackage, hfields⟩
  cases hstep with
  | staged _ _ _ _ _ _ _ hstaged =>
    rw [hstaged.stages] at h
    split_ifs at h with hid
    · obtain rfl := Option.some.inj h
      exact hstaged.package
    · exact hold row h
  | approved _ _ _ _ _ _ happroved =>
    obtain ⟨old, hfind, heq | heq⟩ := happroved.toDecided.stage_kept h <;>
      (rw [heq]; exact hold old hfind)
  | rejected _ _ _ _ hrejected =>
    obtain ⟨old, hfind, heq | heq⟩ := hrejected.toDecided.stage_kept h <;>
      (rw [heq]; exact hold old hfind)
  | revoked _ _ hrevoked =>
    rw [hrevoked.stages] at h
    exact hold row h
  | stored | granted | downloaded => exact hold row h

theorem step_published (hstep : Effect registry s request s') (hs : Consistent registry s)
    (key : String × String) (row : VersionRow) (h : s'.db.versions.find? key = some row) :
    ∃ id stage, s'.db.stages.find? id = some stage ∧ stage.status = "approved" ∧
      PublishedFrom row stage.toStageRecord := by
  cases hstep with
  | staged _ _ _ _ _ _ _ hstaged =>
    rw [hstaged.versions] at h
    obtain ⟨id, stage, hstage, hrest⟩ := hs.published key row h
    refine ⟨id, stage, ?_, hrest⟩
    rw [hstaged.stages, if_neg, hstage]
    rintro rfl
    rw [hstaged.id_new] at hstage
    cases hstage
  | @approved _ id reason _ stage publishedAt _ _ _ _ hstage _ _ happroved =>
    rw [happroved.versions] at h
    split_ifs at h
    · obtain rfl := Option.some.inj h
      obtain ⟨stageRow, hstageRow, rfl, rfl⟩ := readStage_eq hstage
      refine ⟨stageRow.id, decided "approved" reason stageRow, ?_, rfl,
        (versionOf_publishedFrom _ publishedAt).decided _ _⟩
      show _ = _
      rw [happroved.stages, if_pos rfl, hstageRow]
      rfl
    · obtain ⟨id, stage, hstage, hstatus, hrest⟩ := hs.published key row h
      exact ⟨id, stage, happroved.toDecided.approved_kept hstage hstatus, hstatus, hrest⟩
  | rejected _ _ _ _ hrejected =>
    rw [hrejected.versions] at h
    obtain ⟨id, stage, hstage, hstatus, hrest⟩ := hs.published key row h
    exact ⟨id, stage, hrejected.toDecided.approved_kept hstage hstatus, hstatus, hrest⟩
  | revoked _ _ hrevoked =>
    obtain ⟨old, hold, ⟨rfl, -⟩ | ⟨rfl, -⟩⟩ := hrevoked.version_kept h
    · obtain ⟨id, stage, hstage, hrest⟩ := hs.published key row hold
      exact ⟨id, stage, by rwa [hrevoked.stages], hrest⟩
    · obtain ⟨id, stage, hstage, hstatus, hfrom⟩ := hs.published key old hold
      exact ⟨id, stage, by rwa [hrevoked.stages], hstatus, hfrom.withStatus _⟩
  | downloaded =>
    obtain ⟨old, hold, rfl | rfl⟩ := recordDownload_kept h
    · exact hs.published key row hold
    · obtain ⟨id, stage, hstage, hstatus, hfrom⟩ := hs.published key old hold
      exact ⟨id, stage, hstage, hstatus, hfrom.countDownload⟩
  | stored | granted => exact hs.published key row h

/-- The statuses a revocation gives are not `active`. -/
theorem revokedStatus_ne (request : RevokeRequest) : revokedStatus request ≠ "active" := by
  unfold revokedStatus
  split_ifs <;> decide

theorem step_tombstoned (hstep : Effect registry s request s') (hs : Consistent registry s)
    (key : String × String) (row : VersionRow) (h : s'.db.versions.find? key = some row) :
    row.status = "active" ∧ s'.db.tombstones.find? key = none ∨
      row.status ≠ "active" ∧ ∃ tombstone,
        s'.db.tombstones.find? key = some tombstone ∧ tombstone.status = row.status := by
  cases hstep with
  | staged _ _ _ _ _ _ _ hstaged =>
    rw [hstaged.versions] at h
    rw [hstaged.tombstones]
    exact hs.tombstoned key row h
  | approved _ _ _ _ _ _ happroved =>
    rw [happroved.versions] at h
    show _ ∨ _ ∧ ∃ tombstone, _
    simp only [happroved.tombstones]
    split_ifs at h with hkey
    · obtain rfl := Option.some.inj h
      exact Or.inl ⟨rfl, hs.buried key (by rw [← hkey]; exact happroved.version_new)⟩
    · exact hs.tombstoned key row h
  | rejected _ _ _ _ hrejected =>
    rw [hrejected.versions] at h
    show _ ∨ _ ∧ ∃ tombstone, _
    simp only [hrejected.tombstones]
    exact hs.tombstoned key row h
  | revoked _ _ hrevoked =>
    show _ ∨ _ ∧ ∃ tombstone, _
    simp only [hrevoked.tombstones]
    obtain ⟨old, hold, ⟨rfl, hkey⟩ | ⟨rfl, rfl⟩⟩ := hrevoked.version_kept h
    · rw [if_neg (Ne.symm hkey)]
      exact hs.tombstoned key row hold
    · exact Or.inr ⟨revokedStatus_ne _, _, if_pos rfl, rfl⟩
  | downloaded =>
    obtain ⟨old, hold, rfl | rfl⟩ := recordDownload_kept h
    · exact hs.tombstoned key row hold
    · exact hs.tombstoned key old hold
  | stored | granted => exact hs.tombstoned key row h

theorem step_buried (hstep : Effect registry s request s') (hs : Consistent registry s)
    (key : String × String) (h : s'.db.versions.find? key = none) :
    s'.db.tombstones.find? key = none := by
  cases hstep with
  | staged _ _ _ _ _ _ _ hstaged =>
    rw [hstaged.versions] at h
    rw [hstaged.tombstones]
    exact hs.buried key h
  | approved _ _ _ _ _ _ happroved =>
    rw [happroved.versions] at h
    show _ = _
    rw [happroved.tombstones]
    split_ifs at h
    exact hs.buried key h
  | rejected _ _ _ _ hrejected =>
    rw [hrejected.versions] at h
    show _ = _
    rw [hrejected.tombstones]
    exact hs.buried key h
  | revoked _ _ hrevoked =>
    rw [hrevoked.versions] at h
    show _ = _
    rw [hrevoked.tombstones]
    obtain ⟨old, hold⟩ := hrevoked.exists_
    split_ifs at h with hkey
    · rw [hkey, hold] at h
      cases h
    · rw [if_neg (Ne.symm hkey)]
      exact hs.buried key h
  | downloaded =>
    rw [find?_recordDownload] at h
    refine hs.buried key ?_
    split_ifs at h
    · simpa using h
    · exact h
  | stored | granted => exact hs.buried key h

/-- One request keeps the registry consistent. -/
theorem step_consistent (hstep : Effect registry s request s') (hs : Consistent registry s) :
    Consistent registry s' where
  assessed := step_assessed hstep hs
  owned := step_owned hstep hs
  published := step_published hstep hs
  tombstoned := step_tombstoned hstep hs
  buried := step_buried hstep hs

end Step

/-- A registry that has started empty is consistent whatever it has been asked. -/
theorem run_consistent (registry : PostgresRegistry) (replicas : ℕ) (calls : List Call) :
    Consistent registry (run registry (.empty replicas) calls) := by
  induction calls using List.reverseRecOn with
  | nil => exact consistent_empty replicas
  | append_singleton calls call ih =>
    rw [run, List.foldl_concat]
    exact step_consistent (serve_effect registry _ call) ih

end Oath.Registry
