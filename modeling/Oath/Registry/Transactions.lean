import Oath.Registry.ControlPlane

/-! What each transaction of the control plane does when it commits: every table, row by
row. -/

namespace Oath.Registry
open Contracts Database

/-! ## Rows after a statement -/

theorem find?_markStage (db : Database) (id status : String) (reason : Option String)
    (key : String) :
    (db.markStage id status reason).stages.find? key =
      if key = id then (db.stages.find? key).map (decided status reason)
      else db.stages.find? key :=
  db.stages.find?_update_key (decided_key status reason) (by simp [StageRow.key]) key

theorem find?_markVersion (db : Database) (name version status : String)
    (key : String × String) :
    (db.markVersion name version status).versions.find? key =
      if key = (name, version) then (db.versions.find? key).map (withStatus status)
      else db.versions.find? key :=
  db.versions.find?_update_key (withStatus_key status) (by simp [VersionRow.key]) key

theorem find?_recordDownload (db : Database) (name version : String) (key : String × String) :
    (db.recordDownload name version).versions.find? key =
      if key = (name, version) then (db.versions.find? key).map countDownload
      else db.versions.find? key :=
  db.versions.find?_update_key countDownload_key (by simp [VersionRow.key]) key

theorem insertOutbox_ok {db db' : Database} {eventKey : String} {event : Value} {now : ℕ}
    (h : db.insertOutbox eventKey event now = .ok db') :
    ∃ outbox, db' = { db with outbox } := by
  obtain ⟨outbox, -, h⟩ := Except.bind_eq_ok.mp h
  exact ⟨outbox, (Except.ok.inj h).symm⟩

/-! ## Staging -/

/-- A stage has been added, and its package if it was new. -/
structure Staged (db : Database) (stage : StageRecord) (db' : Database) : Prop where
  id_new : db.stages.find? stage.id = none
  version_new (row : StageRow) (h : row ∈ db.stages.rows) :
    ¬ (row.name = stage.name ∧ row.version = stage.version)
  stages (id : String) : db'.stages.find? id =
    if stage.id = id then some { stage with decisionReason := none } else db.stages.find? id
  package : ∃ package, db'.packages.find? stage.name = some package ∧
    package.organization = stage.organization ∧ package.isPrivate = stage.isPrivate
  packages_kept (name : String) (package : PackageRow)
    (h : db.packages.find? name = some package) : db'.packages.find? name = some package
  packageRoles : db'.packageRoles = db.packageRoles
  versions : db'.versions = db.versions
  distTags : db'.distTags = db.distTags
  tombstones : db'.tombstones = db.tombstones

theorem claimPackage_find? (db : Database) (row : PackageRow) (name : String) :
    (db.claimPackage row).packages.find? name =
      if row.name = name then some ((db.packages.find? name).getD row)
      else db.packages.find? name := by
  unfold claimPackage
  cases h : db.packages.insert? row with
  | none =>
    have hsome : db.packages.find? row.name ≠ none := by
      intro hnone
      simp [Table.insert?, hnone] at h
    obtain ⟨package, hpackage⟩ := Option.ne_none_iff_exists'.mp hsome
    show db.packages.find? name = _
    split_ifs with hname
    · rw [← hname, hpackage, Option.getD_some]
    · rfl
  | some packages =>
    show packages.find? name = _
    rw [Table.find?_insert? h]
    split_ifs with hname
    · rw [← hname, Table.find?_of_insert? h, Option.getD_none]
    · rfl

theorem insertStage_ok {db db' : Database} {stage : StageRecord}
    (h : db.insertStage stage = .ok db') :
    db.stages.find? stage.id = none ∧
      (∀ row ∈ db.stages.rows, ¬ (row.name = stage.name ∧ row.version = stage.version)) ∧
      ∃ stages, db' = { db with stages } ∧ ∀ id, stages.find? id =
        if stage.id = id then some { stage with decisionReason := none }
        else db.stages.find? id := by
  obtain ⟨stages, hinsert, h⟩ := Except.bind_eq_ok.mp h
  rw [unique_eq_ok] at hinsert
  split_ifs at h with hany
  refine ⟨Table.find?_of_insert? hinsert, ?_, stages, (Except.ok.inj h).symm,
    Table.find?_insert? hinsert⟩
  intro row hrow hsame
  exact hany (List.any_eq_true.mpr ⟨row, hrow, by simpa using hsame⟩)

theorem createStage_ok {db db' : Database} {stage : StageRecord} {eventKey : String}
    {event : Value} {maximumPendingStages now : ℕ} {accepted : Bool}
    (h : ControlPlane.createStage db stage eventKey event maximumPendingStages now =
      .ok (accepted, db')) :
    accepted = false ∧ db' = db ∨ accepted = true ∧ Staged db stage db' := by
  unfold ControlPlane.createStage at h
  split_ifs at h with hquota
  · obtain ⟨rfl, rfl⟩ := Prod.mk.inj (Except.ok.inj h)
    exact Or.inl ⟨rfl, rfl⟩
  · right
    dsimp only at h
    split at h
    · simp at h
    · next package hpackage =>
      split_ifs at h with howner hprivate
      obtain ⟨db₁, hstage, h1⟩ := Except.bind_eq_ok.mp h
      obtain ⟨db₂, houtbox, h2⟩ := Except.bind_eq_ok.mp h1
      obtain ⟨rfl, rfl⟩ := Prod.mk.inj (Except.ok.inj h2)
      obtain ⟨hid, hversion, stages, rfl, hstages⟩ := insertStage_ok hstage
      obtain ⟨outbox, rfl⟩ := insertOutbox_ok houtbox
      refine ⟨rfl, hid, hversion, hstages, ?_, ?_, rfl, rfl, rfl, rfl⟩
      · exact ⟨package, hpackage, by simpa using howner, by simpa using hprivate⟩
      · intro name package' hpackage'
        show (db.claimPackage _).packages.find? name = _
        rw [claimPackage_find?, hpackage']
        split_ifs <;> rfl

/-! ## Deciding -/

/-- A stage has been decided. -/
structure Decided (db : Database) (stage : StageRecord) (status : String)
    (reason : Option String) (db' : Database) : Prop where
  staged : ∃ row, db.stages.find? stage.id = some row ∧ row.status = "staged"
  stages (id : String) : db'.stages.find? id =
    if id = stage.id then (db.stages.find? id).map (decided status reason)
    else db.stages.find? id
  packages : db'.packages = db.packages
  packageRoles : db'.packageRoles = db.packageRoles
  tombstones : db'.tombstones = db.tombstones

/-- An approval also adds the version and moves its tag there. -/
structure Approved (db : Database) (stage : StageRecord) (reason : Option String)
    (publishedAt : ℕ) (db' : Database) : Prop extends
    Decided db stage "approved" reason db' where
  version_new : db.versions.find? (stage.name, stage.version) = none
  versions (key : String × String) : db'.versions.find? key =
    if (stage.name, stage.version) = key then some (versionOf stage publishedAt)
    else db.versions.find? key
  distTags (key : String × String) : db'.distTags.find? key =
    if (stage.name, stage.tag) = key then
      some { name := stage.name, tag := stage.tag, version := stage.version }
    else db.distTags.find? key

structure Rejected (db : Database) (stage : StageRecord) (reason : Option String)
    (db' : Database) : Prop extends Decided db stage "rejected" reason db' where
  versions : db'.versions = db.versions
  distTags : db'.distTags = db.distTags

theorem decideStage_ok {db db' : Database} {stage : StageRecord} {approve : Bool}
    {reason : Option String} {eventKey : String} {event : Value} {publishedAt now : ℕ}
    {decidedNow : Bool}
    (h : ControlPlane.decideStage db stage approve reason eventKey event publishedAt now =
      .ok (decidedNow, db')) :
    decidedNow = false ∧ db' = db ∨
      decidedNow = true ∧ if approve then Approved db stage reason publishedAt db'
        else Rejected db stage reason db' := by
  unfold ControlPlane.decideStage at h
  split_ifs at h with hstatus
  · obtain ⟨rfl, rfl⟩ := Prod.mk.inj (Except.ok.inj h)
    exact Or.inl ⟨rfl, rfl⟩
  · right
    have hstaged : ∃ row, db.stages.find? stage.id = some row ∧ row.status = "staged" :=
      Option.map_eq_some_iff.mp (not_not.mp hstatus)
    obtain ⟨db₁, hmark, h1⟩ := Except.bind_eq_ok.mp h
    obtain ⟨db₂, houtbox, h2⟩ := Except.bind_eq_ok.mp h1
    obtain ⟨rfl, rfl⟩ := Prod.mk.inj (Except.ok.inj h2)
    obtain ⟨outbox, rfl⟩ := insertOutbox_ok houtbox
    refine ⟨rfl, ?_⟩
    cases approve with
    | true =>
      obtain ⟨db₂, hversion, h3⟩ := Except.bind_eq_ok.mp hmark
      obtain ⟨versions, hinsert, h4⟩ := Except.bind_eq_ok.mp hversion
      rw [unique_eq_ok] at hinsert
      obtain rfl := Except.ok.inj h3
      obtain rfl := Except.ok.inj h4
      exact {
        staged := hstaged
        stages := find?_markStage db stage.id "approved" reason
        packages := rfl
        packageRoles := rfl
        tombstones := rfl
        version_new := Table.find?_of_insert? hinsert
        versions := Table.find?_insert? hinsert
        distTags := Table.find?_upsert _ _ }
    | false =>
      obtain rfl := Except.ok.inj hmark
      exact {
        staged := hstaged
        stages := find?_markStage db stage.id "rejected" reason
        packages := rfl
        packageRoles := rfl
        tombstones := rfl
        versions := rfl
        distTags := rfl }

/-! ## Revoking -/

/-- A version has been revoked or quarantined. -/
structure Revoked (db : Database) (tombstone : TombstoneRow) (db' : Database) : Prop where
  exists_ : ∃ row, db.versions.find? (tombstone.name, tombstone.version) = some row
  versions (key : String × String) : db'.versions.find? key =
    if key = (tombstone.name, tombstone.version) then
      (db.versions.find? key).map (withStatus tombstone.status)
    else db.versions.find? key
  tombstones (key : String × String) : db'.tombstones.find? key =
    if (tombstone.name, tombstone.version) = key then some tombstone
    else db.tombstones.find? key
  packages : db'.packages = db.packages
  packageRoles : db'.packageRoles = db.packageRoles
  stages : db'.stages = db.stages

theorem moveTags_eq (db : Database) (name version : String) (rollback : Option String) :
    ∃ distTags, db.moveTags name version rollback = { db with distTags } := by
  unfold moveTags
  cases rollback <;> exact ⟨_, rfl⟩

theorem revokeVersion_ok {semver : SemVer} {db db' : Database} {tombstone : TombstoneRow}
    {eventKey : String} {event : Value} {now : ℕ} {revoked : Bool}
    (h : ControlPlane.revokeVersion semver db tombstone eventKey event now =
      .ok (revoked, db')) :
    revoked = false ∧ db' = db ∨ revoked = true ∧ Revoked db tombstone db' := by
  unfold ControlPlane.revokeVersion at h
  split_ifs at h with hnone
  · obtain ⟨rfl, rfl⟩ := Prod.mk.inj (Except.ok.inj h)
    exact Or.inl ⟨rfl, rfl⟩
  · right
    dsimp only at h
    obtain ⟨db₁, houtbox, h1⟩ := Except.bind_eq_ok.mp h
    obtain ⟨rfl, rfl⟩ := Prod.mk.inj (Except.ok.inj h1)
    obtain ⟨outbox, rfl⟩ := insertOutbox_ok houtbox
    obtain ⟨distTags, hmove⟩ := moveTags_eq
      ((db.markVersion tombstone.name tombstone.version tombstone.status).setTombstone tombstone)
      tombstone.name tombstone.version _
    rw [hmove]
    exact ⟨rfl, {
      exists_ := Option.isSome_iff_exists.mp (by simpa [version, Option.isSome_iff_ne_none] using hnone)
      versions := find?_markVersion db tombstone.name tombstone.version tombstone.status
      tombstones := Table.find?_upsert _ _
      packages := rfl
      packageRoles := rfl
      stages := rfl }⟩

end Oath.Registry
