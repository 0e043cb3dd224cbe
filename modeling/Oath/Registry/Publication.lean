import Oath.Registry.Consistency

/-! The life of a published version over a whole history of requests: how it comes to be
there, what it keeps and where its status can go. -/

namespace Oath.Registry
open Contracts Service Unix Database

/-- A version changes in its status and its downloads only, and its status goes one way. -/
structure VersionKept (before after : VersionRow) : Prop where
  columns : ∃ status downloadCount, after = { before with status, downloadCount }
  retired : before.status ≠ "active" → after.status ≠ "active"

namespace VersionKept

theorem refl (row : VersionRow) : VersionKept row row := ⟨⟨_, _, rfl⟩, id⟩

theorem trans {a b c : VersionRow} (h : VersionKept a b) (h' : VersionKept b c) :
    VersionKept a c := by
  refine ⟨?_, h'.retired ∘ h.retired⟩
  obtain ⟨status, downloads, rfl⟩ := h.columns
  obtain ⟨status', downloads', rfl⟩ := h'.columns
  exact ⟨status', downloads', rfl⟩

variable {before after : VersionRow}

theorem digest (h : VersionKept before after) : after.digest = before.digest := by
  obtain ⟨_, _, rfl⟩ := h.columns
  rfl

theorem organization (h : VersionKept before after) :
    after.organization = before.organization := by
  obtain ⟨_, _, rfl⟩ := h.columns
  rfl

theorem isPrivate (h : VersionKept before after) : after.isPrivate = before.isPrivate := by
  obtain ⟨_, _, rfl⟩ := h.columns
  rfl

theorem publishedFrom (h : VersionKept before after) {stage : StageRecord}
    (hfrom : PublishedFrom before stage) : PublishedFrom after stage := by
  obtain ⟨_, _, rfl⟩ := h.columns
  exact ⟨hfrom.name, hfrom.version, hfrom.organization, hfrom.digest, hfrom.isPrivate,
    hfrom.manifest, hfrom.assessment, hfrom.serverEvidence, hfrom.sbom, hfrom.provenance⟩

end VersionKept

section Step
variable {registry : PostgresRegistry} {s s' : RegistryState} {request : Request}

theorem step_version_kept (hstep : Effect registry s request s') {key : String × String}
    {row : VersionRow} (h : s.db.versions.find? key = some row) :
    ∃ row', s'.db.versions.find? key = some row' ∧ VersionKept row row' := by
  cases hstep with
  | staged _ _ _ _ _ _ _ hstaged => exact ⟨row, by rw [hstaged.versions, h], .refl row⟩
  | approved _ _ _ _ _ _ happroved =>
    refine ⟨row, ?_, .refl row⟩
    show _ = _
    rw [happroved.versions, if_neg, h]
    rintro rfl
    rw [happroved.version_new] at h
    cases h
  | rejected _ _ _ _ hrejected => exact ⟨row, by rw [hrejected.versions, h], .refl row⟩
  | revoked _ _ hrevoked =>
    show ∃ row', _ = _ ∧ _
    rw [hrevoked.versions]
    split_ifs
    · rw [h]
      exact ⟨_, rfl, ⟨_, _, rfl⟩, fun _ => revokedStatus_ne _⟩
    · exact ⟨row, h, .refl row⟩
  | downloaded =>
    show ∃ row', _ = _ ∧ _
    rw [find?_recordDownload]
    split_ifs
    · rw [h]
      exact ⟨_, rfl, ⟨_, _, rfl⟩, id⟩
    · exact ⟨row, h, .refl row⟩
  | stored | granted => exact ⟨row, h, .refl row⟩

/-- The approval that inserts a version: who gives it, to which stage, and what the server
made of the stage's bytes. -/
structure Approval (registry : PostgresRegistry) (s : RegistryState) (request : Request)
    (principal : Principal) (stage : StageRecord) (tarball : List UInt8)
    (bundle : RegistryAssessmentBundle) (row : VersionRow) : Prop where
  request : ∃ caller reason,
    request = .decide caller stage.id true reason ∧ caller = .ok (some principal)
  admin : principal.role = "admin"
  stepUp : registry.requireStepUpApproval → principal.kind = "oidc-mfa"
  owner : ∃ package, s.db.package row.name = some package ∧
    package.organization = principal.organization
  staged : s.db.readStage stage.id = some stage ∧ stage.status = "staged"
  from_ : PublishedFrom row stage
  assessed : Assessed registry stage tarball bundle
  stored : s.objects.primary.find? stage.digest = some { path := stage.digest, bytes := tarball }
  decision : bundle.verdict.decision ≠ .deny
  active : row.status = "active"

theorem decision_ne_deny {stage : StageRecord} {tarball : List UInt8}
    {bundle : RegistryAssessmentBundle} (h : Assessed registry stage tarball bundle)
    (hdenied : ¬ isDenied stage.assessment) : bundle.verdict.decision ≠ .deny := by
  intro hdeny
  apply hdenied
  unfold isDenied
  rw [h.assessment, RegistryVerdictV1.get?_decision]
  have hsame : (signVerdict registry bundle.verdict).decision = bundle.verdict.decision := rfl
  simp [hsame, Value.asStr?, Decision.asStr_eq_deny.mpr hdeny]

/-- Only an approval inserts a version. -/
theorem step_inserted (hstep : Effect registry s request s') (hs : Consistent registry s)
    {key : String × String} {row : VersionRow} (hnone : s.db.versions.find? key = none)
    (h : s'.db.versions.find? key = some row) :
    ∃ principal stage tarball bundle,
      Approval registry s request principal stage tarball bundle row := by
  cases hstep with
  | staged _ _ _ _ _ _ _ hstaged =>
    rw [hstaged.versions, hnone] at h
    cases h
  | @approved caller id reason principal stage publishedAt _ hcaller hadmin hstepUp hstage howner
      hdenied happroved =>
    rw [happroved.versions, hnone] at h
    split_ifs at h
    obtain rfl := Option.some.inj h
    obtain ⟨stageRow, hrow, rfl, rfl⟩ := readStage_eq hstage
    obtain ⟨tarball, bundle, hassessed, hstored⟩ := hs.assessed _ stageRow hrow
    obtain ⟨package, hpackage, horganization, -⟩ := hs.owned _ stageRow hrow
    obtain ⟨staged, hstaged, hstatus⟩ := happroved.staged
    obtain rfl := Option.some.inj (hrow.symm.trans hstaged)
    exact ⟨principal, stageRow.toStageRecord, tarball, bundle, {
      request := ⟨caller, reason, rfl, hcaller⟩
      admin := hadmin
      stepUp := hstepUp
      owner := ⟨package, hpackage, horganization.trans howner⟩
      staged := ⟨hstage, hstatus⟩
      from_ := versionOf_publishedFrom _ publishedAt
      assessed := hassessed
      stored := hstored
      decision := decision_ne_deny hassessed hdenied
      active := rfl }⟩
  | rejected _ _ _ _ hrejected =>
    rw [hrejected.versions, hnone] at h
    cases h
  | revoked _ _ hrevoked =>
    obtain ⟨old, hold, -⟩ := hrevoked.version_kept h
    rw [hnone] at hold
    cases hold
  | downloaded =>
    obtain ⟨old, hold, -⟩ := recordDownload_kept h
    rw [hnone] at hold
    cases hold
  | stored | granted => cases hnone.symm.trans h

end Step

/-! ## Histories -/

section History
variable (registry : PostgresRegistry)

theorem run_append (s : RegistryState) (calls more : List Call) :
    run registry s (calls ++ more) = run registry (run registry s calls) more :=
  List.foldl_append

theorem run_version_kept (calls : List Call) {s : RegistryState} {key : String × String}
    {row : VersionRow} (h : s.db.versions.find? key = some row) :
    ∃ row', (run registry s calls).db.versions.find? key = some row' ∧ VersionKept row row' := by
  induction calls generalizing s row with
  | nil => exact ⟨row, h, .refl row⟩
  | cons call calls ih =>
    obtain ⟨row₁, h₁, hkept₁⟩ := step_version_kept (serve_effect registry s call) h
    obtain ⟨row₂, h₂, hkept₂⟩ := ih h₁
    exact ⟨row₂, h₂, hkept₁.trans hkept₂⟩

theorem run_inserted (replicas : ℕ) (calls : List Call) {key : String × String} {row : VersionRow}
    (h : (run registry (.empty replicas) calls).db.versions.find? key = some row) :
    ∃ before call after principal stage tarball bundle inserted,
      calls = before ++ call :: after ∧
      (run registry (.empty replicas) (before ++ [call])).db.versions.find? key =
        some inserted ∧
      Approval registry (run registry (.empty replicas) before) call.request principal stage
        tarball bundle inserted ∧
      VersionKept inserted row := by
  induction calls using List.reverseRecOn generalizing row with
  | nil => cases h
  | append_singleton calls call ih =>
    cases hold : (run registry (.empty replicas) calls).db.versions.find? key with
    | none =>
      have hserve := h
      rw [run_append] at hserve
      obtain ⟨principal, stage, tarball, bundle, happroval⟩ := step_inserted
        (serve_effect registry (run registry (.empty replicas) calls) call)
        (run_consistent registry replicas calls) hold hserve
      exact ⟨calls, call, [], principal, stage, tarball, bundle, row, rfl, h, happroval, .refl row⟩
    | some old =>
      obtain ⟨before, call', after, principal, stage, tarball, bundle, inserted, rfl, hinserted,
        happroval, hkept⟩ := ih hold
      obtain ⟨row', hrow', hkept'⟩ := step_version_kept
        (serve_effect registry (run registry (.empty replicas) (before ++ call' :: after)) call)
        hold
      rw [run_append] at h
      obtain rfl := Option.some.inj (hrow'.symm.trans h)
      exact ⟨before, call', after ++ [call], principal, stage, tarball, bundle, inserted,
        by simp, hinserted, happroval, hkept.trans hkept'⟩

/-- What holds of the versions of a registry that has been asked `calls`, and after any
`more`. -/
structure PublicationInvariant (replicas : ℕ) (calls : List Call) : Prop where
  kept (more : List Call) (key : String × String) (row : VersionRow)
    (h : (run registry (.empty replicas) calls).db.versions.find? key = some row) :
    ∃ row', (run registry (.empty replicas) (calls ++ more)).db.versions.find? key = some row' ∧
      row'.digest = row.digest ∧ row'.organization = row.organization ∧
      row'.isPrivate = row.isPrivate
  inserted (key : String × String) (row : VersionRow)
    (h : (run registry (.empty replicas) calls).db.versions.find? key = some row) :
    ∃ before call after principal stage tarball bundle inserted,
      calls = before ++ call :: after ∧
      (run registry (.empty replicas) (before ++ [call])).db.versions.find? key =
        some inserted ∧
      Approval registry (run registry (.empty replicas) before) call.request principal stage
        tarball bundle inserted ∧
      VersionKept inserted row
  retired (more : List Call) (key : String × String) (row : VersionRow)
    (h : (run registry (.empty replicas) calls).db.versions.find? key = some row)
    (hstatus : row.status ≠ "active") :
    ∃ row', (run registry (.empty replicas) (calls ++ more)).db.versions.find? key = some row' ∧
      row'.status ≠ "active"
  tombstoned (key : String × String) (row : VersionRow)
    (h : (run registry (.empty replicas) calls).db.versions.find? key = some row) :
    row.status ≠ "active" ↔
      ∃ tombstone,
        (run registry (.empty replicas) calls).db.tombstones.find? key = some tombstone ∧
        tombstone.status = row.status

/-- Versions of every history: inserted once, by an approval of an artifact the server did
not deny; never changed but in status; never active again. -/
theorem publication_invariant (replicas : ℕ) (calls : List Call) :
    PublicationInvariant registry replicas calls where
  kept more key row h := by
    obtain ⟨row', hrow', hkept⟩ := run_version_kept registry more h
    rw [← run_append] at hrow'
    exact ⟨row', hrow', hkept.digest, hkept.organization, hkept.isPrivate⟩
  inserted key row h := run_inserted registry replicas calls h
  retired more key row h hstatus := by
    obtain ⟨row', hrow', hkept⟩ := run_version_kept registry more h
    rw [← run_append] at hrow'
    exact ⟨row', hrow', hkept.retired hstatus⟩
  tombstoned key row h := by
    rcases (run_consistent registry replicas calls).tombstoned key row h with
      ⟨hactive, hnone⟩ | ⟨hretired, htombstone⟩
    · constructor
      · exact fun hne => absurd hactive hne
      · rintro ⟨tombstone, hsome, -⟩
        rw [hnone] at hsome
        cases hsome
    · exact ⟨fun _ => htombstone, fun _ => hretired⟩

end History

end Oath.Registry
