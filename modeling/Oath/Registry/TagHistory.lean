import Oath.Registry.Revocation

/-! The tags of packages over histories of approvals and revocations: a revocation moves the tags
that named the version to the highest one that is left, and a tag that is left alone names what was
last approved under it. -/

namespace Oath.Registry
open Contracts Database

/-! ## The last of the greatest -/

section Greatest
variable {α : Type} {cmp : α → α → Ordering} [Std.TransCmp cmp]
  {f : Option (α × String) → α × String → Option (α × String)}

/-- A fold that keeps the first of two only when it is greater ends with a greatest one. -/
theorem foldl_greatest (hnone : ∀ x, f none x = some x)
    (hsome : ∀ b x, f (some b) x = if cmp b.1 x.1 = .gt then some b else some x)
    {items : List (α × String)} (hne : items ≠ []) :
    ∃ best, items.foldl f none = some best ∧ best ∈ items ∧
      ∀ x ∈ items, (cmp x.1 best.1).isLE := by
  induction items using List.reverseRecOn with
  | nil => exact absurd rfl hne
  | append_singleton items last ih =>
    rw [List.foldl_append, List.foldl_cons, List.foldl_nil]
    have hself : (cmp last.1 last.1).isLE := by
      have hequal : cmp last.1 last.1 = .eq := Std.ReflCmp.compare_self
      rw [hequal]
      rfl
    by_cases hempty : items = []
    · refine ⟨last, ?_, List.mem_append_right _ (List.mem_singleton_self _), fun x hx => ?_⟩
      · rw [hempty]
        exact hnone last
      · rw [hempty, List.nil_append, List.mem_singleton] at hx
        rw [hx]
        exact hself
    · obtain ⟨best, hbest, hmem, hall⟩ := ih hempty
      rw [hbest, hsome]
      split_ifs with hgreater
      · refine ⟨best, rfl, List.mem_append_left _ hmem, fun x hx => ?_⟩
        rcases List.mem_append.mp hx with hfront | hlast
        · exact hall x hfront
        · have hswap : cmp last.1 best.1 = (cmp best.1 last.1).swap := Std.OrientedCmp.eq_swap
          rw [List.mem_singleton.mp hlast, hswap, hgreater]
          rfl
      · have hle : (cmp best.1 last.1).isLE := by
          rw [Ordering.isLE_iff_ne_gt]
          exact hgreater
        refine ⟨last, rfl, List.mem_append_right _ (List.mem_singleton_self _), fun x hx => ?_⟩
        rcases List.mem_append.mp hx with hfront | hlast
        · exact Std.TransCmp.isLE_trans (hall x hfront) hle
        · rw [List.mem_singleton.mp hlast]
          exact hself

end Greatest

/-- A version among these that is as high as any of them. -/
def Highest (semver : SemVer) (active : List String) (version : String) : Prop :=
  version ∈ active ∧ ∃ v, semver.parse version = some v ∧
    ∀ other ∈ active, ∃ w, semver.parse other = some w ∧ (semver.cmp w v).isLE

theorem rollback_eq (semver : SemVer) (active : List String) : ∃ f, semver.rollback active =
      ((active.filterMap fun value => (semver.parse value).map fun v => (v, value)).foldl
        f none).map Prod.snd ∧
    (∀ x, f none x = some x) ∧
    ∀ b x, f (some b) x = if semver.cmp b.1 x.1 = .gt then some b else some x :=
  ⟨_, rfl, fun _ => rfl, fun _ _ => rfl⟩

/-- The version that the tags move to, among versions that all parse. -/
theorem rollback_highest (semver : SemVer) [Std.TransCmp semver.cmp] {active : List String}
    (hparse : ∀ version ∈ active, (semver.parse version).isSome) :
    (active = [] ∧ semver.rollback active = none) ∨
      ∃ highest, semver.rollback active = some highest ∧ Highest semver active highest := by
  by_cases hempty : active = []
  · rw [hempty]
    exact Or.inl ⟨rfl, rfl⟩
  · right
    have hmem : ∀ row : semver.Version × String,
        row ∈ active.filterMap (fun value => (semver.parse value).map fun v => (v, value)) ↔
          row.2 ∈ active ∧ semver.parse row.2 = some row.1 := by
      intro row
      rw [List.mem_filterMap]
      constructor
      · rintro ⟨value, hvalue, hrow⟩
        obtain ⟨v, hv, rfl⟩ := Option.map_eq_some_iff.mp hrow
        exact ⟨hvalue, hv⟩
      · rintro ⟨hvalue, hv⟩
        exact ⟨row.2, hvalue, by rw [hv]; rfl⟩
    have hne : active.filterMap
        (fun value => (semver.parse value).map fun v => (v, value)) ≠ [] := by
      obtain ⟨version, hversion⟩ := List.exists_mem_of_ne_nil active hempty
      obtain ⟨v, hv⟩ := Option.isSome_iff_exists.mp (hparse version hversion)
      exact List.ne_nil_of_mem ((hmem (v, version)).mpr ⟨hversion, hv⟩)
    obtain ⟨f, hrollback, hnone, hsome⟩ := rollback_eq semver active
    obtain ⟨best, hbest, hin, hall⟩ := foldl_greatest hnone hsome hne
    obtain ⟨hactive, hv⟩ := (hmem best).mp hin
    refine ⟨best.2, ?_, hactive, best.1, hv, fun other hother => ?_⟩
    · rw [hrollback, hbest]
      rfl
    · obtain ⟨w, hw⟩ := Option.isSome_iff_exists.mp (hparse other hother)
      exact ⟨w, hw, hall (w, other) ((hmem (w, other)).mpr ⟨hother, hw⟩)⟩

/-! ## One revocation -/

section Tags
variable {db : Database} {name version : String} {key : String × String} {row : DistTagRow}

/-- A tag of the version moves, or goes when there is nowhere to move. -/
theorem find?_moveTags_named (rollback : Option String) (h : db.distTags.find? key = some row)
    (hname : row.name = name) (hversion : row.version = version) :
    (db.moveTags name version rollback).distTags.find? key =
      rollback.map fun highest => withVersion highest row := by
  cases rollback with
  | none =>
    rw [moveTags, Table.find?_delete, h]
    simp [hname, hversion]
  | some highest =>
    rw [moveTags, Table.find?_update, h]
    simp [hname, hversion]

theorem find?_moveTags_other (rollback : Option String)
    (h : ∀ row, db.distTags.find? key = some row → ¬(row.name = name ∧ row.version = version)) :
    (db.moveTags name version rollback).distTags.find? key = db.distTags.find? key := by
  cases hrow : db.distTags.find? key with
  | none =>
    cases rollback with
    | none => rw [moveTags, Table.find?_delete, hrow]; rfl
    | some highest => rw [moveTags, Table.find?_update, hrow]; rfl
  | some row =>
    have hother := h row hrow
    cases rollback with
    | none =>
      rw [moveTags, Table.find?_delete, hrow]
      exact Option.filter_some_pos (by rw [decide_eq_false hother]; rfl)
    | some highest =>
      rw [moveTags, Table.find?_update, hrow]
      simp only [Option.map_some, decide_eq_true_eq, hother, if_false]

end Tags

/-- What a revocation makes of the tags and the other versions. -/
structure RolledBack (semver : SemVer) (db : Database) (tombstone : TombstoneRow)
    (db' : Database) : Prop where
  named : ∀ key row, db.distTags.find? key = some row → row.name = tombstone.name →
    row.version = tombstone.version →
    (db'.activeVersions tombstone.name = [] ∧ db'.distTags.find? key = none) ∨
      ∃ highest, Highest semver (db'.activeVersions tombstone.name) highest ∧
        db'.distTags.find? key = some (withVersion highest row)
  others : ∀ key, (∀ row, db.distTags.find? key = some row →
    ¬(row.name = tombstone.name ∧ row.version = tombstone.version)) →
      db'.distTags.find? key = db.distTags.find? key
  versions : ∀ key, key ≠ (tombstone.name, tombstone.version) →
    db'.versions.find? key = db.versions.find? key
  gone : tombstone.status ≠ "active" →
    tombstone.version ∉ db'.activeVersions tombstone.name

/-- Every version can be read as a semantic version. -/
def AllParse (semver : SemVer) (db : Database) : Prop :=
  ∀ key row, db.versions.find? key = some row → (semver.parse row.version).isSome

section Steps
variable {semver : SemVer} {db db' : Database} {tombstone : TombstoneRow} {eventKey : String}
  {event : Value} {now : ℕ}

theorem revokeVersion_distTags
    (h : ControlPlane.revokeVersion semver db tombstone eventKey event now = .ok (true, db')) :
    db'.distTags = (db.moveTags tombstone.name tombstone.version
      (semver.rollback (db'.activeVersions tombstone.name))).distTags := by
  unfold ControlPlane.revokeVersion at h
  split_ifs at h with hnone
  · cases (Prod.mk.inj (Except.ok.inj h)).1
  · obtain ⟨db₁, houtbox, h1⟩ := Except.bind_eq_ok.mp h
    obtain ⟨-, hdb⟩ := Prod.mk.inj (Except.ok.inj h1)
    obtain ⟨outbox, hrows⟩ := insertOutbox_ok houtbox
    have htables : db' = { revokedTables semver db tombstone with outbox } := hdb.symm.trans hrows
    rw [htables]
    exact revokedTables_distTags

theorem mem_activeVersions {name version : String} :
    version ∈ db.activeVersions name ↔
      ∃ row, db.versions.find? (name, version) = some row ∧ row.status = "active" := by
  unfold activeVersions
  rw [List.mem_map]
  constructor
  · rintro ⟨row, hrow, rfl⟩
    obtain ⟨hmem, hactive⟩ := List.mem_filter.mp hrow
    obtain ⟨hname, hstatus⟩ := of_decide_eq_true hactive
    have hfind := db.versions.find?_key hmem
    rw [VersionRow.key, hname] at hfind
    exact ⟨row, hfind, hstatus⟩
  · rintro ⟨row, hfind, hstatus⟩
    have hkey : row.key = (name, version) := db.versions.key_of_find? hfind
    obtain ⟨hname, hversion⟩ := Prod.mk.inj hkey
    refine ⟨row, List.mem_filter.mpr ⟨db.versions.mem_of_find? hfind, ?_⟩, hversion⟩
    exact decide_eq_true ⟨hname, hstatus⟩

theorem revokeVersion_rolledBack [Std.TransCmp semver.cmp] (hparse : AllParse semver db)
    (h : ControlPlane.revokeVersion semver db tombstone eventKey event now = .ok (true, db')) :
    AllParse semver db' ∧ RolledBack semver db tombstone db' := by
  have htags := revokeVersion_distTags h
  obtain ⟨hfalse, -⟩ | ⟨-, hrevoked⟩ := revokeVersion_ok h
  · cases hfalse
  have hparse' : AllParse semver db' := by
    intro key row hrow
    rw [hrevoked.versions] at hrow
    split_ifs at hrow
    · obtain ⟨old, hold, rfl⟩ := Option.map_eq_some_iff.mp hrow
      exact hparse key old hold
    · exact hparse key row hrow
  have hactive : ∀ version ∈ db'.activeVersions tombstone.name,
      (semver.parse version).isSome := by
    intro version hversion
    obtain ⟨row, hrow, -⟩ := mem_activeVersions.mp hversion
    have hkey : row.key = (tombstone.name, version) := db'.versions.key_of_find? hrow
    obtain ⟨-, rfl⟩ := Prod.mk.inj hkey
    exact hparse' _ row hrow
  refine ⟨hparse', ?_, ?_, ?_, ?_⟩
  · intro key row hrow hname hversion
    have hmoved := find?_moveTags_named
      (semver.rollback (db'.activeVersions tombstone.name)) hrow hname hversion
    rw [← htags] at hmoved
    rcases rollback_highest semver hactive with ⟨hempty, hrollback⟩ | ⟨highest, hrollback, hbest⟩
    · rw [hrollback] at hmoved
      exact Or.inl ⟨hempty, hmoved⟩
    · rw [hrollback] at hmoved
      exact Or.inr ⟨highest, hbest, hmoved⟩
  · intro key hother
    rw [htags]
    exact find?_moveTags_other _ hother
  · intro key hkey
    rw [hrevoked.versions, if_neg hkey]
  · intro hstatus hmem
    obtain ⟨row, hrow, hrowStatus⟩ := mem_activeVersions.mp hmem
    rw [hrevoked.versions, if_pos rfl] at hrow
    obtain ⟨old, -, rfl⟩ := Option.map_eq_some_iff.mp hrow
    exact hstatus hrowStatus

end Steps

/-! ## Histories -/

inductive TagEvent
  | decide (stage : StageRecord) (approve : Bool) (reason : Option String) (eventKey : String)
    (event : Value) (publishedAt now : ℕ)
  | revoke (tombstone : TombstoneRow) (eventKey : String) (event : Value) (now : ℕ)

section Histories
variable (semver : SemVer)

def TagEvent.apply (db : Database) : TagEvent → Except String (Bool × Database)
  | .decide stage approve reason eventKey event publishedAt now =>
    ControlPlane.decideStage db stage approve reason eventKey event publishedAt now
  | .revoke tombstone eventKey event now =>
    ControlPlane.revokeVersion semver db tombstone eventKey event now

/-- A transaction that fails leaves the database as it was. -/
def tagStep (db : Database) (e : TagEvent) : Database :=
  match e.apply semver db with
  | .ok (_, db') => db'
  | .error _ => db

def tagRun (db : Database) (events : List TagEvent) : Database := events.foldl (tagStep semver) db

/-- The versions that are approved are semantic versions. -/
def TagEvent.Parses : TagEvent → Prop
  | .decide stage _ _ _ _ _ _ => (semver.parse stage.version).isSome
  | .revoke _ _ _ _ => True

/-- The event is an approval under the tag. -/
def TagEvent.Approves (key : String × String) : TagEvent → Prop
  | .decide stage approve _ _ _ _ _ => approve = true ∧ (stage.name, stage.tag) = key
  | .revoke _ _ _ _ => False

/-- The event revokes the version that the tag names. -/
def TagEvent.RollsBack (db : Database) (key : String × String) : TagEvent → Prop
  | .decide _ _ _ _ _ _ _ => False
  | .revoke tombstone _ _ _ => ∃ row, db.distTags.find? key = some row ∧
      row.name = tombstone.name ∧ row.version = tombstone.version

/-- No event approves under the tag or rolls it back. -/
def LeftAlone (key : String × String) : Database → List TagEvent → Prop
  | _, [] => True
  | db, e :: rest => (∀ db', e.apply semver db = .ok (true, db') →
      ¬e.Approves key ∧ ¬e.RollsBack db key) ∧ LeftAlone key (tagStep semver db e) rest

end Histories

section Runs
variable {semver : SemVer} {db db' : Database} {key : String × String}

/-- What one event does: nothing, a decision or a revocation. -/
theorem tagStep_cases (semver : SemVer) (db : Database) (e : TagEvent) :
    tagStep semver db e = db ∨
      ∃ db', e.apply semver db = .ok (true, db') ∧ tagStep semver db e = db' := by
  unfold tagStep
  cases happly : e.apply semver db with
  | error message => exact Or.inl rfl
  | ok result =>
    obtain ⟨done, db'⟩ := result
    cases done with
    | true => exact Or.inr ⟨db', rfl, rfl⟩
    | false =>
      left
      cases e with
      | decide stage approve reason eventKey event publishedAt now =>
        obtain ⟨-, hsame⟩ | ⟨htrue, -⟩ := decideStage_ok happly
        · exact hsame
        · cases htrue
      | revoke tombstone eventKey event now =>
        obtain ⟨-, hsame⟩ | ⟨htrue, -⟩ := revokeVersion_ok happly
        · exact hsame
        · cases htrue

theorem allParse_step [Std.TransCmp semver.cmp] {e : TagEvent} (hparse : AllParse semver db)
    (he : e.Parses semver) : AllParse semver (tagStep semver db e) := by
  rcases tagStep_cases semver db e with hsame | ⟨db', happly, hstep⟩
  · rw [hsame]
    exact hparse
  · rw [hstep]
    cases e with
    | decide stage approve reason eventKey event publishedAt now =>
      obtain ⟨hfalse, -⟩ | ⟨-, hdecided⟩ := decideStage_ok happly
      · cases hfalse
      · intro key row hrow
        split_ifs at hdecided
        · rw [hdecided.versions] at hrow
          split_ifs at hrow
          · rw [← Option.some.inj hrow]
            exact he
          · exact hparse key row hrow
        · rw [hdecided.versions] at hrow
          exact hparse key row hrow
    | revoke tombstone eventKey event now => exact (revokeVersion_rolledBack hparse happly).1

theorem allParse_run [Std.TransCmp semver.cmp] {events : List TagEvent}
    (hparse : AllParse semver db) (hevents : ∀ e ∈ events, e.Parses semver) :
    AllParse semver (tagRun semver db events) := by
  induction events generalizing db with
  | nil => exact hparse
  | cons e rest ih =>
    have hstep := allParse_step hparse (hevents e List.mem_cons_self)
    exact ih hstep fun other hother => hevents other (List.mem_cons_of_mem _ hother)

/-- An event that neither approves under a tag nor rolls it back leaves it. -/
theorem distTags_step {e : TagEvent} (h : ∀ db', e.apply semver db = .ok (true, db') →
    ¬e.Approves key ∧ ¬e.RollsBack db key) :
    (tagStep semver db e).distTags.find? key = db.distTags.find? key := by
  rcases tagStep_cases semver db e with hsame | ⟨db', happly, hstep⟩
  · rw [hsame]
  · obtain ⟨hnotApproves, hnotRolled⟩ := h db' happly
    rw [hstep]
    cases e with
    | decide stage approve reason eventKey event publishedAt now =>
      obtain ⟨hfalse, -⟩ | ⟨-, hdecided⟩ := decideStage_ok happly
      · cases hfalse
      · split_ifs at hdecided with happrove
        · rw [hdecided.distTags, if_neg fun hkey => hnotApproves ⟨happrove, hkey⟩]
        · rw [hdecided.distTags]
    | revoke tombstone eventKey event now =>
      rw [revokeVersion_distTags happly]
      refine find?_moveTags_other _ fun row hrow hnamed => hnotRolled ?_
      exact ⟨row, hrow, hnamed.1, hnamed.2⟩

theorem distTags_run {events : List TagEvent} (h : LeftAlone semver key db events) :
    (tagRun semver db events).distTags.find? key = db.distTags.find? key := by
  induction events generalizing db with
  | nil => rfl
  | cons e rest ih => exact (ih h.2).trans (distTags_step h.1)

/-- The law of tags: after every revocation in a history the tags that named the version name a
highest one that is left, or are gone when none is left, and nothing else has changed; and a tag
that was left alone since an approval names the version of that approval. -/
theorem tags_of_history [Std.TransCmp semver.cmp] (hparse : AllParse semver db)
    {events : List TagEvent} (hevents : ∀ e ∈ events, e.Parses semver) :
    (∀ tombstone eventKey event now db', ControlPlane.revokeVersion semver
        (tagRun semver db events) tombstone eventKey event now = .ok (true, db') →
      RolledBack semver (tagRun semver db events) tombstone db') ∧
    ∀ before stage reason eventKey event publishedAt now after approved,
      events = before ++ .decide stage true reason eventKey event publishedAt now :: after →
      ControlPlane.decideStage (tagRun semver db before) stage true reason eventKey event
        publishedAt now = .ok (true, approved) →
      LeftAlone semver (stage.name, stage.tag) approved after →
      (tagRun semver db events).distTags.find? (stage.name, stage.tag) =
        some { name := stage.name, tag := stage.tag, version := stage.version } := by
  constructor
  · intro tombstone eventKey event now db' hrevoke
    exact (revokeVersion_rolledBack (allParse_run hparse hevents) hrevoke).2
  · intro before stage reason eventKey event publishedAt now after approved hsplit hdecide halone
    have hrun : tagRun semver db events = tagRun semver approved after := by
      have hstep : tagStep semver (tagRun semver db before)
          (.decide stage true reason eventKey event publishedAt now) = approved := by
        have happly : TagEvent.apply semver (tagRun semver db before)
            (.decide stage true reason eventKey event publishedAt now) = .ok (true, approved) :=
          hdecide
        unfold tagStep
        rw [happly]
      rw [hsplit, tagRun, List.foldl_append, List.foldl_cons]
      exact congrArg (fun db => tagRun semver db after) hstep
    obtain ⟨hfalse, -⟩ | ⟨-, hdecided⟩ := decideStage_ok hdecide
    · cases hfalse
    · rw [if_pos rfl] at hdecided
      rw [hrun, distTags_run halone, hdecided.distTags, if_pos rfl]

end Runs

/-! ## Two releases under one tag -/

instance : Std.TransCmp SemVer.releases.cmp :=
  inferInstanceAs (Std.TransCmp (compareLex (compareOn fun v : ℕ × ℕ × ℕ => v.1)
    (compareLex (compareOn fun v => v.2.1) (compareOn fun v => v.2.2))))

def stagedRelease (version : String) : StageRecord where
  id := "stage-" ++ version
  organization := "acme"
  name := "left-pad"
  version := version
  tag := "latest"
  digest := "digest-" ++ version
  status := "staged"
  isPrivate := false
  manifest := .null
  publisherAssessment := .null
  assessment := .null
  serverEvidence := .null
  sbom := .null
  provenance := .null
  createdAt := 0

def stagedReleases : Database :=
  { Database.empty with
    stages := ((Table.empty : Table StageRow.key).upsert
      { stagedRelease "1.3.0" with decisionReason := none }).upsert
      { stagedRelease "1.10.0" with decisionReason := none } }

def approvals : List TagEvent :=
  [.decide (stagedRelease "1.3.0") true none "approve-1.3.0" .null 1 1,
    .decide (stagedRelease "1.10.0") true none "approve-1.10.0" .null 2 2]

def revokedRelease : TombstoneRow where
  name := "left-pad"
  version := "1.10.0"
  status := "revoked"
  reason := "withdrawn"
  actorOrg := "acme"
  createdAt := 3
  signature := ""
  publicKey := ""

theorem tags_of_history_demo : ∃ db',
    ControlPlane.revokeVersion .releases (tagRun .releases stagedReleases approvals) revokedRelease
      "revoke-1.10.0" .null 3 = .ok (true, db') ∧
    RolledBack .releases (tagRun .releases stagedReleases approvals) revokedRelease db' ∧
    db'.distTags.find? ("left-pad", "latest") = some ⟨"left-pad", "latest", "1.3.0"⟩ := by
  have hparse : AllParse .releases stagedReleases := by
    intro key row hrow
    cases hrow
  have hevents : ∀ e ∈ approvals, e.Parses .releases := by
    simp only [approvals, List.forall_mem_cons]
    exact ⟨rfl, rfl, fun _ hmem => absurd hmem List.not_mem_nil⟩
  have hrevoke : ∃ db', ControlPlane.revokeVersion .releases
      (tagRun .releases stagedReleases approvals) revokedRelease "revoke-1.10.0" .null 3 =
        .ok (true, db') ∧
      db'.distTags.find? ("left-pad", "latest") = some ⟨"left-pad", "latest", "1.3.0"⟩ :=
    ⟨_, rfl, rfl⟩
  obtain ⟨db', hrevoked, hlatest⟩ := hrevoke
  exact ⟨db', hrevoked, (tags_of_history hparse hevents).1 _ _ _ _ _ hrevoked, hlatest⟩

end Oath.Registry
