import Mathlib.Data.Finset.Card
import Oath.Library.KeyedLists
import Oath.Registry.Consistency

/-! The migration that runs whenever the registry starts. -/

namespace Oath.Registry
open KeyedLists Database

/-! ## The statements -/

/-- What a version or a stage says of its package. -/
structure HistoricalPackage where
  name : String
  organization : String
  isPrivate : Bool
deriving DecidableEq, Repr

def packageOfVersion (row : VersionRow) : PackageRow :=
  ⟨row.name, row.organization, row.isPrivate, row.publishedAt⟩

def packageOfStage (row : StageRow) : PackageRow :=
  ⟨row.name, row.organization, row.isPrivate, row.createdAt⟩

def PackageRow.historical (row : PackageRow) : HistoricalPackage :=
  ⟨row.name, row.organization, row.isPrivate⟩

namespace Database

/-- `SELECT … FROM versions UNION ALL SELECT … FROM stages`. -/
def historicalPackages (db : Database) : List HistoricalPackage :=
  (db.versions.rows.map packageOfVersion ++ db.stages.rows.map packageOfStage).map
    PackageRow.historical

/-- `GROUP BY name HAVING COUNT(DISTINCT organization) > 1 OR COUNT(DISTINCT private) > 1`. -/
def isAmbiguous (db : Database) : Bool :=
  db.historicalPackages.any fun row =>
    let group := db.historicalPackages.filter fun other => other.name = row.name
    1 < (group.map HistoricalPackage.organization).dedup.length ||
      1 < (group.map HistoricalPackage.isPrivate).dedup.length

def conflicts (db : Database) : Bool :=
  db.historicalPackages.any fun row => (db.package row.name).any fun package =>
    package.organization ≠ row.organization || package.isPrivate ≠ row.isPrivate

/-- `SELECT DISTINCT ON (name) … ORDER BY name, created_at … ON CONFLICT (name) DO NOTHING`. -/
def backfill (db : Database) (rows : List PackageRow) : Database :=
  (keepFirst PackageRow.name (rows.mergeSort fun a b => a.createdAt ≤ b.createdAt)).foldl
    claimPackage db

/-- `0001_registry.sql`, which is one transaction. -/
def migrate (db : Database) : Except String Database :=
  if db.isAmbiguous then
    .error ("historical package ownership or visibility is ambiguous; " ++
      "repair conflicting rows before migration")
  else
    let db := db.backfill (db.versions.rows.map packageOfVersion)
    if db.conflicts then
      .error "package ownership table conflicts with historical release rows"
    else .ok (db.backfill (db.stages.rows.map packageOfStage))

end Database

/-! ## What the checks find -/

/-- The package has the owner and the visibility of the version or stage. -/
def AgreesWith (package : PackageRow) (row : HistoricalPackage) : Prop :=
  package.organization = row.organization ∧ package.isPrivate = row.isPrivate

/-- Every version and stage agrees with the row of its package. -/
def Owned (db : Database) : Prop := ∀ row ∈ db.historicalPackages,
  ∃ package, db.package row.name = some package ∧ AgreesWith package row

/-- All that is said of a package agrees, also with its row, if it has one. -/
structure Coherent (db : Database) : Prop where
  rows (row other : HistoricalPackage) : row ∈ db.historicalPackages →
    other ∈ db.historicalPackages → row.name = other.name →
      row.organization = other.organization ∧ row.isPrivate = other.isPrivate
  packages (row : HistoricalPackage) (package : PackageRow) : row ∈ db.historicalPackages →
    db.package row.name = some package → AgreesWith package row

theorem length_dedup_le_one {α : Type} [DecidableEq α] {l : List α} :
    l.dedup.length ≤ 1 ↔ ∀ a ∈ l, ∀ b ∈ l, a = b := by
  rw [← List.card_toFinset, Finset.card_le_one]
  simp only [List.mem_toFinset]

section Checks
variable {db : Database}

theorem isAmbiguous_eq_false : db.isAmbiguous = false ↔
    ∀ row other, row ∈ db.historicalPackages → other ∈ db.historicalPackages →
      row.name = other.name →
        row.organization = other.organization ∧ row.isPrivate = other.isPrivate := by
  unfold isAmbiguous
  simp only [List.any_eq_false, Bool.or_eq_true, decide_eq_true_eq, not_or, Nat.not_lt,
    length_dedup_le_one, List.mem_map, List.mem_filter]
  constructor
  · intro h row other hrow hother hname
    have hself : row ∈ db.historicalPackages ∧ row.name = row.name := ⟨hrow, rfl⟩
    have hsame : other ∈ db.historicalPackages ∧ other.name = row.name := ⟨hother, hname.symm⟩
    obtain ⟨horganization, hprivate⟩ := h row hrow
    exact ⟨horganization _ ⟨row, hself, rfl⟩ _ ⟨other, hsame, rfl⟩,
      hprivate _ ⟨row, hself, rfl⟩ _ ⟨other, hsame, rfl⟩⟩
  · intro h row hrow
    constructor
    · rintro _ ⟨a, ⟨ha, haname⟩, rfl⟩ _ ⟨b, ⟨hb, hbname⟩, rfl⟩
      exact (h a b ha hb (haname.trans hbname.symm)).1
    · rintro _ ⟨a, ⟨ha, haname⟩, rfl⟩ _ ⟨b, ⟨hb, hbname⟩, rfl⟩
      exact (h a b ha hb (haname.trans hbname.symm)).2

theorem conflicts_eq_false : db.conflicts = false ↔
    ∀ row package, row ∈ db.historicalPackages → db.package row.name = some package →
      AgreesWith package row := by
  unfold conflicts
  rw [List.any_eq_false]
  constructor
  · intro h row package hrow hpackage
    have hno := h row hrow
    rw [hpackage] at hno
    simpa [AgreesWith] using hno
  · intro h row hrow
    cases hpackage : db.package row.name with
    | none => simp
    | some package =>
      have hagrees := h row package hrow hpackage
      simpa [AgreesWith] using hagrees

end Checks

/-! ## What is filled in -/

section Backfill
variable {db : Database} {rows : List PackageRow} {name : String} {row : PackageRow}

theorem foldl_claimPackage_find? : (rows.foldl claimPackage db).packages.find? name =
    (db.packages.find? name).or (rows.find? fun row => row.name = name) := by
  induction rows generalizing db with
  | nil => exact (Option.or_none).symm
  | cons row rest ih =>
    rw [List.foldl_cons, ih, claimPackage_find?]
    by_cases hname : row.name = name
    · rw [if_pos hname, List.find?_cons_of_pos (by simpa using hname)]
      cases db.packages.find? name <;> rfl
    · rw [if_neg hname, List.find?_cons_of_neg (by simpa using hname)]

theorem backfill_find? : (db.backfill rows).packages.find? name =
    (db.packages.find? name).or
      ((rows.mergeSort fun a b => a.createdAt ≤ b.createdAt).find? fun row => row.name = name) := by
  unfold backfill
  rw [foldl_claimPackage_find?, find?_keepFirst]

theorem mem_of_backfill (h : (db.backfill rows).packages.find? name = some row) :
    db.packages.find? name = some row ∨ row ∈ rows ∧ row.name = name := by
  rw [backfill_find?] at h
  rcases Option.or_eq_some_iff.mp h with hold | ⟨-, hnew⟩
  · exact Or.inl hold
  · have hname := List.find?_some hnew
    have hmem := List.mem_mergeSort.mp (List.mem_of_find?_eq_some hnew)
    exact Or.inr ⟨hmem, of_decide_eq_true hname⟩

theorem backfill_of_find? (h : db.packages.find? name = some row) :
    (db.backfill rows).packages.find? name = some row := by
  rw [backfill_find?, h]
  rfl

theorem backfill_some_of_mem (h : row ∈ rows) :
    ∃ package, (db.backfill rows).packages.find? row.name = some package := by
  rw [backfill_find?]
  cases db.packages.find? row.name with
  | some package => exact ⟨package, rfl⟩
  | none =>
    have hsome : ((rows.mergeSort fun a b => a.createdAt ≤ b.createdAt).find?
        fun other => other.name = row.name).isSome :=
      List.find?_isSome.mpr ⟨row, List.mem_mergeSort.mpr h, decide_eq_true rfl⟩
    exact Option.isSome_iff_exists.mp hsome

theorem claimPackage_of_some {package : PackageRow}
    (h : db.packages.find? row.name = some package) : db.claimPackage row = db := by
  unfold claimPackage
  rw [Table.insert?_of_some h]
  rfl

theorem backfill_of_some (h : ∀ row ∈ rows, ∃ package, db.packages.find? row.name = some package) :
    db.backfill rows = db := by
  have hkept : ∀ kept : List PackageRow, (∀ row ∈ kept, row ∈ rows) →
      kept.foldl claimPackage db = db := by
    intro kept
    induction kept with
    | nil => exact fun _ => rfl
    | cons row rest ih =>
      intro hsub
      obtain ⟨package, hpackage⟩ := h row (hsub row List.mem_cons_self)
      rw [List.foldl_cons, claimPackage_of_some hpackage]
      exact ih fun other hother => hsub other (List.mem_cons_of_mem _ hother)
  exact hkept _ fun row hrow => List.mem_mergeSort.mp (mem_of_mem_keepFirst hrow)

theorem backfill_eq : db.backfill rows = { db with packages := (db.backfill rows).packages } := by
  have hfold : ∀ (kept : List PackageRow) (db : Database), kept.foldl claimPackage db =
      { db with packages := (kept.foldl claimPackage db).packages } := by
    intro kept
    induction kept with
    | nil => exact fun _ => rfl
    | cons row rest ih => exact fun db => ih (db.claimPackage row)
  exact hfold _ db

end Backfill

/-! ## The migration -/

structure Migrated (db db' : Database) : Prop where
  others : db' = { db with packages := db'.packages }
  kept (name : String) (package : PackageRow) : db.package name = some package →
    db'.package name = some package
  owned : Owned db'

section Migrate
variable {db db' : Database}

theorem mem_historical_version {row : VersionRow} (h : row ∈ db.versions.rows) :
    (packageOfVersion row).historical ∈ db.historicalPackages :=
  List.mem_map_of_mem (List.mem_append_left _ (List.mem_map_of_mem h))

theorem mem_historical_stage {row : StageRow} (h : row ∈ db.stages.rows) :
    (packageOfStage row).historical ∈ db.historicalPackages :=
  List.mem_map_of_mem (List.mem_append_right _ (List.mem_map_of_mem h))

theorem mem_historicalPackages {row : HistoricalPackage} (h : row ∈ db.historicalPackages) :
    (∃ version ∈ db.versions.rows, (packageOfVersion version).historical = row) ∨
      ∃ stage ∈ db.stages.rows, (packageOfStage stage).historical = row := by
  obtain ⟨package, hmem, rfl⟩ := List.mem_map.mp h
  rcases List.mem_append.mp hmem with hversion | hstage
  · obtain ⟨version, hrow, rfl⟩ := List.mem_map.mp hversion
    exact Or.inl ⟨version, hrow, rfl⟩
  · obtain ⟨stage, hrow, rfl⟩ := List.mem_map.mp hstage
    exact Or.inr ⟨stage, hrow, rfl⟩

theorem migrate_eq_ok : db.migrate = .ok db' ↔ db.isAmbiguous = false ∧
    (db.backfill (db.versions.rows.map packageOfVersion)).conflicts = false ∧
      (db.backfill (db.versions.rows.map packageOfVersion)).backfill
        ((db.backfill (db.versions.rows.map packageOfVersion)).stages.rows.map packageOfStage) =
          db' := by
  unfold migrate
  dsimp only
  split_ifs with hambiguous hconflicts
  · simp [hambiguous]
  · simp [hconflicts]
  · simp [hambiguous, hconflicts]

theorem filled_historical {rows : List PackageRow} :
    (db.backfill rows).historicalPackages = db.historicalPackages := by
  rw [backfill_eq]
  rfl

theorem migrate_isOk_iff : (∃ db', db.migrate = .ok db') ↔ Coherent db := by
  constructor
  · rintro ⟨db', h⟩
    obtain ⟨hclear, hagreed, -⟩ := migrate_eq_ok.mp h
    refine ⟨isAmbiguous_eq_false.mp hclear, fun row package hrow hpackage => ?_⟩
    refine conflicts_eq_false.mp hagreed row package ?_ (backfill_of_find? hpackage)
    rwa [filled_historical]
  · intro h
    refine ⟨_, migrate_eq_ok.mpr ⟨isAmbiguous_eq_false.mpr h.rows, ?_, rfl⟩⟩
    refine conflicts_eq_false.mpr fun row package hrow hpackage => ?_
    rw [filled_historical] at hrow
    rcases mem_of_backfill hpackage with hold | ⟨hnew, hname⟩
    · exact h.packages row package hrow hold
    · obtain ⟨version, hversion, rfl⟩ := List.mem_map.mp hnew
      exact h.rows _ row (mem_historical_version hversion) hrow hname

theorem migrate_of_owned (h : Owned db) : db.migrate = .ok db := by
  have hversions : db.backfill (db.versions.rows.map packageOfVersion) = db := by
    refine backfill_of_some fun row hrow => ?_
    obtain ⟨version, hversion, rfl⟩ := List.mem_map.mp hrow
    obtain ⟨package, hpackage, -⟩ := h _ (mem_historical_version hversion)
    exact ⟨package, hpackage⟩
  have hstages : db.backfill (db.stages.rows.map packageOfStage) = db := by
    refine backfill_of_some fun row hrow => ?_
    obtain ⟨stage, hstage, rfl⟩ := List.mem_map.mp hrow
    obtain ⟨package, hpackage, -⟩ := h _ (mem_historical_stage hstage)
    exact ⟨package, hpackage⟩
  refine migrate_eq_ok.mpr ⟨isAmbiguous_eq_false.mpr fun row other hrow hother hname => ?_, ?_, ?_⟩
  · obtain ⟨package, hpackage, hrowAgrees⟩ := h row hrow
    obtain ⟨package', hpackage', hotherAgrees⟩ := h other hother
    rw [hname, hpackage'] at hpackage
    obtain rfl := Option.some.inj hpackage
    exact ⟨hrowAgrees.1.symm.trans hotherAgrees.1, hrowAgrees.2.symm.trans hotherAgrees.2⟩
  · rw [hversions]
    refine conflicts_eq_false.mpr fun row package hrow hpackage => ?_
    obtain ⟨package', hpackage', hagrees⟩ := h row hrow
    obtain rfl := Option.some.inj (hpackage'.symm.trans hpackage)
    exact hagrees
  · rw [hversions]
    exact hstages

theorem migrated_of_ok (h : db.migrate = .ok db') : Migrated db db' := by
  obtain ⟨hclear, hagreed, rfl⟩ := migrate_eq_ok.mp h
  have hrows := isAmbiguous_eq_false.mp hclear
  have hconflicts := conflicts_eq_false.mp hagreed
  rw [filled_historical] at hconflicts
  set filled := db.backfill (db.versions.rows.map packageOfVersion) with hfilled
  have hothers : filled = { db with packages := filled.packages } := backfill_eq
  have hstages : filled.stages = db.stages := by rw [hothers]
  refine ⟨?_, fun name package hpackage => backfill_of_find? (backfill_of_find? hpackage),
    fun row hrow => ?_⟩
  · rw [backfill_eq, hothers]
  · rw [filled_historical, hfilled, filled_historical] at hrow
    -- a version has a row by now, and a stage gets one
    obtain ⟨package, hpackage⟩ : ∃ package,
        (filled.backfill (filled.stages.rows.map packageOfStage)).package row.name =
          some package := by
      rcases mem_historicalPackages hrow with ⟨version, hversion, rfl⟩ | ⟨stage, hstage, rfl⟩
      · obtain ⟨package, hpackage⟩ := @backfill_some_of_mem db _ _ (List.mem_map_of_mem hversion)
        exact ⟨package, backfill_of_find? hpackage⟩
      · rw [← hstages] at hstage
        exact backfill_some_of_mem (List.mem_map_of_mem hstage)
    refine ⟨package, hpackage, ?_⟩
    rcases mem_of_backfill hpackage with hold | ⟨hnew, hname⟩
    · exact hconflicts row package hrow hold
    · obtain ⟨stage, hstage, rfl⟩ := List.mem_map.mp hnew
      rw [hstages] at hstage
      exact hrows _ row (mem_historical_stage hstage) hrow hname

end Migrate

/-- The migration succeeds exactly when all that is said of each package agrees. Then every version
and stage agrees with the row of its package, and nothing is left to do for the next start. Every
state that a registry can come to is one where it does nothing. -/
theorem migration_sound (db : Database) :
    ((∃ db', db.migrate = .ok db') ↔ Coherent db) ∧
    (∀ db', db.migrate = .ok db' → Migrated db db' ∧ db'.migrate = .ok db') ∧
    ∀ registry replicas calls, let s := run registry (.empty replicas) calls
      s.db.migrate = .ok s.db := by
  refine ⟨migrate_isOk_iff, fun db' h => ?_, fun registry replicas calls => ?_⟩
  · have hmigrated := migrated_of_ok h
    exact ⟨hmigrated, migrate_of_owned hmigrated.owned⟩
  · have hconsistent := run_consistent registry replicas calls
    set s := run registry (.empty replicas) calls
    have hstage (stage : StageRow) (hstage : stage ∈ s.db.stages.rows) : ∃ package,
        s.db.package stage.name = some package ∧
          AgreesWith package (packageOfStage stage).historical := by
      obtain ⟨package, hpackage, horganization, hprivate⟩ :=
        hconsistent.owned _ stage (Table.find?_key hstage)
      exact ⟨package, hpackage, horganization, hprivate⟩
    refine migrate_of_owned fun row hrow => ?_
    rcases mem_historicalPackages hrow with ⟨version, hversion, rfl⟩ | ⟨stage, hmem, rfl⟩
    · obtain ⟨id, stage, hfound, -, hfrom⟩ :=
        hconsistent.published _ version (Table.find?_key hversion)
      obtain ⟨package, hpackage, hagrees⟩ := hstage stage (Table.mem_of_find? hfound)
      refine ⟨package, ?_, hagrees.1.trans hfrom.organization.symm,
        hagrees.2.trans hfrom.isPrivate.symm⟩
      exact (congrArg s.db.package hfrom.name).trans hpackage
    · exact hstage stage hmem

end Oath.Registry
