import Oath.Cli.Session

/-! The checks of a lockfile: against the root manifest and against the lockfile of a new plan. Of two
lockfiles, optional packages that only one of them has are passed over, with the edges to them;
nothing else is. -/

namespace Oath.Cli
open Contracts Resolve

section Manifest
variable {Text : Type} (env : Environment Text)

def lockExists (directory : String) : Command Text Unit := fun s =>
  if (s.files (lockPath directory)).isSome then .ok () s
  else .error "no lockfile found, run oath install first" s

def matchManifest (lockfile : Lockfile) (pkg : Value) : Command Text Unit :=
  if lockfile.matchesManifest (extractDeps pkg "dependencies") (extractDeps pkg "devDependencies")
  then pure ()
  else throw "package.json does not match oath-lock.json, run oath install first"

/-- How `ci` begins: the lockfile and `package.json`, which must match. -/
def checkManifest (directory : String) : Command Text (Value × Lockfile) := do
  lockExists directory
  let pkg ← readPackageJson env.json directory
  let lockfile ← readLockfile env.json directory
  matchManifest lockfile pkg
  pure (pkg, lockfile)

theorem matchManifest_ok {lockfile : Lockfile} {pkg : Value} {s s' : Session Text} :
    matchManifest lockfile pkg s = .ok () s' ↔
      lockfile.matchesManifest (extractDeps pkg "dependencies")
        (extractDeps pkg "devDependencies") ∧ s' = s := by
  unfold matchManifest
  split_ifs with h <;> simp [h, EStateM.pure_eq_ok, EStateM.throw_ne_ok, eq_comm]

variable {env}

theorem checkManifest_ok {directory : String} {pkg : Value} {lockfile : Lockfile}
    {s s' : Session Text} : checkManifest env directory s = .ok (pkg, lockfile) s' ↔
      readPackageJson env.json directory s = .ok pkg s ∧
      readLockfile env.json directory s = .ok lockfile s ∧
      lockfile.matchesManifest (extractDeps pkg "dependencies")
        (extractDeps pkg "devDependencies") ∧ s' = s := by
  constructor
  · intro h
    obtain ⟨_, s₁, hexists, h1⟩ := EStateM.bind_eq_ok.mp h
    obtain ⟨pkg', s₂, hpkg, h2⟩ := EStateM.bind_eq_ok.mp h1
    obtain ⟨lockfile', s₃, hlock, h3⟩ := EStateM.bind_eq_ok.mp h2
    obtain ⟨_, s₄, hmatch, h4⟩ := EStateM.bind_eq_ok.mp h3
    have hs₁ : s₁ = s := by
      unfold lockExists at hexists
      split_ifs at hexists
      exact (EStateM.Result.ok.inj hexists).2.symm
    obtain ⟨-, rfl⟩ := readPackageJson_ok.mp hpkg
    obtain ⟨-, rfl⟩ := readLockfile_ok.mp hlock
    obtain ⟨hmatches, rfl⟩ := matchManifest_ok.mp hmatch
    obtain ⟨hresult, rfl⟩ := EStateM.Result.ok.inj h4
    obtain ⟨rfl, rfl⟩ := Prod.mk.inj hresult
    subst hs₁
    exact ⟨hpkg, hlock, hmatches, rfl⟩
  · rintro ⟨hpkg, hlock, hmatch, rfl⟩
    obtain ⟨⟨text, hfile, -⟩, -⟩ := readLockfile_ok.mp hlock
    have hexists : lockExists directory s' = .ok () s' := by simp [lockExists, hfile]
    refine EStateM.bind_eq_ok.mpr ⟨(), s', hexists, ?_⟩
    refine EStateM.bind_eq_ok.mpr ⟨pkg, s', hpkg, ?_⟩
    refine EStateM.bind_eq_ok.mpr ⟨lockfile, s', hlock, ?_⟩
    exact EStateM.bind_eq_ok.mpr ⟨(), s', matchManifest_ok.mpr ⟨hmatch, rfl⟩, rfl⟩

end Manifest

/-! ## Two lockfiles -/

/-- The package that only one of the lockfiles has at a location. -/
def oneSided (existing generated : Lockfile) (location : String) : Option LockEntry :=
  match existing.packages.find? location, generated.packages.find? location with
  | some entry, none => some entry
  | none, some entry => some entry
  | _, _ => none

/-- Locations of optional packages that only one of the lockfiles has, or nothing when such
a package is not optional. -/
def platformOnly (existing generated : Lockfile) : Option (List String) :=
  (existing.packages.keys ++ generated.packages.keys).foldr (fun location rest =>
    match oneSided existing generated location with
    | none => rest
    | some entry => if entry.optional then rest.map (location :: ·) else none) (some [])

def normalizeEntry (platformOnly : List String) (entry : LockEntry) : LockEntry :=
  { entry with
    dependencies := entry.dependencies.retain fun _ location => location ∉ platformOnly
    resolvedPeers := entry.resolvedPeers.retain fun _ location => location ∉ platformOnly
    -- derived again from the package itself
    name := none
    hasInstallScript := false }

def normalize (platformOnly : List String) (lockfile : Lockfile) : Lockfile :=
  { lockfile with
    roots := lockfile.roots.filter (· ∉ platformOnly)
    packages := (lockfile.packages.retain fun location _ => location ∉ platformOnly).map
      fun _ entry => normalizeEntry platformOnly entry }

instance (a b : Lockfile) : Decidable (a.toValue = b.toValue) :=
  decidable_of_iff (a = b) Lockfile.toValue_injective.eq_iff.symm

def lockfilesMatchForFrozen (existing generated : Lockfile) : Bool :=
  match platformOnly existing generated with
  | none => false
  | some locations =>
    (normalize locations existing).toValue = (normalize locations generated).toValue

/-! ## What a match says about each location -/

section Match
variable {existing generated : Lockfile}

theorem oneSided_mem {location : String} {entry : LockEntry}
    (h : oneSided existing generated location = some entry) :
    location ∈ existing.packages.keys ++ generated.packages.keys := by
  rw [List.mem_append, OrderedMap.mem_keys, OrderedMap.mem_keys]
  unfold oneSided at h
  cases hexisting : existing.packages.find? location with
  | some found => exact Or.inl rfl
  | none =>
    cases hgenerated : generated.packages.find? location with
    | some found => exact Or.inr rfl
    | none =>
      rw [hexisting, hgenerated] at h
      cases h

theorem platformOnly_some {locations : List String}
    (h : platformOnly existing generated = some locations) :
    (∀ location, location ∈ locations ↔ (oneSided existing generated location).isSome) ∧
      ∀ location entry, oneSided existing generated location = some entry → entry.optional := by
  have hkeys : ∀ keys : List String, ∀ locations,
      keys.foldr (fun location rest => match oneSided existing generated location with
        | none => rest
        | some entry => if entry.optional then rest.map (location :: ·) else none) (some []) =
          some locations →
      (∀ location, location ∈ locations ↔
        location ∈ keys ∧ (oneSided existing generated location).isSome) ∧
      ∀ location ∈ keys, ∀ entry, oneSided existing generated location = some entry →
        entry.optional := by
    intro keys
    induction keys with
    | nil =>
      intro locations hfold
      obtain rfl := Option.some.inj hfold
      simp
    | cons key rest ih =>
      intro locations hfold
      rw [List.foldr_cons] at hfold
      cases hkey : oneSided existing generated key with
      | none =>
        rw [hkey] at hfold
        obtain ⟨hmem, hoptional⟩ := ih locations hfold
        refine ⟨fun location => ?_, fun location hlocation entry hentry => ?_⟩
        · rw [hmem, List.mem_cons]
          constructor
          · exact fun ⟨hrest, hsome⟩ => ⟨Or.inr hrest, hsome⟩
          · rintro ⟨rfl | hrest, hsome⟩
            · rw [hkey] at hsome
              cases hsome
            · exact ⟨hrest, hsome⟩
        · rcases List.mem_cons.mp hlocation with rfl | hrest
          · rw [hkey] at hentry
            cases hentry
          · exact hoptional location hrest entry hentry
      | some entry =>
        rw [hkey] at hfold
        dsimp only at hfold
        split_ifs at hfold with hentry
        obtain ⟨locations', hrest, rfl⟩ := Option.map_eq_some_iff.mp hfold
        obtain ⟨hmem, hoptional⟩ := ih locations' hrest
        refine ⟨fun location => ?_, fun location hlocation other hother => ?_⟩
        · rw [List.mem_cons, hmem, List.mem_cons]
          constructor
          · rintro (rfl | ⟨hlater, hsome⟩)
            · exact ⟨Or.inl rfl, by rw [hkey]; rfl⟩
            · exact ⟨Or.inr hlater, hsome⟩
          · rintro ⟨rfl | hlater, hsome⟩
            · exact Or.inl rfl
            · exact Or.inr ⟨hlater, hsome⟩
        · rcases List.mem_cons.mp hlocation with rfl | hlater
          · rw [hkey] at hother
            exact Option.some.inj hother ▸ hentry
          · exact hoptional location hlater other hother
  obtain ⟨hmem, hoptional⟩ := hkeys _ locations h
  refine ⟨fun location => ?_, fun location entry hentry =>
    hoptional location (oneSided_mem hentry) entry hentry⟩
  rw [hmem, and_iff_right_iff_imp]
  intro hsome
  obtain ⟨entry, hentry⟩ := Option.isSome_iff_exists.mp hsome
  exact oneSided_mem hentry

theorem find?_normalize (locations : List String) (lockfile : Lockfile) (location : String) :
    (normalize locations lockfile).packages.find? location =
      if location ∈ locations then none
      else (lockfile.packages.find? location).map (normalizeEntry locations) := by
  unfold normalize
  rw [OrderedMap.find?_map, OrderedMap.find?_retain]
  cases lockfile.packages.find? location with
  | none => simp
  | some entry => by_cases hmem : location ∈ locations <;> simp [hmem, Option.filter]

/-- Matching lockfiles have the same packages but for optional ones that only one of them
has, and agree on what they say of a common package. -/
theorem lockfilesMatch_packages (h : lockfilesMatchForFrozen existing generated) :
    (∀ location entry, oneSided existing generated location = some entry → entry.optional) ∧
      ∃ locations, ∀ location entry entry', existing.packages.find? location = some entry →
        generated.packages.find? location = some entry' →
          normalizeEntry locations entry = normalizeEntry locations entry' := by
  unfold lockfilesMatchForFrozen at h
  cases hplatform : platformOnly existing generated with
  | none =>
    rw [hplatform] at h
    cases h
  | some locations =>
    rw [hplatform] at h
    obtain ⟨hmem, hoptional⟩ := platformOnly_some hplatform
    have hequal := Lockfile.toValue_injective (of_decide_eq_true h)
    refine ⟨hoptional, locations, fun location entry entry' hentry hentry' => ?_⟩
    have hcommon : location ∉ locations := by
      rw [hmem]
      unfold oneSided
      rw [hentry, hentry']
      simp
    have hfind := congrArg (fun lockfile => lockfile.packages.find? location) hequal
    simp only [find?_normalize, if_neg hcommon, hentry, hentry', Option.map_some] at hfind
    exact Option.some.inj hfind

/-- Matching lockfiles record the same dependencies of the root. -/
theorem lockfilesMatch_manifest (h : lockfilesMatchForFrozen existing generated) :
    existing.rootDependencies = generated.rootDependencies ∧
      existing.rootDevDependencies = generated.rootDevDependencies := by
  unfold lockfilesMatchForFrozen at h
  cases hplatform : platformOnly existing generated with
  | none =>
    rw [hplatform] at h
    cases h
  | some locations =>
    rw [hplatform] at h
    have hequal := Lockfile.toValue_injective (of_decide_eq_true h)
    have hdeps := congrArg Lockfile.rootDependencies hequal
    have hdev := congrArg Lockfile.rootDevDependencies hequal
    exact ⟨hdeps, hdev⟩

end Match

/-! ## The tolerated locations -/

section Tolerated
variable {existing generated : Lockfile}

theorem oneSided_comm (existing generated : Lockfile) (location : String) :
    oneSided existing generated location = oneSided generated existing location := by
  unfold oneSided
  cases existing.packages.find? location <;> cases generated.packages.find? location <;> rfl

theorem oneSided_self (lockfile : Lockfile) (location : String) :
    oneSided lockfile lockfile location = none := by
  unfold oneSided
  cases lockfile.packages.find? location <;> rfl

/-- The locations are gathered as soon as every one-sided package is optional. -/
theorem platformOnly_isSome (h : ∀ location entry,
    oneSided existing generated location = some entry → entry.optional = true) :
    ∃ locations, platformOnly existing generated = some locations := by
  unfold platformOnly
  induction existing.packages.keys ++ generated.packages.keys with
  | nil => exact ⟨[], rfl⟩
  | cons location rest ih =>
    obtain ⟨locations, hrest⟩ := ih
    rw [List.foldr_cons, hrest]
    cases hside : oneSided existing generated location with
    | none => exact ⟨locations, rfl⟩
    | some entry => exact ⟨location :: locations, if_pos (h location entry hside)⟩

theorem normalize_congr {locations locations' : List String}
    (h : ∀ location, location ∈ locations ↔ location ∈ locations') (lockfile : Lockfile) :
    normalize locations lockfile = normalize locations' lockfile := by
  unfold normalize normalizeEntry
  simp only [h]

end Tolerated

/-! ## The relation -/

/-- Only one of the lockfiles has the package, and it is optional there. -/
def OptionalOneSided (existing generated : Lockfile) (location : String) : Prop :=
  ∃ entry, oneSided existing generated location = some entry ∧ entry.optional = true

/-- The same edges, but for those to optional packages that only one lockfile has. -/
def SameEdges (existing generated : Lockfile) (edges edges' : OrderedMap String String) : Prop :=
  ∀ name location, ¬ OptionalOneSided existing generated location →
    (edges.find? name = some location ↔ edges'.find? name = some location)

/-- What is compared of a package that both lockfiles have. -/
structure SamePackage (existing generated : Lockfile) (entry entry' : LockEntry) : Prop where
  version : entry.version = entry'.version
  resolved : entry.resolved = entry'.resolved
  integrity : entry.integrity = entry'.integrity
  optional : entry.optional = entry'.optional
  dependencies : SameEdges existing generated entry.dependencies entry'.dependencies
  resolvedPeers : SameEdges existing generated entry.resolvedPeers entry'.resolvedPeers

/-- The comparison passes with these locations passed over. -/
theorem lockfilesMatch_iff {existing generated : Lockfile} :
    lockfilesMatchForFrozen existing generated = true ↔
      ∃ locations, platformOnly existing generated = some locations ∧
        normalize locations existing = normalize locations generated := by
  unfold lockfilesMatchForFrozen
  cases platformOnly existing generated with
  | none => simp
  | some locations => simp [Lockfile.toValue_injective.eq_iff]

theorem lockfilesMatch_refl (lockfile : Lockfile) :
    lockfilesMatchForFrozen lockfile lockfile = true := by
  have hoptional (location : String) (entry : LockEntry)
      (hside : oneSided lockfile lockfile location = some entry) : entry.optional = true := by
    rw [oneSided_self] at hside
    cases hside
  obtain ⟨locations, hlocations⟩ := platformOnly_isSome hoptional
  exact lockfilesMatch_iff.mpr ⟨locations, hlocations, rfl⟩

theorem lockfilesMatch_symm {existing generated : Lockfile}
    (h : lockfilesMatchForFrozen existing generated = true) :
    lockfilesMatchForFrozen generated existing = true := by
  obtain ⟨locations, hlocations, hsame⟩ := lockfilesMatch_iff.mp h
  obtain ⟨hmem, hoptional⟩ := platformOnly_some hlocations
  have hoptional' (location : String) (entry : LockEntry)
      (hside : oneSided generated existing location = some entry) : entry.optional = true := by
    rw [oneSided_comm] at hside
    exact hoptional location entry hside
  obtain ⟨locations', hlocations'⟩ := platformOnly_isSome hoptional'
  have hmem' (location : String) : location ∈ locations' ↔ location ∈ locations := by
    rw [(platformOnly_some hlocations').1, hmem, oneSided_comm]
  refine lockfilesMatch_iff.mpr ⟨locations', hlocations', ?_⟩
  rw [normalize_congr hmem', normalize_congr hmem']
  exact hsame.symm

section Match
variable {existing generated : Lockfile} {locations : List String}

theorem sameEdges_of_retain (hlocations : platformOnly existing generated = some locations)
    {edges edges' : OrderedMap String String}
    (h : (edges.retain fun _ location => location ∉ locations) =
      edges'.retain fun _ location => location ∉ locations) :
    SameEdges existing generated edges edges' := by
  obtain ⟨hmem, hoptional⟩ := platformOnly_some hlocations
  intro name location htolerated
  have hkept : location ∉ locations := by
    intro hlocation
    obtain ⟨entry, hentry⟩ := Option.isSome_iff_exists.mp ((hmem location).mp hlocation)
    exact htolerated ⟨entry, hentry, hoptional location entry hentry⟩
  have hfind := congrArg (fun m => m.find? name = some location) h
  simpa [OrderedMap.find?_retain, Option.filter_eq_some_iff, hkept] using hfind

/-- A required package of either lockfile is in both of them, and the two entries agree. -/
theorem lockfilesMatch_required (h : lockfilesMatchForFrozen existing generated = true)
    {location : String} {required : LockEntry}
    (hentry : existing.packages.find? location = some required ∨
      generated.packages.find? location = some required) (hrequired : required.optional = false) :
    ∃ entry entry', existing.packages.find? location = some entry ∧
      generated.packages.find? location = some entry' ∧
      SamePackage existing generated entry entry' := by
  obtain ⟨locations, hlocations, hsame⟩ := lockfilesMatch_iff.mp h
  obtain ⟨hmem, hoptional⟩ := platformOnly_some hlocations
  have honly (entry : LockEntry) (hside : oneSided existing generated location = some entry) :
      entry ≠ required := by
    intro hsame
    have htrue := hoptional location entry hside
    rw [hsame, hrequired] at htrue
    cases htrue
  cases hleft : existing.packages.find? location with
  | none =>
    cases hright : generated.packages.find? location with
    | none =>
      rw [hleft, hright] at hentry
      rcases hentry with hfalse | hfalse <;> cases hfalse
    | some entry' =>
      have hside : oneSided existing generated location = some entry' := by
        unfold oneSided
        rw [hleft, hright]
      rw [hleft, hright] at hentry
      rcases hentry with hfalse | hthis
      · cases hfalse
      · exact absurd (Option.some.inj hthis) (honly entry' hside)
  | some entry =>
    cases hright : generated.packages.find? location with
    | none =>
      have hside : oneSided existing generated location = some entry := by
        unfold oneSided
        rw [hleft, hright]
      rw [hleft, hright] at hentry
      rcases hentry with hthis | hfalse
      · exact absurd (Option.some.inj hthis) (honly entry hside)
      · cases hfalse
    | some entry' =>
      have hcommon : location ∉ locations := by
        rw [hmem]
        unfold oneSided
        rw [hleft, hright]
        simp
      have hfind := congrArg (fun lockfile => lockfile.packages.find? location) hsame
      simp only [find?_normalize, if_neg hcommon, hleft, hright, Option.map_some] at hfind
      have hnormal := Option.some.inj hfind
      have hfields := LockEntry.mk.inj hnormal
      refine ⟨entry, entry', rfl, rfl, ?_⟩
      constructor
      · exact hfields.2.1
      · exact hfields.2.2.1
      · exact hfields.2.2.2.1
      · exact hfields.2.2.2.2.2.2.1
      · exact sameEdges_of_retain hlocations hfields.2.2.2.2.1
      · exact sameEdges_of_retain hlocations hfields.2.2.2.2.2.2.2.2.2.2

end Match

/-- The frozen check: what matches has the same required packages with the same contents and
edges, and matching is reflexive and symmetric. -/
theorem frozen_check_sound :
    (∀ existing generated : Lockfile, lockfilesMatchForFrozen existing generated = true →
      ∀ location required, required.optional = false →
        (existing.packages.find? location = some required ∨
          generated.packages.find? location = some required) →
        ∃ entry entry', existing.packages.find? location = some entry ∧
          generated.packages.find? location = some entry' ∧
          SamePackage existing generated entry entry') ∧
    (∀ lockfile, lockfilesMatchForFrozen lockfile lockfile = true) ∧
    ∀ existing generated, lockfilesMatchForFrozen existing generated = true →
      lockfilesMatchForFrozen generated existing = true := by
  refine ⟨?_, lockfilesMatch_refl, fun existing generated h => lockfilesMatch_symm h⟩
  intro existing generated h location required hrequired hentry
  exact lockfilesMatch_required h hentry hrequired

end Oath.Cli
