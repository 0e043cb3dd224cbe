import Oath.Resolve.PeerResolution

/-! One registry whose maps come in two orders: a dependency finds the same package, as long as no
two versions of a packument are equal. -/

namespace Oath.Resolve
open Registry

/-! ## One content in two orders -/

structure VersionInfo.Same (info info' : VersionInfo) : Prop where
  dependencies : info.dependencies.rows.Perm info'.dependencies.rows
  optionalDependencies : info.optionalDependencies.rows.Perm info'.optionalDependencies.rows
  peerDependencies : info.peerDependencies.rows.Perm info'.peerDependencies.rows
  peerDependenciesMeta : info.peerDependenciesMeta.rows.Perm info'.peerDependenciesMeta.rows
  os : info'.os = info.os
  cpu : info'.cpu = info.cpu
  tarball : info'.tarball = info.tarball
  integrity : info'.integrity = info.integrity
  hasInstallScript : info'.hasInstallScript = info.hasInstallScript

structure Packument.Same (packument packument' : Packument) : Prop where
  name : packument'.name = packument.name
  distTags : packument.distTags.rows.Perm packument'.distTags.rows
  versions (version : String) : Option.Rel VersionInfo.Same (packument.versions.get? version)
    (packument'.versions.get? version)

structure Package.Same (package package' : Package) : Prop where
  name : package'.name = package.name
  version : package'.version = package.version
  resolved : package'.resolved = package.resolved
  integrity : package'.integrity = package.integrity
  dependencies : package.dependencies.rows.Perm package'.dependencies.rows
  optionalDependencies : package.optionalDependencies.rows.Perm package'.optionalDependencies.rows
  peerDependencies : package.peerDependencies.rows.Perm package'.peerDependencies.rows
  optionalPeers : package.optionalPeers.Perm package'.optionalPeers
  os : package'.os = package.os
  cpu : package'.cpu = package.cpu
  hasInstallScript : package'.hasInstallScript = package.hasInstallScript

section Content
variable {Version Range : Type}

structure Resolver.Same (r r' : Resolver Version Range) : Prop where
  semver : r'.semver = r.semver
  platform : r'.platform = r.platform
  options : r'.options = r.options
  registry (name : String) : Option.Rel Packument.Same (r.registry name) (r'.registry name)
  git (spec : String) : Option.Rel Package.Same (r.git spec) (r'.git spec)
  saveTarball (package package' : Package) : package.Same package' →
    r'.saveTarball package' = r.saveTarball package

/-- Versions that are told apart by their order. -/
def VersionsDistinct (semver : Semver Version Range) (packument : Packument) : Prop :=
  ∀ row ∈ packument.versions.rows, ∀ row' ∈ packument.versions.rows, ∀ version,
    semver.parseVersion row.1 = some version → semver.parseVersion row'.1 = some version →
      row.1 = row'.1

def DistinctVersions (r : Resolver Version Range) : Prop :=
  ∀ name packument, r.registry name = some packument → VersionsDistinct r.semver packument

end Content

/-! ## Rows -/

section Options
variable {α β γ δ : Type} {relation : α → β → Prop} {a : Option α} {b : Option β}

theorem rel_cases (h : Option.Rel relation a b) :
    (a = none ∧ b = none) ∨ ∃ x y, a = some x ∧ b = some y ∧ relation x y := by
  cases h with
  | none => exact Or.inl ⟨rfl, rfl⟩
  | some hrel => exact Or.inr ⟨_, _, rfl, rfl, hrel⟩

theorem rel_flip {back : β → α → Prop} (hflip : ∀ x y, relation x y → back y x)
    (h : Option.Rel relation a b) : Option.Rel back b a := by
  cases h with
  | none => exact .none
  | some hrel => exact .some (hflip _ _ hrel)

theorem rel_map {image : γ → δ → Prop} {f : α → γ} {g : β → δ}
    (himage : ∀ x y, relation x y → image (f x) (g y)) (h : Option.Rel relation a b) :
    Option.Rel image (a.map f) (b.map g) := by
  cases h with
  | none => exact .none
  | some hrel => exact .some (himage _ _ hrel)

theorem rel_or {c : Option α} {d : Option β} (hab : Option.Rel relation a b)
    (hcd : Option.Rel relation c d) : Option.Rel relation (a.or c) (b.or d) := by
  cases hab with
  | none => exact hcd
  | some hrel => exact .some hrel

end Options

section Rows
variable {Value : Type} {rows rows' : Rows Value} {key : String} {value : Value}

theorem Rows.get?_eq_some : rows.get? key = some value ↔ (key, value) ∈ rows.rows := by
  unfold Rows.get?
  rw [Option.map_eq_some_iff]
  constructor
  · rintro ⟨row, hrow, rfl⟩
    rw [← Table.key_of_find? hrow]
    exact Table.mem_of_find? hrow
  · intro hmem
    exact ⟨(key, value), Table.find?_key hmem, rfl⟩

theorem Rows.get?_perm (h : rows.rows.Perm rows'.rows) (key : String) :
    rows'.get? key = rows.get? key := by
  apply Option.ext
  intro value
  rw [Rows.get?_eq_some, Rows.get?_eq_some, h.mem_iff]

end Rows

/-! ## The highest version -/

section Highest

variable {Version Range : Type} [LinearOrder Version] {semver : Semver Version Range}
  {packument packument' : Packument} {range : Range}

/-- A version that the range admits. -/
structure Admits (semver : Semver Version Range) (packument : Packument) (range : Range)
    (row : String × VersionInfo) (version : Version) : Prop where
  mem : packument.versions.get? row.1 = some row.2
  parsed : semver.parseVersion row.1 = some version
  satisfies : semver.satisfies range version = true

def versionCandidates (semver : Semver Version Range) (packument : Packument) (range : Range) :
    List ((String × VersionInfo) × Version) :=
  packument.versions.rows.filterMap fun row =>
    match semver.parseVersion row.1 with
    | some version => if semver.satisfies range version then some (row, version) else none
    | none => none

omit [LinearOrder Version] in
theorem mem_versionCandidates {candidate : (String × VersionInfo) × Version} :
    candidate ∈ versionCandidates semver packument range ↔
      Admits semver packument range candidate.1 candidate.2 := by
  unfold versionCandidates
  rw [List.mem_filterMap]
  constructor
  · rintro ⟨row, hrow, hcandidate⟩
    split at hcandidate
    · next version hparsed =>
      split_ifs at hcandidate with hsatisfies
      obtain rfl := Option.some.inj hcandidate
      exact ⟨Rows.get?_eq_some.mpr hrow, hparsed, hsatisfies⟩
    · cases hcandidate
  · rintro ⟨hmem, hparsed, hsatisfies⟩
    refine ⟨candidate.1, Rows.get?_eq_some.mp hmem, ?_⟩
    rw [hparsed]
    dsimp only
    rw [if_pos hsatisfies]

theorem highestVersion_eq_some (hdistinct : VersionsDistinct semver packument)
    {row : String × VersionInfo} :
    highestVersion semver packument range = some row ↔ ∃ version,
      Admits semver packument range row version ∧
        ∀ other version', Admits semver packument range other version' → version' ≤ version := by
  have hinjective : ∀ a ∈ versionCandidates semver packument range,
      ∀ b ∈ versionCandidates semver packument range, a.2 = b.2 → a = b := by
    intro a ha b hb heq
    have hadmits := mem_versionCandidates.mp ha
    have hadmits' := mem_versionCandidates.mp hb
    have hkey : a.1.1 = b.1.1 := hdistinct _ (Rows.get?_eq_some.mp hadmits.mem) _
      (Rows.get?_eq_some.mp hadmits'.mem) a.2 hadmits.parsed (heq ▸ hadmits'.parsed)
    have hinfo := hadmits.mem
    rw [hkey, hadmits'.mem] at hinfo
    exact Prod.ext (Prod.ext hkey (Option.some.inj hinfo).symm) heq
  have hunfold : highestVersion semver packument range =
      (((versionCandidates semver packument range).mergeSort fun a b => a.2 ≤ b.2).getLast?).map
        Prod.fst := rfl
  rw [hunfold, Option.map_eq_some_iff]
  constructor
  · rintro ⟨top, htop, rfl⟩
    obtain ⟨hmem, hall⟩ := (getLast?_mergeSort_by hinjective).mp htop
    refine ⟨top.2, mem_versionCandidates.mp hmem, fun other version' hother => ?_⟩
    exact hall (other, version') (mem_versionCandidates.mpr hother)
  · rintro ⟨version, hadmits, hall⟩
    refine ⟨(row, version), (getLast?_mergeSort_by hinjective).mpr ⟨?_, ?_⟩, rfl⟩
    · exact mem_versionCandidates.mpr hadmits
    · intro item hitem
      exact hall item.1 item.2 (mem_versionCandidates.mp hitem)

omit [LinearOrder Version] in
theorem Admits.transfer (hsame : packument.Same packument') {row : String × VersionInfo}
    {version : Version} (h : Admits semver packument range row version) :
    ∃ info, row.2.Same info ∧ Admits semver packument' range (row.1, info) version := by
  rcases rel_cases (hsame.versions row.1) with ⟨hnone, -⟩ | ⟨listed, info, hlisted, hinfo, hrel⟩
  · cases h.mem.symm.trans hnone
  · obtain rfl := Option.some.inj (h.mem.symm.trans hlisted)
    exact ⟨info, hrel, hinfo, h.parsed, h.satisfies⟩

theorem VersionInfo.Same.symm {info info' : VersionInfo} (h : info.Same info') :
    info'.Same info where
  dependencies := h.dependencies.symm
  optionalDependencies := h.optionalDependencies.symm
  peerDependencies := h.peerDependencies.symm
  peerDependenciesMeta := h.peerDependenciesMeta.symm
  os := h.os.symm
  cpu := h.cpu.symm
  tarball := h.tarball.symm
  integrity := h.integrity.symm
  hasInstallScript := h.hasInstallScript.symm

theorem Packument.Same.symm (h : packument.Same packument') : packument'.Same packument where
  name := h.name.symm
  distTags := h.distTags.symm
  versions version := rel_flip (fun _ _ hinfo => hinfo.symm) (h.versions version)

omit [LinearOrder Version] in
theorem VersionsDistinct.transfer (hsame : packument.Same packument')
    (h : VersionsDistinct semver packument) : VersionsDistinct semver packument' := by
  have hback : ∀ row ∈ packument'.versions.rows, ∃ info,
      (row.1, info) ∈ packument.versions.rows := by
    intro row hrow
    rcases rel_cases (hsame.versions row.1) with ⟨-, hnone⟩ | ⟨info, -, hinfo, -⟩
    · cases (Rows.get?_eq_some.mpr hrow).symm.trans hnone
    · exact ⟨info, Rows.get?_eq_some.mp hinfo⟩
  intro row hrow row' hrow' version hparsed hparsed'
  obtain ⟨info, hinfo⟩ := hback row hrow
  obtain ⟨info', hinfo'⟩ := hback row' hrow'
  exact h (row.1, info) hinfo (row'.1, info') hinfo' version hparsed hparsed'

/-- A version and what is listed for it. -/
def SameRow (row row' : String × VersionInfo) : Prop := row'.1 = row.1 ∧ row.2.Same row'.2

theorem highestVersion_transfer (hdistinct : VersionsDistinct semver packument)
    (hsame : packument.Same packument') {row : String × VersionInfo}
    (h : highestVersion semver packument range = some row) :
    ∃ row', highestVersion semver packument' range = some row' ∧ SameRow row row' := by
  obtain ⟨version, hadmits, hall⟩ := (highestVersion_eq_some hdistinct).mp h
  obtain ⟨info, hinfo, hadmits'⟩ := hadmits.transfer hsame
  refine ⟨(row.1, info), (highestVersion_eq_some (hdistinct.transfer hsame)).mpr
    ⟨version, hadmits', fun other version' hother => ?_⟩, rfl, hinfo⟩
  obtain ⟨back, -, hback⟩ := hother.transfer hsame.symm
  exact hall _ _ hback

theorem highestVersion_same (hdistinct : VersionsDistinct semver packument)
    (hsame : packument.Same packument') :
    Option.Rel SameRow (highestVersion semver packument range)
      (highestVersion semver packument' range) := by
  cases hrow : highestVersion semver packument range with
  | some row =>
    obtain ⟨row', hrow', hsameRow⟩ := highestVersion_transfer hdistinct hsame hrow
    rw [hrow']
    exact .some hsameRow
  | none =>
    cases hrow' : highestVersion semver packument' range with
    | none => exact .none
    | some row' =>
      obtain ⟨row, hback, -⟩ :=
        highestVersion_transfer (hdistinct.transfer hsame) hsame.symm hrow'
      rw [hrow] at hback
      cases hback

end Highest

/-! ## Packages -/

section Packages
variable {Version Range : Type} [LinearOrder Version] {r r' : Resolver Version Range}
  {packument packument' : Packument} {pending : PendingDep}

theorem versions_same (hsame : packument.Same packument') (version : String) :
    Option.Rel SameRow
      ((packument.versions.get? version).map fun info => (version, info))
      ((packument'.versions.get? version).map fun info => (version, info)) := by
  exact rel_map (fun _ _ hinfo => ⟨rfl, hinfo⟩) (hsame.versions version)

theorem resolveVersion_same (hdistinct : VersionsDistinct r.semver packument)
    (hsame : packument.Same packument') (specifier : String) :
    Option.Rel SameRow (resolveVersion r.semver packument specifier)
      (resolveVersion r.semver packument' specifier) := by
  unfold resolveVersion
  refine rel_or (rel_or ?_ (versions_same hsame _)) ?_
  · rw [Rows.get?_perm hsame.distTags]
    cases packument.distTags.get? (versionSpec specifier) with
    | none => exact .none
    | some version => exact versions_same hsame version
  · cases r.semver.parseRange (versionSpec specifier) with
    | none => exact .none
    | some range => exact highestVersion_same hdistinct hsame

/-- The same package, or the same error. -/
inductive SameFound : Except String Package → Except String Package → Prop
  | ok (package package' : Package) : package.Same package' → SameFound (.ok package) (.ok package')
  | error (message : String) : SameFound (.error message) (.error message)

theorem packageOf_same {name : String} {row row' : String × VersionInfo} (h : SameRow row row') :
    (packageOf name row.1 row.2).Same (packageOf name row'.1 row'.2) where
  name := rfl
  version := h.1
  resolved := h.2.tarball
  integrity := h.2.integrity
  dependencies := h.2.dependencies
  optionalDependencies := h.2.optionalDependencies
  peerDependencies := h.2.peerDependencies
  optionalPeers := (h.2.peerDependenciesMeta.filter Prod.snd).map Prod.fst
  os := h.2.os
  cpu := h.2.cpu
  hasInstallScript := h.2.hasInstallScript

/-- The order of the rows does not change what a dependency finds. -/
theorem findPackage_same (hsame : r.Same r') (hdistinct : DistinctVersions r)
    (pending : PendingDep) : SameFound (findPackage r pending) (findPackage r' pending) := by
  unfold findPackage
  split_ifs
  · rcases rel_cases (hsame.git pending.specifier) with
      ⟨hnone, hnone'⟩ | ⟨package, package', hfound, hfound', hrel⟩
    · rw [hnone, hnone']
      exact .error _
    · rw [hfound, hfound']
      exact .ok _ _ hrel
  · rcases rel_cases (hsame.registry pending.name) with
      ⟨hnone, hnone'⟩ | ⟨packument, packument', hfound, hfound', hrel⟩
    · rw [hnone, hnone']
      exact .error _
    · have hversions := resolveVersion_same (hdistinct _ _ hfound) hrel pending.specifier
      rw [hfound, hfound', hsame.semver]
      dsimp only
      rcases rel_cases hversions with ⟨hno, hno'⟩ | ⟨row, row', hrow, hrow', hsameRow⟩
      · rw [hno, hno']
        exact .error _
      · rw [hrow, hrow']
        exact .ok _ _ (packageOf_same hsameRow)

end Packages

end Oath.Resolve
