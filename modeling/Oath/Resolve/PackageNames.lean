import Mathlib.Data.Bool.AllAny
import Oath.Resolve.LockfileRoundTrip

/-! Which package names are read back from a lock entry without one: from the key of a location,
from the key of a name and a version, and from the address of a tarball in a registry. -/

namespace Oath.Resolve

/-! ## Names -/

/-- A character that a URL keeps as it is. -/
def UrlSafe (c : Char) : Prop := c.isAlphanum ∨ c ∈ "-_.!~*'()".toList

instance (c : Char) : Decidable (UrlSafe c) := inferInstanceAs (Decidable (_ ∨ _))

structure IsNamePart (part : List Char) : Prop where
  ne_nil : part ≠ []
  safe (c : Char) : c ∈ part → UrlSafe c

theorem isNamePart_of_all {part : List Char} (hne : part ≠ [])
    (h : part.all fun c => decide (UrlSafe c)) : IsNamePart part :=
  ⟨hne, fun _ => List.all_iff_forall_prop.mp h _⟩

/-- The name of an npm package. -/
inductive IsPackageName : List Char → Prop
  | plain {part : List Char} (hpart : IsNamePart part) : IsPackageName part
  | inScope {scope part : List Char} (hscope : IsNamePart scope) (hpart : IsNamePart part) :
      IsPackageName ('@' :: (scope ++ '/' :: part))

/-- A name as it stands in an address, where the slash of a scope may be encoded. -/
inductive WrittenAs : List Char → List Char → Prop
  | plain {part : List Char} (hpart : IsNamePart part) : WrittenAs part part
  | inScope {scope part : List Char} (hscope : IsNamePart scope) (hpart : IsNamePart part) :
      WrittenAs ('@' :: (scope ++ '/' :: part)) ('@' :: (scope ++ '/' :: part))
  | encoded {scope part : List Char} {c : Char} (hscope : IsNamePart scope)
      (hpart : IsNamePart part) (hc : c = 'f' ∨ c = 'F') :
      WrittenAs ('@' :: (scope ++ '/' :: part)) ('@' :: (scope ++ ['%', '2', c] ++ part))

/-- The address of a tarball: a registry, a name and a file, then a query or a fragment. -/
structure TarballParts where
  registry : List Char
  encoded : List Char
  file : List Char
  tail : List Char

namespace TarballParts

def address (parts : TarballParts) : List Char := parts.registry ++ '/' :: parts.encoded

def text (parts : TarballParts) : List Char :=
  parts.address ++ ['/', '-', '/'] ++ parts.file ++ parts.tail

structure Of (parts : TarballParts) (name : List Char) : Prop where
  registry : '?' ∉ parts.registry ∧ '#' ∉ parts.registry
  encoded : WrittenAs name parts.encoded
  file : '?' ∉ parts.file ∧ '#' ∉ parts.file
  tail (c : Char) : parts.tail.head? = some c → c = '?' ∨ c = '#'

end TarballParts

/-! ## Where a name stands -/

/-- The key of a location, the key of a name and a version, or the address of a tarball. -/
inductive NameSource
  | location (front : List Char)
  | canonical (version : List Char)
  | tarball (parts : TarballParts)

namespace NameSource

/-- The entry has the name from there. Locations are nested in any way, a version has neither of the
marks of a name, and with both of them the address may be any. -/
def Gives (resolved : String) (key name : List Char) : NameSource → Prop
  | location front => (front = [] ∨ ∃ base, front = base ++ ['/']) ∧
      key = front ++ "node_modules/".toList ++ name
  | canonical version => '@' ∉ version ∧ '/' ∉ version ∧ key = name ++ '@' :: version
  | tarball parts => parts.Of name ∧ resolved.toList = parts.text

/-- The name is read right. An address with the mark of a tarball is read before the key; where it
has none, no scoped name comes back from a location, and none whose scope ends in `node_modules`
from a name and a version. In the address of a tarball the mark must not be there earlier, and the
registry must not end in a scope in front of a name without one. -/
def Right (resolved : String) (name : List Char) : NameSource → Prop
  | location _ => match Pieces.before ['/', '-', '/'] (addressPath resolved) with
    | some address => AddressNames address name
    | none => '/' ∉ name
  | canonical _ => match Pieces.before ['/', '-', '/'] (addressPath resolved) with
    | some address => AddressNames address name
    | none => ¬"node_modules/".toList <:+: name
  | tarball parts => match Pieces.before ['/', '-', '/'] (parts.address ++ ['/', '-']) with
    | some address => AddressNames address name
    | none => '/' ∈ name ∨ ¬EndsInScope ('/' :: parts.registry)

end NameSource

section Names
variable {name part scope : List Char}

theorem IsNamePart.notMem (h : IsNamePart part) {c : Char} (hc : ¬UrlSafe c) : c ∉ part :=
  fun hmem => hc (h.safe c hmem)

theorem slash_unsafe : ¬UrlSafe '/' := by decide

theorem percent_unsafe : ¬UrlSafe '%' := by decide

theorem decodeSlashes_part (h : IsNamePart part) : decodeSlashes part = part := by
  have hpercent := h.notMem percent_unsafe
  rw [decodeSlashes, Replace.replaceAll_of_notMem hpercent, Replace.replaceAll_of_notMem hpercent]

theorem percent_notMem_scoped (hscope : IsNamePart scope) (hpart : IsNamePart part) :
    '%' ∉ '@' :: (scope ++ '/' :: part) := by
  rw [List.mem_cons, List.mem_append, List.mem_cons, not_or, not_or, not_or]
  exact ⟨by decide, hscope.notMem percent_unsafe, by decide, hpart.notMem percent_unsafe⟩

/-- An encoded slash is a slash again. -/
theorem decodeSlashes_encoded (hscope : IsNamePart scope) (hpart : IsNamePart part) {c : Char}
    (hc : c = 'f' ∨ c = 'F') :
    decodeSlashes ('@' :: (scope ++ ['%', '2', c] ++ part)) = '@' :: (scope ++ '/' :: part) := by
  have hfront : '%' ∉ '@' :: scope :=
    List.not_mem_cons_of_ne_of_not_mem (by decide) (hscope.notMem percent_unsafe)
  have hwhole := percent_notMem_scoped hscope hpart
  have htext : '@' :: (scope ++ ['%', '2', c] ++ part) =
      '@' :: scope ++ (['%', '2', c] ++ part) := by simp
  rw [decodeSlashes, htext, Replace.replaceAll_append hfront]
  rcases hc with rfl | rfl
  · rw [Replace.replaceAll_prefix (List.cons_ne_nil _ _),
      Replace.replaceAll_of_notMem (hpart.notMem percent_unsafe)]
    exact Replace.replaceAll_of_notMem hwhole
  · have hnot : ¬['%', '2', 'f'] <+: '%' :: '2' :: 'F' :: part := by
      intro hstarts
      have hletters := List.prefix_of_prefix_length_le hstarts
        (List.prefix_append ['%', '2', 'F'] part) (le_refl 3)
      exact absurd hletters (by decide)
    have hrest : '%' ∉ '2' :: 'F' :: part :=
      List.not_mem_cons_of_ne_of_not_mem (by decide)
        (List.not_mem_cons_of_ne_of_not_mem (by decide) (hpart.notMem percent_unsafe))
    have hkept : Replace.replaceAll ['%', '2', 'f'] ['/'] (['%', '2', 'F'] ++ part) =
        ['%', '2', 'F'] ++ part := by
      refine (Replace.replaceAll_cons hnot).trans ?_
      rw [Replace.replaceAll_of_notMem hrest]
      rfl
    rw [hkept, Replace.replaceAll_append hfront, Replace.replaceAll_prefix (List.cons_ne_nil _ _),
      Replace.replaceAll_of_notMem (hpart.notMem percent_unsafe)]
    rfl

end Names

/-! ## In an address -/

section Address
variable {name encoded : List Char} {parts : TarballParts}

theorem WrittenAs.notMem (h : WrittenAs name encoded) {c : Char} (hc : ¬UrlSafe c)
    (hmark : c ≠ '@') (hslash : c ≠ '/') (hpercent : c ≠ '%') : c ∉ encoded := by
  have hdigit : c ≠ '2' := fun heq => hc (heq ▸ by decide)
  have hlower : c ≠ 'f' := fun heq => hc (heq ▸ by decide)
  have hupper : c ≠ 'F' := fun heq => hc (heq ▸ by decide)
  cases h with
  | plain hpart => exact hpart.notMem hc
  | inScope hscope hpart => simp [hmark, hslash, hscope.notMem hc, hpart.notMem hc]
  | encoded hscope hpart hletter =>
    rcases hletter with rfl | rfl
    · simp [hmark, hpercent, hdigit, hlower, hscope.notMem hc, hpart.notMem hc]
    · simp [hmark, hpercent, hdigit, hupper, hscope.notMem hc, hpart.notMem hc]

theorem addressPath_text (h : parts.Of name) {resolved : String}
    (hresolved : resolved.toList = parts.text) :
    addressPath resolved = parts.address ++ (['/', '-', '/'] ++ parts.file) := by
  have hquery : '?' ∉ parts.encoded :=
    h.encoded.notMem (by decide) (by decide) (by decide) (by decide)
  have hfragment : '#' ∉ parts.encoded :=
    h.encoded.notMem (by decide) (by decide) (by decide) (by decide)
  have hin : ∀ c ∈ parts.address ++ (['/', '-', '/'] ++ parts.file),
      decide (c ≠ '?' ∧ c ≠ '#') = true := by
    have hnot : '?' ∉ parts.address ++ (['/', '-', '/'] ++ parts.file) ∧
        '#' ∉ parts.address ++ (['/', '-', '/'] ++ parts.file) := by
      simp [TarballParts.address, h.registry.1, h.registry.2, h.file.1, h.file.2, hquery,
        hfragment]
    intro c hc
    refine decide_eq_true ⟨fun heq => hnot.1 (heq ▸ hc), fun heq => hnot.2 (heq ▸ hc)⟩
  have htail : parts.tail.takeWhile (fun c => decide (c ≠ '?' ∧ c ≠ '#')) = [] := by
    cases htail : parts.tail with
    | nil => rfl
    | cons c rest =>
      have hc := h.tail c (by rw [htail]; rfl)
      rw [List.takeWhile_cons_of_neg]
      rcases hc with rfl | rfl <;> decide
  rw [addressPath, hresolved, TarballParts.text, List.append_assoc parts.address,
    List.takeWhile_append_of_pos hin, htail, List.append_nil]

theorem not_scoped_part {part : List Char} (hpart : IsNamePart part) : ¬Scoped part :=
  fun hscoped => hpart.notMem slash_unsafe hscoped.2

/-- A name without a scope is not read as one only where the registry does not end in a scope. -/
theorem addressNames_part {part : List Char} (hpart : IsNamePart part) (registry : List Char) :
    AddressNames (registry ++ '/' :: part) part ↔ ¬EndsInScope ('/' :: registry) := by
  have hslash := hpart.notMem slash_unsafe
  have hsplit : '/' :: (registry ++ '/' :: part) = '/' :: registry ++ '/' :: part := rfl
  rw [← addressName_eq_iff, endsInScope_iff hsplit hslash]
  unfold addressName
  dsimp only
  rw [Pieces.lastPiece_append hslash, decodeSlashes_part hpart, if_neg (not_scoped_part hpart)]
  split_ifs with hhead
  · refine iff_of_false (fun heq => ?_) (not_not.mpr hhead)
    have hlength := congrArg List.length heq
    rw [List.length_append, List.length_cons] at hlength
    omega
  · exact iff_of_true rfl hhead

/-- What stands before the mark of the tarball names the package. -/
theorem addressNames_address (h : parts.Of name) :
    AddressNames parts.address name ↔ '/' ∈ name ∨ ¬EndsInScope ('/' :: parts.registry) := by
  obtain ⟨registry, encoded, file, tail⟩ := parts
  have hscoped : ∀ {scope part : List Char}, '/' ∈ '@' :: (scope ++ '/' :: part) :=
    List.mem_cons_of_mem _ (List.mem_append_right _ List.mem_cons_self)
  cases h.encoded with
  | plain hpart =>
    rw [or_iff_right (hpart.notMem slash_unsafe)]
    exact addressNames_part hpart registry
  | @inScope scope part hscope hpart =>
    have hplain : ¬Scoped (decodeSlashes part) := by
      rw [decodeSlashes_part hpart]
      exact not_scoped_part hpart
    have haddress : '/' :: (registry ++ '/' :: '@' :: (scope ++ '/' :: part)) =
        '/' :: registry ++ '/' :: '@' :: scope ++ '/' :: part := by simp
    have hnames : AddressNames (registry ++ '/' :: '@' :: (scope ++ '/' :: part))
        ('@' :: scope ++ '/' :: decodeSlashes part) :=
      .inScope haddress (hscope.notMem slash_unsafe) (hpart.notMem slash_unsafe) hplain
    rw [decodeSlashes_part hpart] at hnames
    exact iff_of_true hnames (Or.inl hscoped)
  | @encoded scope part c hscope hpart hc =>
    have hdecoded := decodeSlashes_encoded hscope hpart hc
    have hslash : '/' ∉ '@' :: (scope ++ ['%', '2', c] ++ part) := by
      have hletter : c ≠ '/' := by
        rcases hc with rfl | rfl <;> decide
      simp [hscope.notMem slash_unsafe, hpart.notMem slash_unsafe, Ne.symm hletter]
    have hsplit : '/' :: (registry ++ '/' :: '@' :: (scope ++ ['%', '2', c] ++ part)) =
        '/' :: registry ++ '/' :: '@' :: (scope ++ ['%', '2', c] ++ part) := rfl
    have hnames : AddressNames (registry ++ '/' :: '@' :: (scope ++ ['%', '2', c] ++ part))
        (decodeSlashes ('@' :: (scope ++ ['%', '2', c] ++ part))) :=
      .encoded hsplit hslash (by rw [hdecoded]; exact ⟨rfl, hscoped⟩)
    rw [hdecoded] at hnames
    exact iff_of_true hnames (Or.inl hscoped)

end Address

/-! ## In a key -/

section Keys
variable {name part scope version : List Char}

theorem nodeModules_eq : "node_modules/".toList = "node_modules".toList ++ ['/'] := by decide

/-- A scoped name is not read where only its last part is left, and loses its last character where
all of it is. -/
theorem not_moduleNames {rest : List Char} (hname : '/' ∈ name) (h : rest = name ∨ '/' ∉ rest) :
    ¬ModuleNames rest name := by
  intro hnames
  cases hnames with
  | piece _ hpiece => exact hpiece hname
  | inScope hrest =>
    rcases h with hwhole | hpart
    · have hlength := congrArg List.length (hwhole.symm.trans hrest)
      rw [List.length_append, List.length_cons] at hlength
      omega
    · rw [hrest] at hpart
      exact hpart (List.mem_append_left _ hname)

/-- The name of a location comes back exactly when it has no scope. -/
theorem lockKeyPackageName_location (hname : IsPackageName name) (front : List Char) :
    lockKeyPackageName (front ++ "node_modules/".toList ++ name) = some name ↔ '/' ∉ name := by
  have hends : "node_modules".toList <:+ front ++ "node_modules".toList := List.suffix_append _ _
  have hkey : ∀ rest, front ++ "node_modules/".toList ++ rest =
      front ++ "node_modules".toList ++ '/' :: rest := by
    intro rest
    rw [nodeModules_eq, ← List.append_assoc, List.append_assoc _ ['/'], List.singleton_append]
  unfold lockKeyPackageName
  cases hname with
  | plain hpart =>
    have hslash := hpart.notMem slash_unsafe
    rw [hkey, nodeModules_eq, Pieces.after_append_cons hslash, if_pos hends]
    refine iff_of_true (moduleName_eq_iff.mpr ?_) hslash
    exact .piece (List.append_nil name).symm hslash (fun _ h => by cases h) fun _ => rfl
  | @inScope scope part hscope hpart =>
    have hmem : '/' ∈ '@' :: (scope ++ '/' :: part) :=
      List.mem_cons_of_mem _ (List.mem_append_right _ List.mem_cons_self)
    have hscope' : '/' ∉ '@' :: scope :=
      List.not_mem_cons_of_ne_of_not_mem (by decide) (hscope.notMem slash_unsafe)
    have hsplit : front ++ "node_modules".toList ++ '/' :: ('@' :: (scope ++ '/' :: part)) =
        front ++ "node_modules".toList ++ '/' :: '@' :: scope ++ '/' :: part := by simp
    have hrest : ∃ rest, Pieces.after ("node_modules".toList ++ ['/'])
        (front ++ "node_modules".toList ++ '/' :: '@' :: scope ++ '/' :: part) = some rest ∧
          (rest = '@' :: (scope ++ '/' :: part) ∨ '/' ∉ rest) := by
      rw [Pieces.after_append_cons (hpart.notMem slash_unsafe),
        Pieces.after_append_cons hscope', if_pos hends]
      split_ifs
      · exact ⟨part, rfl, Or.inr (hpart.notMem slash_unsafe)⟩
      · exact ⟨_, rfl, Or.inl rfl⟩
    obtain ⟨rest, hafter, hcases⟩ := hrest
    rw [hkey, hsplit, nodeModules_eq, hafter]
    refine iff_of_false (fun hread => ?_) (not_not.mpr hmem)
    exact not_moduleNames hmem hcases (moduleName_eq_iff.mp hread)

/-- The name in front of a version comes back unless its scope ends like a directory of modules. -/
theorem lockKeyPackageName_canonical (hname : IsPackageName name) (hmark : '@' ∉ version)
    (hslash : '/' ∉ version) : lockKeyPackageName (name ++ '@' :: version) = some name ↔
      ¬"node_modules/".toList <:+: name := by
  rw [lockKeyPackageName_eq_iff, KeyNames, nodeModules_eq]
  cases hname with
  | plain hpart =>
    have hpart' := hpart.notMem slash_unsafe
    have hnone : '/' ∉ name ++ '@' :: version := by simp [hpart', hslash]
    rw [Pieces.after_of_notMem hnone]
    refine iff_of_true ⟨hpart.ne_nil, hmark⟩ fun hwithin => hpart' (hwithin.subset ?_)
    exact List.mem_append_right _ List.mem_cons_self
  | @inScope scope part hscope hpart =>
    have hmem : '/' ∈ '@' :: (scope ++ '/' :: part) :=
      List.mem_cons_of_mem _ (List.mem_append_right _ List.mem_cons_self)
    have hlast : '/' ∉ part ++ '@' :: version := by simp [hpart.notMem slash_unsafe, hslash]
    have hscope' : '/' ∉ '@' :: scope :=
      List.not_mem_cons_of_ne_of_not_mem (by decide) (hscope.notMem slash_unsafe)
    have hsplit : '@' :: (scope ++ '/' :: part) ++ '@' :: version =
        '@' :: scope ++ '/' :: (part ++ '@' :: version) := by simp
    have hinfix : "node_modules".toList ++ ['/'] <:+: '@' :: (scope ++ '/' :: part) ↔
        "node_modules".toList <:+ '@' :: scope :=
      Pieces.infix_append_cons_iff hscope' (hpart.notMem slash_unsafe)
    rw [hsplit, Pieces.after_append_cons hlast, Pieces.after_of_notMem hscope', hinfix]
    by_cases hends : "node_modules".toList <:+ '@' :: scope
    · rw [if_pos hends]
      exact iff_of_false (not_moduleNames hmem (Or.inr hlast)) (not_not.mpr hends)
    · rw [if_neg hends]
      exact iff_of_true ⟨List.cons_ne_nil _ _, hmark⟩ hends

end Keys

/-! ## The name of an entry -/

section Entries
variable {entry : LockEntry} {key name : List Char}

/-- The name of an entry without one is read right exactly under the condition of its source. -/
theorem packageNameForKey_iff {source : NameSource} (hentry : entry.name = none)
    (hname : IsPackageName name) (hsource : source.Gives entry.resolved key name) :
    entry.packageNameForKey (String.ofList key) = some (String.ofList name) ↔
      source.Right entry.resolved name := by
  have hofList : ∀ cs : List Char, String.ofList cs = String.ofList name ↔ cs = name :=
    fun cs => ⟨fun h => String.ofList_injective h, fun h => h ▸ rfl⟩
  unfold LockEntry.packageNameForKey npmTarballPackageName
  rw [hentry, String.toList_ofList]
  cases source with
  | location front =>
    obtain ⟨-, rfl⟩ := hsource
    unfold NameSource.Right
    cases Pieces.before ['/', '-', '/'] (addressPath entry.resolved) with
    | some address => simp only [Option.map_some, Option.some_inj, hofList, addressName_eq_iff]
    | none =>
      simp only [Option.map_none, Option.map_eq_some_iff, hofList, exists_eq_right]
      exact lockKeyPackageName_location hname front
  | canonical version =>
    obtain ⟨hmark, hslash, rfl⟩ := hsource
    unfold NameSource.Right
    cases Pieces.before ['/', '-', '/'] (addressPath entry.resolved) with
    | some address => simp only [Option.map_some, Option.some_inj, hofList, addressName_eq_iff]
    | none =>
      simp only [Option.map_none, Option.map_eq_some_iff, hofList, exists_eq_right]
      exact lockKeyPackageName_canonical hname hmark hslash
  | tarball parts =>
    obtain ⟨hparts, hresolved⟩ := hsource
    unfold NameSource.Right
    have hmark : parts.address ++ (['/', '-', '/'] ++ parts.file) =
        parts.address ++ ['/', '-'] ++ ('/' :: parts.file) := by simp
    rw [addressPath_text hparts hresolved]
    cases hbefore : Pieces.before ['/', '-', '/'] (parts.address ++ ['/', '-']) with
    | some address =>
      rw [hmark, Pieces.before_append_of_some hbefore]
      simp only [Option.map_some, Option.some_inj, hofList, addressName_eq_iff, hbefore]
    | none =>
      rw [Pieces.before_append (List.cons_ne_nil _ _) hbefore]
      simp only [Option.map_some, Option.some_inj, hofList, addressName_eq_iff, hbefore]
      exact addressNames_address hparts

end Entries

/-! ## A scoped package from an archive -/

/-- The types of a runtime, installed from the archive of their repository. -/
def typesEntry : LockEntry where
  name := none
  version := "20.1.0"
  resolved := "https://codeload.example/types/node/tar.gz/main"
  integrity := none
  dependencies := .empty
  dev := false
  optional := false
  hasInstallScript := false
  aliasName := none
  peerDependencies := .empty
  resolvedPeers := .empty

theorem types_isPackageName : IsPackageName "@types/node".toList :=
  @IsPackageName.inScope "types".toList "node".toList (isNamePart_of_all (by decide) (by decide))
    (isNamePart_of_all (by decide) (by decide))

theorem packageNameForKey_nested :
    typesEntry.packageNameForKey (String.ofList "node_modules/app/node_modules/node".toList) =
      some (String.ofList "node".toList) := by
  have hname : IsPackageName "node".toList := .plain (isNamePart_of_all (by decide) (by decide))
  have hsource : (NameSource.location "node_modules/app/".toList).Gives typesEntry.resolved
      "node_modules/app/node_modules/node".toList "node".toList :=
    ⟨Or.inr ⟨"node_modules/app".toList, by decide⟩, by decide⟩
  have hright : (NameSource.location "node_modules/app/".toList).Right typesEntry.resolved
      "node".toList := by
    have hnone : Pieces.before ['/', '-', '/'] (addressPath typesEntry.resolved) = none := by decide
    rw [NameSource.Right, hnone]
    decide
  exact (packageNameForKey_iff rfl hname hsource).mpr hright

/-- The last letter is lost, and the store is asked for a package that nobody has. -/
theorem packageNameForKey_cut :
    typesEntry.name = none ∧ IsPackageName "@types/node".toList ∧
      (NameSource.location []).Gives typesEntry.resolved "node_modules/@types/node".toList
        "@types/node".toList ∧
      ¬"/-/".toList <:+: typesEntry.resolved.toList ∧
      typesEntry.packageNameForKey "node_modules/@types/node" = some "@types/nod" := by
  refine ⟨rfl, types_isPackageName, ⟨Or.inl rfl, by decide⟩, by decide, by decide⟩

end Oath.Resolve
