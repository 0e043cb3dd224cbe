import Oath.Store.Enumeration

/-! Stores of packages whose names and versions read back from their directories, and the walks
after any sequence of them and of removals. -/

namespace Oath.Store
open Registry

/-- The name and the version read back from the directory, and neither is hidden. -/
structure Faithful (name version : String) : Prop where
  nameKept : decodeName (nameComponent name) = name
  nameVisible : startsWithDot name = false
  versionKept : safePathComponent version = version
  versionVisible : startsWithDot version = false

instance (name version : String) : Decidable (Faithful name version) :=
  decidable_of_iff (decodeName (nameComponent name) = name ∧ startsWithDot name = false ∧
      safePathComponent version = version ∧ startsWithDot version = false)
    ⟨fun ⟨hname, hvisible, hversion, hvisible'⟩ => ⟨hname, hvisible, hversion, hvisible'⟩,
      fun h => ⟨h.nameKept, h.nameVisible, h.versionKept, h.versionVisible⟩⟩

section Names

theorem startsWithDot_decodeName (component : String) :
    startsWithDot (decodeName component) = startsWithDot component := by
  unfold startsWithDot decodeName
  rw [String.toList_ofList]
  cases component.toList with
  | nil => rfl
  | cons c cs =>
    simp only [List.map_cons, List.head?_cons]
    by_cases hplus : c = '+'
    · subst hplus
      rfl
    · rw [if_neg hplus]
      rfl

theorem Faithful.component_visible {name version : String} (h : Faithful name version) :
    startsWithDot (nameComponent name) = false := by
  rw [← startsWithDot_decodeName, h.nameKept]
  exact h.nameVisible

end Names

/-- The manifest's own directory. -/
def OwnPlace (dir : StoreDir) (manifest : StoreManifest) : Prop :=
  dir = storeDir manifest.name manifest.version ∧ Faithful manifest.name manifest.version

/-- Name directories, and below them packages in their own places. -/
structure Flat (t : StoreTree) : Prop where
  nodup : t.directories.Nodup
  shape : ∀ d ∈ t.directories, (∃ component, d = [component]) ∨ (t.document d).isSome
  own : ∀ d manifest, t.document d = some manifest → d ∈ t.directories ∧ OwnPlace d manifest
  parent : ∀ component version, [component, version] ∈ t.directories →
    [component] ∈ t.directories

section Steps

variable {t t' : StoreTree} {component version : String} {d : StoreDir}

theorem flat_empty : Flat DirectoryTree.empty where
  nodup := List.nodup_nil
  shape := fun _ hmem => absurd hmem List.not_mem_nil
  own := fun _ _ hdocument => absurd hdocument (by simp [DirectoryTree.empty])
  parent := fun _ _ hmem => absurd hmem List.not_mem_nil

theorem Flat.package (hflat : Flat t) (hmem : [component, version] ∈ t.directories) :
    ∃ manifest, t.document [component, version] = some manifest ∧
      component = nameComponent manifest.name ∧ version = manifest.version ∧
      Faithful manifest.name manifest.version := by
  cases hflat.shape _ hmem with
  | inl hsingle =>
    obtain ⟨other, heq⟩ := hsingle
    exact absurd heq (by simp)
  | inr hsome =>
    obtain ⟨manifest, hdocument⟩ := Option.isSome_iff_exists.mp hsome
    obtain ⟨-, hplace, hfaithful⟩ := hflat.own _ _ hdocument
    have hcomponents : component = nameComponent manifest.name ∧
        version = safePathComponent manifest.version := by simpa [storeDir] using hplace
    rw [hfaithful.versionKept] at hcomponents
    exact ⟨manifest, hdocument, hcomponents.1, hcomponents.2, hfaithful⟩

theorem Flat.visible (hflat : Flat t) (hmem : [component, version] ∈ t.directories) :
    startsWithDot component = false ∧ startsWithDot version = false := by
  obtain ⟨manifest, -, hcomponent, hversion, hfaithful⟩ := hflat.package hmem
  rw [hcomponent, hversion]
  exact ⟨hfaithful.component_visible, hfaithful.versionVisible⟩

theorem Flat.length_le (hflat : Flat t) (hmem : d ∈ t.directories) : d.length ≤ 2 := by
  cases hflat.shape d hmem with
  | inl hsingle =>
    obtain ⟨other, heq⟩ := hsingle
    simp [heq]
  | inr hsome =>
    obtain ⟨manifest, hdocument⟩ := Option.isSome_iff_exists.mp hsome
    rw [(hflat.own _ _ hdocument).2.1]
    rfl

/-- Nothing is kept in a hidden directory. -/
theorem Flat.not_below_hidden (hflat : Flat t) {rest : List String} (hrest : rest ≠ [])
    (hdot : startsWithDot component = true) : component :: rest ∉ t.directories := by
  intro hmem
  have hlength := hflat.length_le hmem
  cases rest with
  | nil => exact hrest rfl
  | cons version tail =>
    have htail : tail = [] := by
      apply List.eq_nil_of_length_eq_zero
      simp only [List.length_cons] at hlength
      omega
    subst htail
    exact absurd hdot (by simp [(hflat.visible hmem).1])

theorem Flat.removeDirAll (hflat : Flat t) (hlength : 2 ≤ d.length) : Flat (t.removeDirAll d) where
  nodup := DirectoryTree.nodup_removeDirAll hflat.nodup
  shape := by
    intro x hmem
    obtain ⟨hold, hnot⟩ := DirectoryTree.mem_removeDirAll.mp hmem
    rw [DirectoryTree.document_removeDirAll, if_neg hnot]
    exact hflat.shape x hold
  own := by
    intro x manifest hdocument
    rw [DirectoryTree.document_removeDirAll] at hdocument
    split at hdocument
    · exact absurd hdocument (by simp)
    · case isFalse hnot =>
      obtain ⟨hold, hplace⟩ := hflat.own x manifest hdocument
      exact ⟨DirectoryTree.mem_removeDirAll.mpr ⟨hold, hnot⟩, hplace⟩
  parent := by
    intro component version hmem
    obtain ⟨hold, -⟩ := DirectoryTree.mem_removeDirAll.mp hmem
    apply DirectoryTree.mem_removeDirAll.mpr
    refine ⟨hflat.parent component version hold, ?_⟩
    intro hbefore
    have hle := hbefore.length_le
    simp at hle
    omega

theorem Flat.removeIfThere (hflat : Flat t) (hlength : 2 ≤ d.length) :
    Flat (if t.isDir d then t.removeDirAll d else t) := by
  split
  · exact hflat.removeDirAll hlength
  · exact hflat

theorem mem_createName {x : StoreDir} :
    x ∈ (t.createDirAll [component]).directories ↔ x ∈ t.directories ∨ x = [component] := by
  rw [DirectoryTree.mem_createDirAll]
  apply or_congr_right
  constructor
  · intro ⟨hbefore, hne⟩
    cases x with
    | nil => exact absurd rfl hne
    | cons c cs =>
      rw [List.cons_prefix_cons, List.prefix_nil] at hbefore
      rw [hbefore.1, hbefore.2]
  · intro heq
    rw [heq]
    exact ⟨List.prefix_refl _, by simp⟩

theorem Flat.createName (hflat : Flat t) : Flat (t.createDirAll [component]) where
  nodup := DirectoryTree.nodup_createDirAll hflat.nodup
  shape := by
    intro x hmem
    rw [DirectoryTree.document_createDirAll]
    cases mem_createName.mp hmem with
    | inl hold => exact hflat.shape x hold
    | inr hnew => exact .inl ⟨component, hnew⟩
  own := by
    intro x manifest hdocument
    rw [DirectoryTree.document_createDirAll] at hdocument
    obtain ⟨hold, hplace⟩ := hflat.own x manifest hdocument
    exact ⟨mem_createName.mpr (.inl hold), hplace⟩
  parent := by
    intro c version hmem
    cases mem_createName.mp hmem with
    | inl hold => exact mem_createName.mpr (.inl (hflat.parent c version hold))
    | inr hnew => exact absurd hnew (by simp)

theorem Flat.congr (hflat : Flat t) (hnodup : t'.directories.Nodup)
    (hmem : ∀ x, x ∈ t'.directories ↔ x ∈ t.directories)
    (hdocument : ∀ x, t'.document x = t.document x) : Flat t' where
  nodup := hnodup
  shape := by
    intro x hx
    rw [hdocument]
    exact hflat.shape x ((hmem x).mp hx)
  own := by
    intro x manifest hx
    rw [hdocument] at hx
    obtain ⟨hold, hplace⟩ := hflat.own x manifest hx
    exact ⟨(hmem x).mpr hold, hplace⟩
  parent := by
    intro c version hx
    exact (hmem _).mpr (hflat.parent c version ((hmem _).mp hx))

/-- One package more, in its own place. -/
theorem Flat.insert (hflat : Flat t) {manifest : StoreManifest} (hnodup : t'.directories.Nodup)
    (hname : [nameComponent manifest.name] ∈ t.directories)
    (hfaithful : Faithful manifest.name manifest.version)
    (hmem : ∀ x, x ∈ t'.directories ↔
      x ∈ t.directories ∨ x = storeDir manifest.name manifest.version)
    (hdocument : ∀ x, t'.document x =
      if x = storeDir manifest.name manifest.version then some manifest else t.document x) :
    Flat t' where
  nodup := hnodup
  shape := by
    intro x hx
    rw [hdocument]
    cases (hmem x).mp hx with
    | inl hold =>
      split
      · exact .inr rfl
      · exact hflat.shape x hold
    | inr hnew =>
      rw [if_pos hnew]
      exact .inr rfl
  own := by
    intro x other hx
    rw [hdocument] at hx
    split at hx
    · case isTrue hplace =>
      obtain rfl := Option.some.inj hx
      exact ⟨(hmem x).mpr (.inr hplace), hplace, hfaithful⟩
    · obtain ⟨hold, hplace⟩ := hflat.own x other hx
      exact ⟨(hmem x).mpr (.inl hold), hplace⟩
  parent := by
    intro c version hx
    apply (hmem _).mpr
    cases (hmem _).mp hx with
    | inl hold => exact .inl (hflat.parent c version hold)
    | inr hnew =>
      have hcomponent : c = nameComponent manifest.name := (List.cons.inj hnew).1
      exact .inl (hcomponent ▸ hname)

end Steps

section Outcomes

variable {t : StoreTree} {name version stamp : String} {resolvedUrl lockIntegrity : Option String}
  {extracted : Option PackageJson} {dir place : StoreDir}

theorem buildManifest_ok {manifest : StoreManifest}
    (hbuild : buildManifest name version resolvedUrl lockIntegrity extracted = .ok manifest) :
    manifest.name = name ∧ manifest.version = version := by
  unfold buildManifest at hbuild
  split at hbuild
  · exact absurd hbuild (by simp)
  · split at hbuild
    · exact absurd hbuild (by simp)
    · obtain rfl := Except.ok.inj hbuild
      exact ⟨rfl, rfl⟩

end Outcomes

section Rebuilding

variable {t : StoreTree} {name version stamp : String} {resolvedUrl lockIntegrity : Option String}
  {extracted : Option PackageJson}

/-- The tree with the name's directory and the temporary directory's parent. -/
def prepared (name : String) (t : StoreTree) : StoreTree :=
  (t.createDirAll [nameComponent name]).createDirAll [".tmp"]

theorem mem_prepared {x : StoreDir} : x ∈ (prepared name t).directories ↔
    (x ∈ t.directories ∨ x = [nameComponent name]) ∨ x = [".tmp"] := by
  unfold prepared
  rw [mem_createName, mem_createName]

theorem Flat.prepare (hflat : Flat t) : Flat (prepared name t) :=
  hflat.createName.createName

theorem Flat.tempDir_not_mem (hflat : Flat t) :
    tempDir name version stamp ∉ t.directories :=
  hflat.not_below_hidden (by simp) (by decide)

/-- A prefix of the temporary directory that is there is its parent. -/
theorem mem_createTemp (hflat : Flat t) (htmp : [".tmp"] ∈ t.directories) {x : StoreDir} :
    x ∈ (t.createDirAll (tempDir name version stamp)).directories ↔
      x ∈ t.directories ∨ x = tempDir name version stamp := by
  rw [DirectoryTree.mem_createDirAll]
  constructor
  · intro hx
    cases hx with
    | inl hold => exact .inl hold
    | inr hnew =>
      obtain ⟨hbefore, hne⟩ := hnew
      unfold tempDir at hbefore ⊢
      cases x with
      | nil => exact absurd rfl hne
      | cons c cs =>
        rw [List.cons_prefix_cons] at hbefore
        obtain ⟨rfl, hbefore⟩ := hbefore
        cases cs with
        | nil => exact .inl htmp
        | cons c cs =>
          rw [List.cons_prefix_cons, List.prefix_nil] at hbefore
          rw [hbefore.1, hbefore.2]
          exact .inr rfl
  · intro hx
    cases hx with
    | inl hold => exact .inl hold
    | inr hnew =>
      rw [hnew]
      exact .inr ⟨List.prefix_refl _, by simp [tempDir]⟩

theorem Flat.not_under_temp (hflat : Flat t) {x : StoreDir} (hmem : x ∈ t.directories) :
    ¬ tempDir name version stamp <+: x := by
  intro ⟨rest, heq⟩
  have hbelow : ".tmp" :: ((tempDir name version stamp).tail ++ rest) ∉ t.directories :=
    hflat.not_below_hidden (by simp [tempDir]) (by decide)
  apply hbelow
  rw [← heq] at hmem
  exact hmem

theorem Flat.document_none (hflat : Flat t) {x : StoreDir} (hnot : x ∉ t.directories) :
    t.document x = none := by
  cases hdocument : t.document x with
  | none => rfl
  | some manifest => exact absurd (hflat.own x manifest hdocument).1 hnot

/-- What cannot be built leaves nothing behind. -/
theorem Flat.removeTemp (hflat : Flat t) (htmp : [".tmp"] ∈ t.directories) :
    Flat ((t.createDirAll (tempDir name version stamp)).removeDirAll
      (tempDir name version stamp)) := by
  apply hflat.congr
  · exact DirectoryTree.nodup_removeDirAll (DirectoryTree.nodup_createDirAll hflat.nodup)
  · intro x
    rw [DirectoryTree.mem_removeDirAll, mem_createTemp hflat htmp]
    constructor
    · intro ⟨hmem, hnot⟩
      cases hmem with
      | inl hold => exact hold
      | inr hnew => exact absurd (hnew ▸ List.prefix_refl _) hnot
    · intro hold
      exact ⟨.inl hold, hflat.not_under_temp hold⟩
  · intro x
    rw [DirectoryTree.document_removeDirAll, DirectoryTree.document_createDirAll]
    split
    · case isTrue hbefore =>
      exact (hflat.document_none fun hmem => hflat.not_under_temp hmem hbefore).symm
    · rfl

theorem Flat.renameTemp (hflat : Flat t) (htmp : [".tmp"] ∈ t.directories)
    {manifest : StoreManifest} (hfaithful : Faithful manifest.name manifest.version)
    (hname : [nameComponent manifest.name] ∈ t.directories)
    (hfree : storeDir manifest.name manifest.version ∉ t.directories) :
    Flat (((t.createDirAll (tempDir name version stamp)).write (tempDir name version stamp)
      manifest).rename (tempDir name version stamp)
        (storeDir manifest.name manifest.version)) := by
  have hvisible := hfaithful.component_visible
  have hfree' : ∀ y ∈ t.directories, ¬ storeDir manifest.name manifest.version <+: y := by
    intro y hy hbefore
    have hlength := hflat.length_le hy
    have heq := hbefore.eq_of_length_le (by simpa [storeDir] using hlength)
    exact hfree (heq ▸ hy)
  have hnottemp : ¬ storeDir manifest.name manifest.version <+: tempDir name version stamp := by
    intro hbefore
    unfold storeDir tempDir at hbefore
    rw [List.cons_prefix_cons] at hbefore
    rw [hbefore.1] at hvisible
    exact absurd hvisible (by decide)
  apply hflat.insert _ hname hfaithful
  · intro x
    rw [DirectoryTree.mem_rename]
    simp only [DirectoryTree.directories_write, mem_createTemp hflat htmp]
    constructor
    · intro ⟨y, hy, hmoved⟩
      cases hy with
      | inl hold =>
        have hstay : DirectoryTree.moved (tempDir name version stamp)
            (storeDir manifest.name manifest.version) y = y := by
          unfold DirectoryTree.moved
          rw [if_neg (by simpa [List.isPrefixOf_iff_prefix] using hflat.not_under_temp hold)]
        rw [← hmoved, hstay]
        exact .inl hold
      | inr htemp =>
        rw [← hmoved, htemp]
        simp [DirectoryTree.moved]
    · intro hx
      cases hx with
      | inl hold =>
        refine ⟨x, .inl hold, ?_⟩
        unfold DirectoryTree.moved
        rw [if_neg (by simpa [List.isPrefixOf_iff_prefix] using hflat.not_under_temp hold)]
      | inr hnew =>
        refine ⟨tempDir name version stamp, .inr rfl, ?_⟩
        simp [DirectoryTree.moved, hnew]
  · intro x
    have hwritten (y : StoreDir) :
        ((t.createDirAll (tempDir name version stamp)).write (tempDir name version stamp)
          manifest).document y =
          if y = tempDir name version stamp then some manifest else t.document y := by
      simp [DirectoryTree.write]
    unfold DirectoryTree.rename
    simp only [hwritten, List.isPrefixOf_iff_prefix]
    by_cases hplace : storeDir manifest.name manifest.version <+: x
    · rw [if_pos hplace]
      obtain ⟨rest, rfl⟩ := hplace
      rw [List.drop_left]
      cases rest with
      | nil => simp
      | cons c cs =>
        -- Below the package's directory, as below the temporary one, there is no other manifest.
        have hbelow : tempDir name version stamp ++ c :: cs ≠ tempDir name version stamp := by simp
        have hother : storeDir manifest.name manifest.version ++ c :: cs ≠
            storeDir manifest.name manifest.version := by simp
        rw [if_neg hbelow, if_neg hother]
        rw [hflat.document_none fun hmem => hflat.not_under_temp hmem (List.prefix_append _ _)]
        exact (hflat.document_none fun hmem => hfree' _ hmem (List.prefix_append _ _)).symm
    · have hne : x ≠ storeDir manifest.name manifest.version :=
        fun heq => hplace (heq ▸ List.prefix_refl _)
      rw [if_neg hplace, if_neg hne]
      by_cases htemp : tempDir name version stamp <+: x
      · rw [if_pos htemp]
        exact (hflat.document_none fun hmem => hflat.not_under_temp hmem htemp).symm
      · have hne' : x ≠ tempDir name version stamp :=
          fun heq => htemp (heq ▸ List.prefix_refl _)
        rw [if_neg htemp, if_neg hne']
  · apply DirectoryTree.nodup_rename
    · exact DirectoryTree.nodup_createDirAll hflat.nodup
    · intro y hy
      simp only [DirectoryTree.directories_write, mem_createTemp hflat htmp] at hy
      cases hy with
      | inl hold => exact hfree' y hold
      | inr htemp =>
        rw [htemp]
        exact hnottemp

theorem Flat.rebuild (hflat : Flat t)
    (hfaithful : ∀ manifest, buildManifest name version resolvedUrl lockIntegrity extracted =
      .ok manifest → Faithful name version)
    (hfree : storeDir name version ∉ t.directories) :
    Flat (rebuildPackageAt name version resolvedUrl lockIntegrity extracted stamp
      (storeDir name version) t).2 := by
  have hprepared : Flat (prepared name t) := hflat.prepare
  have htmp : [".tmp"] ∈ (prepared name t).directories := mem_prepared.mpr (.inr rfl)
  have hname : [nameComponent name] ∈ (prepared name t).directories :=
    mem_prepared.mpr (.inl (.inr rfl))
  have hfree' : storeDir name version ∉ (prepared name t).directories := by
    intro hmem
    rcases mem_prepared.mp hmem with (hold | hnew) | hnew
    · exact hfree hold
    · exact absurd hnew (by simp [storeDir])
    · exact absurd hnew (by simp [storeDir])
  have htemp : (prepared name t).isDir (tempDir name version stamp) = false := by
    rw [← Bool.not_eq_true, DirectoryTree.isDir_iff]
    intro hdir
    exact hprepared.tempDir_not_mem (hdir.resolve_left (by simp [tempDir]))
  have hplace : (storeDir name version).dropLast = [nameComponent name] := rfl
  unfold rebuildPackageAt
  rw [hplace]
  have hsplit : (t.createDirAll [nameComponent name]).createDirAll [".tmp"] = prepared name t := rfl
  simp only [hsplit, htemp, Bool.false_eq_true, if_false]
  cases hbuild : buildManifest name version resolvedUrl lockIntegrity extracted with
  | error reason => exact hprepared.removeTemp htmp
  | ok manifest =>
    obtain ⟨rfl, rfl⟩ := buildManifest_ok hbuild
    exact hprepared.renameTemp htmp (hfaithful manifest hbuild) hname hfree'

theorem Flat.storePackage (hflat : Flat t)
    (hfaithful : ∀ manifest, buildManifest name version resolvedUrl lockIntegrity extracted =
      .ok manifest → Faithful name version) :
    Flat (storePackageAt name version resolvedUrl lockIntegrity extracted stamp
      (storeDir name version) t).2 := by
  unfold storePackageAt
  cases hverify : verifyPackageAt t name version resolvedUrl lockIntegrity
    (storeDir name version) with
  | verified manifest => exact hflat
  | missing =>
    apply hflat.rebuild hfaithful
    intro hmem
    unfold verifyPackageAt at hverify
    rw [if_neg (by simp [DirectoryTree.isDir_iff.mpr (.inr hmem)])] at hverify
    split at hverify
    · exact absurd hverify (by simp)
    · split_ifs at hverify
  | corrupt reason =>
    have hremoved : Flat (if t.isDir (storeDir name version) then
        t.removeDirAll (storeDir name version) else t) := hflat.removeIfThere (by simp [storeDir])
    apply hremoved.rebuild hfaithful
    split
    · intro hmem
      exact (DirectoryTree.mem_removeDirAll.mp hmem).2 (List.prefix_refl _)
    · case isFalse hdir =>
      intro hmem
      exact hdir (DirectoryTree.isDir_iff.mpr (.inr hmem))

theorem Flat.removePackage (hflat : Flat t) : Flat (removePackage name version t) := by
  have hfirst : Flat (if t.isDir (storeDir name version) then
      t.removeDirAll (storeDir name version) else t) := hflat.removeIfThere (by simp [storeDir])
  exact hfirst.removeIfThere (by simp [variantDir])

end Rebuilding

section Runs

/-- A package that is stored goes to its plain directory, under a name and version that read
back from it. -/
def StoreOperation.Plain : StoreOperation → Prop
  | .store name version resolvedUrl lockIntegrity extracted _ =>
    ∀ manifest, buildManifest name version resolvedUrl lockIntegrity extracted = .ok manifest →
      Faithful name version
  | .storeVariant name version resolvedUrl lockIntegrity extracted _ =>
    (resolvedUrl = none ∧ lockIntegrity = none) ∧
      ∀ manifest, buildManifest name version resolvedUrl lockIntegrity extracted = .ok manifest →
        Faithful name version
  | .remove _ _ => True

theorem Flat.apply {t : StoreTree} (store : ContentStore) (hflat : Flat t)
    (operation : StoreOperation) (hplain : operation.Plain) : Flat (operation.apply store t) := by
  cases operation with
  | store name version resolvedUrl lockIntegrity extracted stamp => exact hflat.storePackage hplain
  | storeVariant name version resolvedUrl lockIntegrity extracted stamp =>
    obtain ⟨⟨rfl, rfl⟩, hfaithful⟩ := hplain
    exact hflat.storePackage hfaithful
  | remove name version => exact hflat.removePackage

theorem flat_storeAfter (store : ContentStore) (operations : List StoreOperation)
    (hplain : ∀ operation ∈ operations, operation.Plain) : Flat (storeAfter store operations) := by
  unfold storeAfter
  suffices hall : ∀ t, Flat t → Flat (operations.foldl (StoreOperation.apply store) t) from
    hall _ flat_empty
  induction operations with
  | nil => exact fun _ hflat => hflat
  | cons operation operations ih =>
    intro t hflat
    have hstep := hflat.apply store operation (hplain operation List.mem_cons_self)
    exact ih (fun other hmem => hplain other (List.mem_cons_of_mem _ hmem)) _ hstep

end Runs

section Enumeration

variable {t : StoreTree}

theorem mem_scanVisits {visit : Visit} : visit ∈ scanVisits t ↔
    ∃ component version, [component] ∈ t.directories ∧ [component, version] ∈ t.directories ∧
      visit = ⟨decodeName component, version, [component, version]⟩ := by
  unfold scanVisits
  rw [List.mem_flatMap]
  constructor
  · intro hscan
    obtain ⟨component, hname, hvisit⟩ := hscan
    rw [DirectoryTree.mem_readDir] at hname
    split at hvisit
    · exact absurd hvisit List.not_mem_nil
    · rw [List.mem_filterMap] at hvisit
      obtain ⟨version, hversion, hvisit⟩ := hvisit
      rw [DirectoryTree.mem_readDir] at hversion
      split at hvisit
      · exact absurd hvisit (by simp)
      · exact ⟨component, version, hname, hversion, (Option.some.inj hvisit).symm⟩
  · intro hdirs
    obtain ⟨component, version, hname, hversion, hvisit⟩ := hdirs
    refine ⟨component, DirectoryTree.mem_readDir.mpr hname, ?_⟩
    rw [if_neg (by simp [DirectoryTree.isDir_iff.mpr (.inr hname)]), List.mem_filterMap]
    refine ⟨version, DirectoryTree.mem_readDir.mpr hversion, ?_⟩
    rw [if_neg (by simp [DirectoryTree.isDir_iff.mpr (.inr hversion)]), hvisit]

theorem mem_storedEntries {visit : Visit} : visit ∈ storedEntries t ↔
    ∃ dir ∈ t.directories, ∃ manifest, t.document dir = some manifest ∧
      visit = ⟨manifest.name, manifest.version, dir⟩ := by
  simp only [storedEntries, List.mem_filterMap, Option.map_eq_some_iff, eq_comm (a := visit)]

theorem nodup_storedEntries (hflat : Flat t) : (storedEntries t).Nodup := by
  unfold storedEntries
  apply hflat.nodup.filterMap
  intro a b visit ha hb
  obtain ⟨manifest, -, rfl⟩ := Option.map_eq_some_iff.mp ha
  obtain ⟨manifest', -, heq⟩ := Option.map_eq_some_iff.mp hb
  exact (congrArg Visit.dir heq).symm

theorem nodup_scanVisits (hflat : Flat t) : (scanVisits t).Nodup := by
  unfold scanVisits
  rw [List.nodup_flatMap]
  constructor
  · intro component _
    split
    · exact List.nodup_nil
    · apply (DirectoryTree.nodup_readDir hflat.nodup).filterMap
      intro a b visit ha hb
      split at ha
      · exact absurd ha (by simp)
      · split at hb
        · exact absurd hb (by simp)
        · have heq := (Option.some.inj ha).trans (Option.some.inj hb).symm
          exact congrArg Visit.version heq
  · apply (DirectoryTree.nodup_readDir hflat.nodup).imp
    intro a b hne visit ha hb
    have hhead (component : String) (hvisit : visit ∈ if (!t.isDir [component]) = true then [] else
        (t.readDir [component]).filterMap fun version =>
          if (!t.isDir [component, version]) = true then none
          else some ⟨decodeName component, version, [component, version]⟩) :
        visit.dir.head? = some component := by
      split at hvisit
      · exact absurd hvisit List.not_mem_nil
      · obtain ⟨version, -, hsome⟩ := List.mem_filterMap.mp hvisit
        split at hsome
        · exact absurd hsome (by simp)
        · rw [← Option.some.inj hsome]
          rfl
    have heq := (hhead a ha).symm.trans (hhead b hb)
    exact hne (Option.some.inj heq)

/-- Every visited directory holds the package it is visited as. -/
theorem scanVisits_perm (hflat : Flat t) : (scanVisits t).Perm (storedEntries t) := by
  apply (List.perm_ext_iff_of_nodup (nodup_scanVisits hflat) (nodup_storedEntries hflat)).mpr
  intro visit
  rw [mem_scanVisits, mem_storedEntries]
  constructor
  · intro ⟨component, version, _, hmem, hvisit⟩
    obtain ⟨manifest, hdocument, hcomponent, hversion, hfaithful⟩ := hflat.package hmem
    refine ⟨[component, version], hmem, manifest, hdocument, ?_⟩
    rw [hvisit, ← hversion, hcomponent, hfaithful.nameKept]
  · intro ⟨dir, hmem, manifest, hdocument, hvisit⟩
    obtain ⟨-, hplace, hfaithful⟩ := hflat.own dir manifest hdocument
    have hdir : dir = [nameComponent manifest.name, manifest.version] := by
      rw [hplace, storeDir, hfaithful.versionKept]
    subst hdir
    refine ⟨_, _, hflat.parent _ _ hmem, hmem, ?_⟩
    rw [hvisit, hfaithful.nameKept]

theorem licenseVisits_eq (t : StoreTree) : licenseVisits t = (scanVisits t).map Visit.dir := by
  unfold licenseVisits scanVisits
  rw [List.map_flatMap]
  apply List.flatMap_congr
  intro component _
  split
  · rfl
  · rw [List.map_filterMap]
    apply List.filterMap_congr
    intro version _
    split <;> rfl

/-- Nothing that is stored is hidden, so that the listing skips none of the scan's visits. -/
theorem listPackages_eq (hflat : Flat t) :
    listPackages t = (scanVisits t).map fun visit => (visit.name, visit.version) := by
  unfold listPackages scanVisits
  rw [List.map_flatMap]
  apply List.flatMap_congr
  intro component hname
  rw [DirectoryTree.mem_readDir] at hname
  have hdir : t.isDir [component] = true := DirectoryTree.isDir_iff.mpr (.inr hname)
  simp only [hdir, Bool.not_true, Bool.false_eq_true, if_false, startsWithDot_decodeName]
  split
  · case isTrue hdot =>
    have hnone : t.readDir [component] = [] := by
      rw [List.eq_nil_iff_forall_not_mem]
      intro version hmem
      rw [DirectoryTree.mem_readDir] at hmem
      exact absurd hdot (by simp [(hflat.visible hmem).1])
    rw [hnone]
    rfl
  · rw [List.map_filterMap]
    apply List.filterMap_congr
    intro version hmem
    rw [DirectoryTree.mem_readDir] at hmem
    have hversion : t.isDir [component, version] = true := DirectoryTree.isDir_iff.mpr (.inr hmem)
    have hvisible : startsWithDot version = false := (hflat.visible hmem).2
    simp [hversion, hvisible]

theorem Flat.enumerates (hflat : Flat t) : Enumerates t where
  list := by
    rw [listPackages_eq hflat]
    exact (scanVisits_perm hflat).map _
  scan := scanVisits_perm hflat
  licenses := by
    rw [licenseVisits_eq]
    exact (scanVisits_perm hflat).map _

/-- After any stores of plain packages and any removals, each walk finds exactly what is
stored. -/
theorem storeAfter_enumerates (store : ContentStore) (operations : List StoreOperation)
    (hplain : ∀ operation ∈ operations, operation.Plain) :
    Enumerates (storeAfter store operations) :=
  (flat_storeAfter store operations hplain).enumerates

/-- The hash is the one of the source below. -/
def demoStore : ContentStore where
  root := []
  blake3Hex := fun _ => "245388fafb845a3ac94ecb751331ca34c6fefb09bde16dcccb976e2f7d68d5ff"

def demoOperations : List StoreOperation :=
  [.store "@scope/pkg" "1.0.0-beta.1" (some "https://registry.example/pkg.tgz") none
      (some ⟨"@scope/pkg", "1.0.0-beta.1"⟩) "7-1",
    .storeVariant "left" "2.0.0" none none (some ⟨"left", "2.0.0"⟩) "7-2",
    .remove "left" "2.0.0"]

theorem storeAfter_enumerates_demo :
    Enumerates (storeAfter demoStore demoOperations) ∧
      scanVisits (storeAfter demoStore demoOperations) =
        [⟨"@scope/pkg", "1.0.0-beta.1", ["@scope+pkg", "1.0.0-beta.1"]⟩] := by
  refine ⟨storeAfter_enumerates demoStore demoOperations ?_, by decide⟩
  intro operation hmem
  simp only [demoOperations, List.mem_cons, List.not_mem_nil, or_false] at hmem
  rcases hmem with rfl | rfl | rfl
  · exact fun _ _ => by decide
  · exact ⟨⟨rfl, rfl⟩, fun _ _ => by decide⟩
  · trivial

/-- A variant is stored below `.variants`: the listing misses it, and the scan visits a package
called `.variants`. -/
theorem variant_not_enumerated : ¬ ∀ store operations, Enumerates (storeAfter store operations) := by
  intro hall
  have hvariant := hall demoStore [.storeVariant "left" "1.0.0" none (some "sha512-AA==")
    (some ⟨"left", "1.0.0"⟩) "7-1"]
  exact absurd hvariant.list.length_eq (by decide)

end Enumeration

end Oath.Store
