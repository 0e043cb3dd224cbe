import Mathlib.Data.Set.Function
import Oath.Library.Outcome
import Oath.Store.ConcurrentStore

/-! What a store entry holds when it is verified. The manifest lists every file but those that have
the manifest's own name, and these are passed over at every depth. -/

namespace Oath.Store
open Registry

/-! ## Files of a directory -/

section Files
variable {format : EntryFormat} {dir dir' : EntryDir} {path path' : NodePath} {bytes : List UInt8}

/-- The names of a path are names of directories and files. -/
def EntryDir.WellNamed (dir : EntryDir) : Prop :=
  ∀ row ∈ dir.rows, row.1 ≠ [] ∧ ∀ name ∈ row.1, '/' ∉ name.toList

def EntryDir.IsFile (dir : EntryDir) (path : NodePath) (bytes : List UInt8) : Prop :=
  dir.node? path = some (.file bytes)

theorem EntryDir.isFile_iff : dir.IsFile path bytes ↔ (path, .file bytes) ∈ dir.rows := by
  unfold IsFile node?
  constructor
  · intro h
    obtain ⟨row, hfind, hnode⟩ := Option.map_eq_some_iff.mp h
    have hpath := dir.key_of_find? hfind
    rw [← hpath, ← hnode]
    exact dir.mem_of_find? hfind
  · intro h
    have hfind := dir.find?_key h
    dsimp only at hfind
    rw [hfind]
    rfl

/-- Paths are told apart by their texts. -/
theorem intercalate_injective {a b : List String} (ha : a ≠ [] ∧ ∀ name ∈ a, '/' ∉ name.toList)
    (hb : b ≠ [] ∧ ∀ name ∈ b, '/' ∉ name.toList)
    (h : String.intercalate "/" a = String.intercalate "/" b) : a = b := by
  have hread : ∀ names : List String, (names ≠ [] ∧ ∀ name ∈ names, '/' ∉ name.toList) →
      ((String.intercalate "/" names).split '/').toList.map String.Slice.copy = names := by
    rintro names ⟨hne, hnames⟩
    have hslash : "/" = String.singleton '/' := rfl
    rw [hslash, String.toList_split_intercalate hnames, if_neg hne]
  rw [← hread a ha, h, hread b hb]

/-- How a file is listed. -/
def listedFile (format : EntryFormat) (path : NodePath) (bytes : List UInt8) :
    StoreManifestFile where
  path := String.intercalate "/" path
  bytes := bytes.length
  blake3 := format.blake3Hex bytes

theorem treeFile_eq_ok {row : NodePath × EntryNode} {entry : StoreManifestFile} :
    treeFile format row = .ok (some entry) ↔ ∃ bytes, row.2 = .file bytes ∧
      row.1.getLast? ≠ some storeManifestFile ∧ entry = listedFile format row.1 bytes := by
  unfold treeFile
  obtain ⟨path, node⟩ := row
  cases node with
  | directory =>
    refine ⟨fun h => ?_, fun h => ?_⟩
    · cases Except.ok.inj h
    · obtain ⟨bytes, hnode, -⟩ := h
      cases hnode
  | special =>
    refine ⟨fun h => ?_, fun h => ?_⟩
    · cases h
    · obtain ⟨bytes, hnode, -⟩ := h
      cases hnode
  | file bytes =>
    dsimp only
    split_ifs with hname
    · refine ⟨fun h => ?_, fun h => ?_⟩
      · cases Except.ok.inj h
      · obtain ⟨_, -, hne, -⟩ := h
        exact absurd hname hne
    · constructor
      · intro h
        exact ⟨bytes, rfl, hname, (Option.some.inj (Except.ok.inj h)).symm⟩
      · rintro ⟨other, hnode, -, rfl⟩
        rw [EntryNode.file.inj hnode]
        rfl

/-- The files that are listed: all but those with the name of the manifest. -/
theorem mem_buildFileTree {tree : List StoreManifestFile} (h : buildFileTree format dir = .ok tree)
    {entry : StoreManifestFile} : entry ∈ tree ↔ ∃ path bytes, dir.IsFile path bytes ∧
      path.getLast? ≠ some storeManifestFile ∧ entry = listedFile format path bytes := by
  obtain ⟨files, hfiles, hsorted⟩ := Except.bind_eq_ok.mp h
  have hmem : entry ∈ tree ↔ some entry ∈ files := by
    rw [← Except.ok.inj hsorted, List.mem_insertionSort, List.mem_filterMap]
    exact ⟨fun ⟨file, hfile, heq⟩ => heq ▸ hfile, fun hfile => ⟨some entry, hfile, rfl⟩⟩
  rw [hmem, Except.mem_of_mapM_eq_ok hfiles]
  constructor
  · rintro ⟨⟨path, node⟩, hrow, hentry⟩
    obtain ⟨bytes, rfl, hname, rfl⟩ := treeFile_eq_ok.mp hentry
    exact ⟨path, bytes, EntryDir.isFile_iff.mpr hrow, hname, rfl⟩
  · rintro ⟨path, bytes, hfile, hname, rfl⟩
    exact ⟨_, EntryDir.isFile_iff.mp hfile, treeFile_eq_ok.mpr ⟨bytes, rfl, hname, rfl⟩⟩

theorem validateTree_verified {package : PackageIdentity} {manifest : TreeManifest}
    {result : StoreManifest} (h : validateTree format package manifest dir = .verified result) :
    buildFileTree format dir = .ok manifest.blake3Tree := by
  unfold validateTree at h
  split_ifs at h
  split at h
  · cases h
  · next rebuilt hrebuilt =>
    split_ifs at h with hpackage htree
    obtain ⟨base, -, hbase⟩ := Except.bind_eq_ok.mp hrebuilt
    obtain ⟨tree, htree', hrest⟩ := Except.bind_eq_ok.mp hbase
    simp only [Bool.or_eq_true, decide_eq_true_eq, not_or, not_not] at htree
    have hsame : tree = rebuilt.blake3Tree := by rw [← Except.ok.inj hrest]
    rw [htree', hsame, htree.2]

theorem validateManifest_verified {package : PackageIdentity} {result : StoreManifest}
    (h : validateManifest format package (some dir) = .verified result) :
    ∃ data manifest, dir.IsFile [storeManifestFile] data ∧ format.fromSlice data = .ok manifest ∧
      buildFileTree format dir = .ok manifest.blake3Tree := by
  unfold validateManifest at h
  dsimp only at h
  split at h
  · cases h
  · next data hdata =>
    cases hmanifest : format.fromSlice data with
    | error error =>
      rw [hmanifest] at h
      cases h
    | ok manifest =>
      rw [hmanifest] at h
      exact ⟨data, manifest, hdata, hmanifest, validateTree_verified h⟩
  · cases h

/-! ## What is listed -/

/-- The list has the regular files of the entry but its manifest, each with its hash, and no
others. -/
def ListsExactly (format : EntryFormat) (dir : EntryDir) (listed : List StoreManifestFile) : Prop :=
  ∀ entry, entry ∈ listed ↔ ∃ path bytes, dir.IsFile path bytes ∧ path ≠ [storeManifestFile] ∧
    entry = listedFile format path bytes

/-- A file below the top level with the name of the manifest. -/
def IsNestedManifest (path : NodePath) : Prop :=
  path.getLast? = some storeManifestFile ∧ path ≠ [storeManifestFile]

theorem listedFile_path (hnames : dir.WellNamed) (hnames' : dir'.WellNamed)
    {bytes' : List UInt8} (hfile : dir.IsFile path bytes) (hfile' : dir'.IsFile path' bytes')
    (h : listedFile format path bytes = listedFile format path' bytes') : path = path' :=
  intercalate_injective (hnames _ (EntryDir.isFile_iff.mp hfile))
    (hnames' _ (EntryDir.isFile_iff.mp hfile')) (congrArg StoreManifestFile.path h)

theorem listsExactly_iff (hnames : dir.WellNamed) {tree : List StoreManifestFile}
    (h : buildFileTree format dir = .ok tree) : ListsExactly format dir tree ↔
      ∀ path bytes, dir.IsFile path bytes → ¬IsNestedManifest path := by
  constructor
  · rintro hlists path bytes hfile ⟨hname, hnested⟩
    have hlisted := (hlists (listedFile format path bytes)).mpr ⟨path, bytes, hfile, hnested, rfl⟩
    obtain ⟨path', bytes', hfile', hname', heq⟩ := (mem_buildFileTree h).mp hlisted
    rw [← listedFile_path hnames hnames hfile hfile' heq] at hname'
    exact hname' hname
  · intro hnone entry
    rw [mem_buildFileTree h]
    refine exists_congr fun path => exists_congr fun bytes => and_congr_right fun hfile =>
      and_congr_left fun _ => ?_
    constructor
    · rintro hname rfl
      exact hname rfl
    · intro hpath hname
      exact hnone path bytes hfile ⟨hname, hpath⟩

/-- Entries with the same list have the same files but for those that are passed over. -/
theorem isFile_of_same_tree {tree : List StoreManifestFile} (hnames : dir.WellNamed)
    (hnames' : dir'.WellNamed) (h : buildFileTree format dir = .ok tree)
    (h' : buildFileTree format dir' = .ok tree)
    (hinj : Set.InjOn format.blake3Hex
      {bytes | ∃ path, dir.IsFile path bytes ∨ dir'.IsFile path bytes})
    (hname : path.getLast? ≠ some storeManifestFile) (hfile : dir.IsFile path bytes) :
    dir'.IsFile path bytes := by
  have hlisted := (mem_buildFileTree h).mpr ⟨path, bytes, hfile, hname, rfl⟩
  obtain ⟨path', bytes', hfile', -, heq⟩ := (mem_buildFileTree h').mp hlisted
  have hpath := listedFile_path hnames hnames' hfile hfile' heq
  have hbytes := hinj ⟨path, Or.inl hfile⟩ ⟨path', Or.inr hfile'⟩
    (congrArg StoreManifestFile.blake3 heq)
  rw [hpath, hbytes]
  exact hfile'

/-- The regular files of two entries, of a kind of paths. -/
def SameFiles (kind : NodePath → Prop) (dir dir' : EntryDir) : Prop :=
  ∀ path bytes, kind path → (dir.IsFile path bytes ↔ dir'.IsFile path bytes)

theorem sameFiles_iff {tree : List StoreManifestFile} {data : List UInt8} (hnames : dir.WellNamed)
    (hnames' : dir'.WellNamed) (h : buildFileTree format dir = .ok tree)
    (h' : buildFileTree format dir' = .ok tree)
    (hinj : Set.InjOn format.blake3Hex
      {bytes | ∃ path, dir.IsFile path bytes ∨ dir'.IsFile path bytes})
    (hdata : dir.IsFile [storeManifestFile] data) (hdata' : dir'.IsFile [storeManifestFile] data) :
    SameFiles (fun _ => True) dir dir' ↔ SameFiles IsNestedManifest dir dir' := by
  refine ⟨fun hsame path bytes _ => hsame path bytes trivial, fun hnested path bytes _ => ?_⟩
  by_cases hname : path.getLast? = some storeManifestFile
  · by_cases htop : path = [storeManifestFile]
    · have hcontent {d : EntryDir} (hd : d.IsFile [storeManifestFile] data) :
          d.IsFile path bytes ↔ data = bytes := by
        rw [htop]
        unfold EntryDir.IsFile at hd ⊢
        rw [hd]
        exact ⟨fun heq => EntryNode.file.inj (Option.some.inj heq), fun heq => heq ▸ rfl⟩
      rw [hcontent hdata, hcontent hdata']
    · exact hnested path bytes ⟨hname, htop⟩
  · have hinj' : Set.InjOn format.blake3Hex
        {bytes | ∃ path, dir'.IsFile path bytes ∨ dir.IsFile path bytes} := by
      refine hinj.mono ?_
      rintro other ⟨p, hp⟩
      exact ⟨p, hp.symm⟩
    exact ⟨isFile_of_same_tree hnames hnames' h h' hinj hname,
      isFile_of_same_tree hnames' hnames h' h hinj' hname⟩

/-- A verified entry has exactly the files that are listed if and only if no file below the top
level has the name of the manifest; and of a change that keeps the manifest, only one of such files
is not reported. -/
theorem verified_lists_iff {package : PackageIdentity} {result : StoreManifest}
    (hnames : dir.WellNamed)
    (hverified : validateManifest format package (some dir) = .verified result) :
    ∃ data manifest, dir.IsFile [storeManifestFile] data ∧ format.fromSlice data = .ok manifest ∧
      (ListsExactly format dir manifest.blake3Tree ↔
        ∀ path bytes, dir.IsFile path bytes → ¬IsNestedManifest path) ∧
      ∀ dir' package' result', dir'.WellNamed → dir'.IsFile [storeManifestFile] data →
        Set.InjOn format.blake3Hex
          {bytes | ∃ path, dir.IsFile path bytes ∨ dir'.IsFile path bytes} →
        validateManifest format package' (some dir') = .verified result' →
        (SameFiles (fun _ => True) dir dir' ↔ SameFiles IsNestedManifest dir dir') := by
  obtain ⟨data, manifest, hdata, hmanifest, htree⟩ := validateManifest_verified hverified
  refine ⟨data, manifest, hdata, hmanifest, listsExactly_iff hnames htree, ?_⟩
  intro dir' package' result' hnames' hdata' hinj hverified'
  obtain ⟨other, manifest', hother, hmanifest', htree'⟩ := validateManifest_verified hverified'
  have hsame : other = data := by
    have hnodes := hother.symm.trans hdata'
    exact EntryNode.file.inj (Option.some.inj hnodes)
  rw [hsame, hmanifest] at hmanifest'
  rw [← Except.ok.inj hmanifest'] at htree'
  exact sameFiles_iff hnames hnames' htree htree' hinj hdata hdata'

end Files

/-! ## A file that nobody misses -/

def pkgEntry : EntryDir :=
  (EntryDir.put .empty ["package.json"] (.file pkgJson)).put [storeManifestFile]
    (.file (asBytes pkgManifestText))

def pkgEntryWith (path : NodePath) : EntryDir := pkgEntry.put path (.file (asBytes "added later"))

theorem verified_nested : ∃ result,
    validateManifest pkgFormat pkgIdentity (some pkgEntry) = .verified result ∧
    validateManifest pkgFormat pkgIdentity
      (some (pkgEntryWith ["lib", storeManifestFile])) = .verified result ∧
    ¬ListsExactly pkgFormat (pkgEntryWith ["lib", storeManifestFile]) pkgManifest.blake3Tree := by
  refine ⟨_, rfl, rfl, fun hlists => ?_⟩
  have hlisted := (hlists _).mpr ⟨["lib", storeManifestFile], _, rfl, by decide, rfl⟩
  have hpath := congrArg StoreManifestFile.path (List.mem_singleton.mp hlisted)
  exact absurd hpath (by decide)

theorem verified_lists_iff_demo :
    ListsExactly pkgFormat pkgEntry pkgManifest.blake3Tree := by
  have hrows : pkgEntry.rows = [(["package.json"], .file pkgJson),
      ([storeManifestFile], .file (asBytes pkgManifestText))] := rfl
  have hnames : pkgEntry.WellNamed := by
    unfold EntryDir.WellNamed
    rw [hrows]
    simp only [List.forall_mem_cons]
    refine ⟨⟨by decide, by decide, ?_⟩, ⟨by decide, by decide, ?_⟩, ?_⟩
    · exact fun _ hmem => absurd hmem List.not_mem_nil
    · exact fun _ hmem => absurd hmem List.not_mem_nil
    · exact fun _ hmem => absurd hmem List.not_mem_nil
  have hverified : ∃ result,
      validateManifest pkgFormat pkgIdentity (some pkgEntry) = .verified result := ⟨_, rfl⟩
  obtain ⟨result, hverified⟩ := hverified
  obtain ⟨data, manifest, -, hmanifest, hiff, -⟩ := verified_lists_iff hnames hverified
  obtain rfl : pkgManifest = manifest := Except.ok.inj hmanifest
  refine hiff.mpr fun path bytes hfile hnested => ?_
  have hmem := EntryDir.isFile_iff.mp hfile
  rw [hrows] at hmem
  rcases List.mem_cons.mp hmem with heq | hlast
  · obtain ⟨rfl, -⟩ := Prod.mk.inj heq
    exact absurd hnested.1 (by decide)
  · obtain ⟨rfl, -⟩ := Prod.mk.inj (List.mem_singleton.mp hlast)
    exact hnested.2 rfl

end Oath.Store
