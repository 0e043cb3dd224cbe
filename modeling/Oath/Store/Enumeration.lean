import Mathlib.Data.List.Sort
import Oath.Library.DirectoryTree
import Oath.Library.Table
import Oath.Store.EntryLayout

/-! What the content store keeps after a sequence of stores and removals, and what the three
walks over its directories find there; the files of one entry, and how they are verified against the
manifest among them. -/

namespace Oath.Store
open Registry

/-- A directory of the store by the names below its root. -/
abbrev StoreDir := List String

def storeManifestSchemaVersion : ℕ := 1

/-- The manifest without its file tree: the files below a package's directory are written
once, so that rebuilding the tree gives the recorded one. -/
structure StoreManifest where
  schemaVersion : ℕ
  name : String
  version : String
  lockIntegrity : Option String
  resolvedUrl : Option String
  packageJsonName : String
  packageJsonVersion : String
deriving DecidableEq, Repr

abbrev StoreTree := DirectoryTree String StoreManifest

inductive PackageVerification
  | verified (manifest : StoreManifest)
  | missing
  | corrupt (reason : String)
deriving DecidableEq, Repr

/-- The name and the version of an extracted `package.json`; neither is there when the
directory cannot be copied or the file cannot be read. -/
structure PackageJson where
  name : String
  version : String
deriving DecidableEq, Repr

section Manifests

def stripPrefix (head text : List Char) : Option (List Char) :=
  if head.isPrefixOf text then some (text.drop head.length) else none

def versionMatches (version packageJsonVersion : String) : Bool :=
  let packageVersion := (stripPrefix ['v'] packageJsonVersion.toList).getD packageJsonVersion.toList
  packageVersion = version.toList ||
    match stripPrefix version.toList packageVersion with
    | some suffix => suffix.head? = some '+' && suffix.length > 1
    | none => false

def buildManifest (name version : String) (resolvedUrl lockIntegrity : Option String)
    (extracted : Option PackageJson) : Except String StoreManifest :=
  match extracted with
  | none => .error "package store entry missing package.json"
  | some json =>
    if json.name ≠ name || !versionMatches version json.version then
      .error s!"package.json mismatch: expected {name}@{version}, got {json.name}@{json.version}"
    else .ok {
      schemaVersion := storeManifestSchemaVersion
      name := name
      version := version
      lockIntegrity := lockIntegrity
      resolvedUrl := resolvedUrl
      packageJsonName := json.name
      packageJsonVersion := json.version }

def verifyPackageAt (t : StoreTree) (name version : String)
    (resolvedUrl lockIntegrity : Option String) (dir : StoreDir) : PackageVerification :=
  if !t.isDir dir then .missing
  else match t.document dir with
    | none => .corrupt "missing store manifest"
    | some manifest =>
      if manifest.schemaVersion ≠ storeManifestSchemaVersion then
        .corrupt s!"unsupported store manifest schema {manifest.schemaVersion}"
      else if manifest.name ≠ name || manifest.version ≠ version then
        .corrupt (s!"manifest package mismatch: expected {name}@{version}, " ++
          s!"got {manifest.name}@{manifest.version}")
      else if lockIntegrity.isSome && manifest.lockIntegrity ≠ lockIntegrity then
        .corrupt "manifest lock integrity mismatch"
      else if resolvedUrl.isSome && manifest.resolvedUrl ≠ resolvedUrl then
        .corrupt "manifest resolved URL mismatch"
      else .verified manifest

end Manifests

section Operations

variable (store : ContentStore)

def nameComponent (name : String) : String := safePathComponent (replaceSlashes name)

def storeDir (name version : String) : StoreDir := [nameComponent name, safePathComponent version]

def variantDir (name version : String) : StoreDir :=
  [".variants", nameComponent name, safePathComponent version]

def variantHash (resolvedUrl lockIntegrity : Option String) : String :=
  store.blake3Hex (asBytes
    ("resolved=" ++ resolvedUrl.getD "" ++ "\nintegrity=" ++ lockIntegrity.getD ""))

def storeDirFor (name version : String) (resolvedUrl lockIntegrity : Option String) : StoreDir :=
  if resolvedUrl.isNone && lockIntegrity.isNone then storeDir name version
  else variantDir name version ++ [variantHash store resolvedUrl lockIntegrity]

/-- The stamp stands for the process's number and the time. -/
def tempDir (name version stamp : String) : StoreDir :=
  [".tmp", s!"{nameComponent name}-{safePathComponent version}-{stamp}"]

/-- The package is put together in a temporary directory, which is then renamed. -/
def rebuildPackageAt (name version : String) (resolvedUrl lockIntegrity : Option String)
    (extracted : Option PackageJson) (stamp : String) (dir : StoreDir) (t : StoreTree) :
    Except String StoreDir × StoreTree :=
  let t := (t.createDirAll dir.dropLast).createDirAll [".tmp"]
  let temp := tempDir name version stamp
  let t := if t.isDir temp then t.removeDirAll temp else t
  let t := t.createDirAll temp
  match buildManifest name version resolvedUrl lockIntegrity extracted with
  | .error reason => (.error reason, t.removeDirAll temp)
  | .ok manifest => (.ok dir, (t.write temp manifest).rename temp dir)

def storePackageAt (name version : String) (resolvedUrl lockIntegrity : Option String)
    (extracted : Option PackageJson) (stamp : String) (dir : StoreDir) (t : StoreTree) :
    Except String StoreDir × StoreTree :=
  let rebuild := rebuildPackageAt name version resolvedUrl lockIntegrity extracted stamp dir
  match verifyPackageAt t name version resolvedUrl lockIntegrity dir with
  | .verified _ => (.ok dir, t)
  | .missing => rebuild t
  | .corrupt _ => rebuild (if t.isDir dir then t.removeDirAll dir else t)

def removePackage (name version : String) (t : StoreTree) : StoreTree :=
  let dir := storeDir name version
  let t := if t.isDir dir then t.removeDirAll dir else t
  let variants := variantDir name version
  if t.isDir variants then t.removeDirAll variants else t

inductive StoreOperation
  | store (name version : String) (resolvedUrl lockIntegrity : Option String)
      (extracted : Option PackageJson) (stamp : String)
  | storeVariant (name version : String) (resolvedUrl lockIntegrity : Option String)
      (extracted : Option PackageJson) (stamp : String)
  | remove (name version : String)
deriving DecidableEq, Repr

def StoreOperation.apply (t : StoreTree) : StoreOperation → StoreTree
  | .store name version resolvedUrl lockIntegrity extracted stamp =>
    (storePackageAt name version resolvedUrl lockIntegrity extracted stamp
      (storeDir name version) t).2
  | .storeVariant name version resolvedUrl lockIntegrity extracted stamp =>
    (storePackageAt name version resolvedUrl lockIntegrity extracted stamp
      (storeDirFor store name version resolvedUrl lockIntegrity) t).2
  | .remove name version => removePackage name version t

def storeAfter (operations : List StoreOperation) : StoreTree :=
  operations.foldl (StoreOperation.apply store) DirectoryTree.empty

end Operations

section Walks

/-- `replace('+', "/")`. -/
def decodeName (component : String) : String :=
  String.ofList (component.toList.map fun c => if c = '+' then '/' else c)

def startsWithDot (text : String) : Bool := text.toList.head? = some '.'

def listPackages (t : StoreTree) : List (String × String) :=
  (t.readDir []).flatMap fun component =>
    let name := decodeName component
    if startsWithDot name then []
    else (t.readDir [component]).filterMap fun version =>
      if startsWithDot version then none else some (name, version)

structure Visit where
  name : String
  version : String
  dir : StoreDir
deriving DecidableEq, Repr

/-- The packages `cmd_scan` hands to the scanner. -/
def scanVisits (t : StoreTree) : List Visit :=
  (t.readDir []).flatMap fun component =>
    if !t.isDir [component] then []
    else (t.readDir [component]).filterMap fun version =>
      if !t.isDir [component, version] then none
      else some ⟨decodeName component, version, [component, version]⟩

/-- The directories `cmd_licenses` reads a `package.json` in. -/
def licenseVisits (t : StoreTree) : List StoreDir :=
  (t.readDir []).flatMap fun component =>
    if !t.isDir [component] then []
    else (t.readDir [component]).filterMap fun version =>
      if !t.isDir [component, version] then none else some [component, version]

/-- What is stored: every directory with a manifest, under the name and version it was stored
with. -/
def storedEntries (t : StoreTree) : List Visit :=
  t.directories.filterMap fun dir =>
    (t.document dir).map fun manifest => ⟨manifest.name, manifest.version, dir⟩

/-- All three walks find what is stored, each once. -/
structure Enumerates (t : StoreTree) : Prop where
  list : (listPackages t).Perm ((storedEntries t).map fun e => (e.name, e.version))
  scan : (scanVisits t).Perm (storedEntries t)
  licenses : (licenseVisits t).Perm ((storedEntries t).map Visit.dir)

end Walks

/-! ## The files of an entry -/

/-- The names below the directory. -/
abbrev NodePath := List String

inductive EntryNode
  | directory
  | file (bytes : List UInt8)
  | special
deriving DecidableEq, Repr

abbrev EntryDir := Table (Prod.fst : NodePath × EntryNode → NodePath)

namespace EntryDir

def node? (dir : EntryDir) (path : NodePath) : Option EntryNode := (dir.find? path).map Prod.snd

def put (dir : EntryDir) (path : NodePath) (node : EntryNode) : EntryDir := dir.upsert (path, node)

def remove (dir : EntryDir) (path : NodePath) : EntryDir := dir.delete fun row => row.1 = path

/-- There, and nothing below it. -/
def isLeaf (dir : EntryDir) (path : NodePath) : Bool :=
  (dir.node? path).isSome && dir.rows.all fun row => row.1 = path || !path.isPrefixOf row.1

def isEmpty (dir : EntryDir) : Bool := dir.rows.isEmpty

end EntryDir

structure StoreManifestFile where
  path : String
  bytes : ℕ
  blake3 : String
deriving DecidableEq, Repr

/-- The manifest with its file tree. -/
structure TreeManifest extends StoreManifest where
  fileCount : ℕ
  byteCount : ℕ
  blake3Tree : List StoreManifestFile
deriving DecidableEq, Repr

def storeManifestFile : String := ".oath-store-manifest.json"

/-- The hash, and how the two documents of an entry are read and written. -/
structure EntryFormat where
  blake3Hex : List UInt8 → String
  fromSlice : List UInt8 → Except String TreeManifest
  toVecPretty : TreeManifest → List UInt8
  packageJson : List UInt8 → Option PackageJson

/-- What the calls are for. -/
structure PackageIdentity where
  name : String
  version : String
  resolvedUrl : Option String
  lockIntegrity : Option String
deriving DecidableEq, Repr

section Verification
variable (format : EntryFormat)

/-- A file named like the manifest is not one of the files, at any depth. -/
def treeFile (row : NodePath × EntryNode) : Except String (Option StoreManifestFile) :=
  let relative := String.intercalate "/" row.1
  match row.2 with
  | .directory => .ok none
  | .special => .error ("refusing special file in store: " ++ relative)
  | .file bytes =>
    if row.1.getLast? = some storeManifestFile then .ok none
    else .ok (some { path := relative, bytes := bytes.length, blake3 := format.blake3Hex bytes })

def buildFileTree (dir : EntryDir) : Except String (List StoreManifestFile) := do
  let files ← dir.rows.mapM (treeFile format)
  .ok ((files.filterMap id).insertionSort fun a b => a.path ≤ b.path)

def extractedPackageJson (dir : EntryDir) : Option PackageJson :=
  match dir.node? ["package.json"] with
  | some (.file bytes) => format.packageJson bytes
  | _ => none

def buildTreeManifest (package : PackageIdentity) (dir : EntryDir) : Except String TreeManifest := do
  let manifest ← buildManifest package.name package.version package.resolvedUrl
    package.lockIntegrity (extractedPackageJson format dir)
  let blake3Tree ← buildFileTree format dir
  .ok {
    toStoreManifest := manifest
    fileCount := blake3Tree.length
    byteCount := (blake3Tree.map StoreManifestFile.bytes).sum
    blake3Tree }

/-- The checks on the manifest itself, then the files it lists. -/
def validateTree (package : PackageIdentity) (manifest : TreeManifest) (dir : EntryDir) :
    PackageVerification :=
  if manifest.schemaVersion ≠ storeManifestSchemaVersion then
    .corrupt s!"unsupported store manifest schema {manifest.schemaVersion}"
  else if manifest.name ≠ package.name || manifest.version ≠ package.version then
    .corrupt (s!"manifest package mismatch: expected {package.name}@{package.version}, " ++
      s!"got {manifest.name}@{manifest.version}")
  else if package.lockIntegrity.isSome && manifest.lockIntegrity ≠ package.lockIntegrity then
    .corrupt "manifest lock integrity mismatch"
  else if package.resolvedUrl.isSome && manifest.resolvedUrl ≠ package.resolvedUrl then
    .corrupt "manifest resolved URL mismatch"
  else
    match buildTreeManifest format { package with
      resolvedUrl := manifest.resolvedUrl, lockIntegrity := manifest.lockIntegrity } dir with
    | .error reason => .corrupt reason
    | .ok rebuilt =>
      if rebuilt.packageJsonName ≠ manifest.packageJsonName ||
          rebuilt.packageJsonVersion ≠ manifest.packageJsonVersion then
        .corrupt "package.json name/version changed"
      else if rebuilt.fileCount ≠ manifest.fileCount || rebuilt.byteCount ≠ manifest.byteCount ||
          rebuilt.blake3Tree ≠ manifest.blake3Tree then
        .corrupt "BLAKE3 file tree mismatch"
      else .verified manifest.toStoreManifest

def validateManifest (package : PackageIdentity) : Option EntryDir → PackageVerification
  | none => .missing
  | some dir =>
    match dir.node? [storeManifestFile] with
    | none => .corrupt "missing store manifest"
    | some (.file data) =>
      match format.fromSlice data with
      | .error error => .corrupt ("malformed store manifest: " ++ error)
      | .ok manifest => validateTree format package manifest dir
    | some _ => .corrupt "could not read manifest"

end Verification

def PackageVerification.isVerified : PackageVerification → Bool
  | .verified _ => true
  | _ => false

/-- An empty directory has no manifest. -/
theorem not_verified_of_isEmpty {format : EntryFormat} {package : PackageIdentity} {dir : EntryDir}
    (h : dir.isEmpty) : (validateManifest format package (some dir)).isVerified = false := by
  have hrows : dir.rows = [] := List.isEmpty_iff.mp h
  have hnone : dir.node? [storeManifestFile] = none := by
    unfold EntryDir.node? Table.find?
    rw [hrows]
    rfl
  rw [validateManifest, hnone]
  rfl

end Oath.Store
