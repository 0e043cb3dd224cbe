import Oath.Contracts.Decode
import Oath.Library.Pieces
import Oath.Library.Replace
import Oath.Resolve.Placement

/-! The lockfile: how it is made of a package graph, its JSON value, the check against the root
manifest, and the way back to a package graph. The entry of a node whose key is its own name and
version has no name: it is read from the tarball address, or else from the key. -/

namespace Oath.Resolve
open Contracts

def lockfileVersion : UInt32 := 2

structure LockEntry where
  name : Option String
  version : String
  resolved : String
  integrity : Option String
  dependencies : OrderedMap String String
  dev : Bool
  optional : Bool
  hasInstallScript : Bool
  aliasName : Option String
  peerDependencies : OrderedMap String String
  resolvedPeers : OrderedMap String String
deriving DecidableEq

structure Lockfile where
  lockfileVersion : UInt32
  name : String
  version : String
  roots : List String
  rootDependencies : OrderedMap String String
  rootDevDependencies : OrderedMap String String
  packages : OrderedMap String LockEntry
deriving DecidableEq

def canonicalKey (node : DepNode) : String := node.name ++ "@" ++ node.version

def lockEntry (key : String) (node : DepNode) : LockEntry where
  name := if key ≠ canonicalKey node then some node.name else none
  version := node.version
  resolved := node.resolved
  integrity := node.integrity
  dependencies := node.dependencies
  dev := node.dev
  optional := node.optional
  hasInstallScript := node.hasInstallScript
  aliasName := node.aliasName
  peerDependencies := node.peerDependencies
  resolvedPeers := node.resolvedPeers

def Lockfile.fromGraphWithManifest (graph : DepGraph) (projectName projectVersion : String)
    (rootDependencies rootDevDependencies : OrderedMap String String) : Lockfile where
  lockfileVersion := Resolve.lockfileVersion
  name := projectName
  version := projectVersion
  -- sorted and without repetitions
  roots := (OrderedMap.ofList (graph.roots.map fun root => (root, ()))).keys
  rootDependencies
  rootDevDependencies
  packages := graph.nodes.map lockEntry

/-- True when the lockfile was generated from this root manifest. -/
def Lockfile.matchesManifest (lockfile : Lockfile)
    (dependencies devDependencies : OrderedMap String String) : Bool :=
  lockfile.rootDependencies = dependencies && lockfile.rootDevDependencies = devDependencies

/-! ## The JSON value -/

def LockEntry.toValue (entry : LockEntry) : Value :=
  .json (Value.fieldUnless entry.name.isNone "name" (Value.optString entry.name)
    ++ [("version", .string entry.version), ("resolved", .string entry.resolved)]
    ++ Value.fieldUnless entry.integrity.isNone "integrity" (Value.optString entry.integrity)
    ++ Value.fieldUnless entry.dependencies.rows.isEmpty "dependencies"
      (.stringMap entry.dependencies)
    ++ Value.fieldUnless (!entry.dev) "dev" (.bool entry.dev)
    ++ Value.fieldUnless (!entry.optional) "optional" (.bool entry.optional)
    ++ Value.fieldUnless (!entry.hasInstallScript) "hasInstallScript" (.bool entry.hasInstallScript)
    ++ Value.fieldUnless entry.aliasName.isNone "alias" (Value.optString entry.aliasName)
    ++ Value.fieldUnless entry.peerDependencies.rows.isEmpty "peerDependencies"
      (.stringMap entry.peerDependencies)
    ++ Value.fieldUnless entry.resolvedPeers.rows.isEmpty "resolvedPeers"
      (.stringMap entry.resolvedPeers))

def Lockfile.toValue (lockfile : Lockfile) : Value :=
  .json ([("lockfileVersion", .int lockfile.lockfileVersion.toNat), ("name", .string lockfile.name),
      ("version", .string lockfile.version)]
    ++ Value.fieldUnless lockfile.roots.isEmpty "roots" (Value.strings lockfile.roots)
    ++ Value.fieldUnless lockfile.rootDependencies.rows.isEmpty "rootDependencies"
      (.stringMap lockfile.rootDependencies)
    ++ Value.fieldUnless lockfile.rootDevDependencies.rows.isEmpty "rootDevDependencies"
      (.stringMap lockfile.rootDevDependencies)
    ++ [("packages", .ofMap LockEntry.toValue lockfile.packages)])

def LockEntry.ofValue? (value : Value) : Option LockEntry := do
  let value ← value.record? ["name", "version", "resolved", "integrity", "dependencies", "dev",
    "optional", "hasInstallScript", "alias", "peerDependencies", "resolvedPeers"] 4
  let name ← value.fieldOr "name" (Value.option? Value.asStr?) none
  let version ← value.field? "version" Value.asStr?
  let resolved ← value.field? "resolved" Value.asStr?
  let integrity ← value.fieldOr "integrity" (Value.option? Value.asStr?) none
  let dependencies ← value.fieldOr "dependencies" Value.stringMap? .empty
  let dev ← value.fieldOr "dev" Value.asBool? false
  let optional ← value.fieldOr "optional" Value.asBool? false
  let hasInstallScript ← value.fieldOr "hasInstallScript" Value.asBool? false
  let aliasName ← value.fieldOr "alias" (Value.option? Value.asStr?) none
  let peerDependencies ← value.fieldOr "peerDependencies" Value.stringMap? .empty
  let resolvedPeers ← value.fieldOr "resolvedPeers" Value.stringMap? .empty
  some ⟨name, version, resolved, integrity, dependencies, dev, optional, hasInstallScript,
    aliasName, peerDependencies, resolvedPeers⟩

def Lockfile.ofValue? (value : Value) : Option Lockfile := do
  let value ← value.record? ["lockfileVersion", "name", "version", "roots", "rootDependencies",
    "rootDevDependencies", "packages"] 7
  let lockfileVersion ← value.field? "lockfileVersion" Value.asU32?
  let name ← value.field? "name" Value.asStr?
  let version ← value.field? "version" Value.asStr?
  let roots ← value.fieldOr "roots" Value.strings? []
  let rootDependencies ← value.fieldOr "rootDependencies" Value.stringMap? .empty
  let rootDevDependencies ← value.fieldOr "rootDevDependencies" Value.stringMap? .empty
  let packages ← value.field? "packages" (Value.mapOf? LockEntry.ofValue?)
  some ⟨lockfileVersion, name, version, roots, rootDependencies, rootDevDependencies, packages⟩

theorem LockEntry.ofValue?_toValue (entry : LockEntry) : ofValue? entry.toValue = some entry := by
  have hrecord : entry.toValue.record? ["name", "version", "resolved", "integrity",
    "dependencies", "dev", "optional", "hasInstallScript", "alias", "peerDependencies",
    "resolvedPeers"] 4 = some entry.toValue := rfl
  unfold ofValue?
  rw [hrecord]
  unfold toValue
  simp only [Option.bind_eq_bind, Option.bind_some, Value.fieldOr, Value.field?, Value.get?_json,
    List.reverse_append, List.find?_append, Value.find?_fieldUnless]
  simp [Value.read_optString, Value.read_bool, Value.read_stringMap]

theorem Lockfile.ofValue?_toValue (lockfile : Lockfile) :
    ofValue? lockfile.toValue = some lockfile := by
  have hrecord : lockfile.toValue.record? ["lockfileVersion", "name", "version", "roots",
    "rootDependencies", "rootDevDependencies", "packages"] 7 = some lockfile.toValue := rfl
  have hversion := Value.asU32?_int lockfile.lockfileVersion
  have hpackages := Value.mapOf?_ofMap LockEntry.ofValue?_toValue lockfile.packages
  unfold ofValue?
  rw [hrecord]
  unfold toValue
  simp only [Option.bind_eq_bind, Option.bind_some, Value.fieldOr, Value.field?, Value.get?_json,
    List.reverse_append, List.find?_append, Value.find?_fieldUnless]
  simp [Value.read_strings, Value.read_stringMap, hversion, hpackages]

theorem Lockfile.toValue_injective : Function.Injective Lockfile.toValue := by
  intro a b h
  have hread := congrArg ofValue? h
  rw [ofValue?_toValue, ofValue?_toValue] at hread
  exact Option.some.inj hread

/-! ## Back to a graph -/

/-! ## The name of an entry -/

/-- A scoped name has its scope written with a slash in front of the last part. -/
def Scoped (name : List Char) : Prop := name.head? = some '@' ∧ '/' ∈ name

instance (name : List Char) : Decidable (Scoped name) := inferInstanceAs (Decidable (_ ∧ _))

/-- `replace("%2f", "/").replace("%2F", "/")` -/
def decodeSlashes (text : List Char) : List Char :=
  Replace.replaceAll ['%', '2', 'F'] ['/'] (Replace.replaceAll ['%', '2', 'f'] ['/'] text)

/-- The path of an address, without the query and the fragment. -/
def addressPath (resolved : String) : List Char :=
  resolved.toList.takeWhile fun c => c ≠ '?' ∧ c ≠ '#'

/-- The name in the part of a path that stands before the tarball. -/
def addressName (beforeTarball : List Char) : List Char :=
  let last := decodeSlashes (Pieces.lastPiece '/' beforeTarball)
  if Scoped last then last
  else
    let previous := Pieces.lastPiece '/' (Pieces.front '/' beforeTarball)
    if previous.head? = some '@' then previous ++ '/' :: last else last

def npmTarballPackageName (resolved : String) : Option (List Char) :=
  (Pieces.before ['/', '-', '/'] (addressPath resolved)).map addressName

/-- The characters of the first bytes, none when the last of the bytes is inside a character. -/
def sliceTo : ℕ → List Char → Option (List Char)
  | 0, _ => some []
  | _ + 1, [] => none
  | bytes + 1, c :: rest =>
    if c.utf8Size ≤ bytes + 1 then (sliceTo (bytes + 1 - c.utf8Size) rest).map (c :: ·) else none

def byteLength (text : List Char) : ℕ := (text.map Char.utf8Size).sum

/-- The name of the package at a location, from what stands after its last `node_modules/`. No name:
the slice is not on a character boundary, and the program ends. -/
def moduleName (rest : List Char) : Option (List Char) :=
  if rest.head? = some '@' ∧ '/' ∈ rest then
    let scope := rest.tail.takeWhile (· ≠ '/')
    let package := (rest.tail.drop (scope.length + 1)).takeWhile (· ≠ '/')
    -- one byte for the mark or the slash, not two
    sliceTo (byteLength scope + 1 + byteLength package) rest
  else some (rest.takeWhile (· ≠ '/'))

def lockKeyPackageName (key : List Char) : Option (List Char) :=
  match Pieces.after "node_modules/".toList key with
  | some rest => moduleName rest
  | none => some (if Pieces.front '@' key ≠ [] then Pieces.front '@' key else key)

/-- The package name to verify in the content store. -/
def LockEntry.packageNameForKey (entry : LockEntry) (key : String) : Option String :=
  match entry.name with
  | some name => some name
  | none => match npmTarballPackageName entry.resolved with
    | some name => some (String.ofList name)
    | none => (lockKeyPackageName key.toList).map String.ofList

/-! ## The graph -/

def LockEntry.toNode (entry : LockEntry) (name : String) : DepNode where
  name
  aliasName := entry.aliasName
  version := entry.version
  resolved := entry.resolved
  integrity := entry.integrity
  dependencies := entry.dependencies
  hasInstallScript := entry.hasInstallScript
  dev := entry.dev
  optional := entry.optional
  peerDependencies := entry.peerDependencies
  optionalPeers := .empty
  resolvedPeers := entry.resolvedPeers

/-- The nodes by key, with those of the entries. No nodes: an entry has no name. -/
def lockNodes : List (String × LockEntry) → OrderedMap String DepNode →
    Option (OrderedMap String DepNode)
  | [], nodes => some nodes
  | (key, entry) :: rest, nodes =>
    match entry.packageNameForKey key with
    | none => none
    | some name => lockNodes rest (nodes.insert key (entry.toNode name))

def Lockfile.toGraph (lockfile : Lockfile) : Option DepGraph :=
  (lockNodes lockfile.packages.rows .empty).map fun nodes => { nodes, roots := lockfile.roots }

/-! ## The nodes that come back -/

def EntryRow (row : String × LockEntry) (added : String × DepNode) : Prop :=
  ∃ name, row.2.packageNameForKey row.1 = some name ∧ added = (row.1, row.2.toNode name)

theorem lockNodes_eq_some {rows : List (String × LockEntry)}
    {nodes result : OrderedMap String DepNode} :
    lockNodes rows nodes = some result ↔ ∃ added, List.Forall₂ EntryRow rows added ∧
      result = added.foldl (fun nodes row => nodes.insert row.1 row.2) nodes := by
  induction rows generalizing nodes with
  | nil =>
    simp only [lockNodes, List.forall₂_nil_left_iff, exists_eq_left, List.foldl_nil]
    exact Option.some_inj.trans eq_comm
  | cons row rest ih =>
    obtain ⟨key, entry⟩ := row
    constructor
    · intro h
      cases hname : entry.packageNameForKey key with
      | none =>
        rw [lockNodes, hname] at h
        cases h
      | some name =>
        rw [lockNodes, hname] at h
        obtain ⟨added, hadded, rfl⟩ := ih.mp h
        exact ⟨_ :: added, .cons ⟨name, hname, rfl⟩ hadded, rfl⟩
    · rintro ⟨added, hadded, rfl⟩
      obtain ⟨first, more, ⟨name, hname, rfl⟩, hmore, rfl⟩ := List.forall₂_cons_left_iff.mp hadded
      rw [lockNodes, hname]
      exact ih.mpr ⟨more, hmore, rfl⟩

theorem keys_of_entryRows {rows : List (String × LockEntry)} {added : List (String × DepNode)}
    (h : List.Forall₂ EntryRow rows added) : added.map Prod.fst = rows.map Prod.fst := by
  induction h with
  | nil => rfl
  | cons hrow _ ih =>
    obtain ⟨name, -, rfl⟩ := hrow
    rw [List.map_cons, List.map_cons, ih]

/-- The rows of the graph are those of the entries, one for one. -/
theorem Lockfile.toGraph_eq_some {lockfile : Lockfile} {graph : DepGraph} :
    lockfile.toGraph = some graph ↔
      List.Forall₂ EntryRow lockfile.packages.rows graph.nodes.rows ∧
        graph.roots = lockfile.roots := by
  unfold toGraph
  rw [Option.map_eq_some_iff]
  constructor
  · rintro ⟨nodes, hnodes, rfl⟩
    obtain ⟨added, hadded, rfl⟩ := lockNodes_eq_some.mp hnodes
    have hsorted : (added.map Prod.fst).Pairwise (· < ·) := by
      rw [keys_of_entryRows hadded]
      exact lockfile.packages.sorted
    have hrows := congrArg OrderedMap.rows (OrderedMap.ofList_rows ⟨added, hsorted⟩)
    refine ⟨?_, rfl⟩
    change List.Forall₂ EntryRow lockfile.packages.rows (OrderedMap.ofList added).rows
    rw [hrows]
    exact hadded
  · rintro ⟨hrows, hroots⟩
    have hnodes : lockNodes lockfile.packages.rows .empty =
        some (OrderedMap.ofList graph.nodes.rows) := lockNodes_eq_some.mpr ⟨_, hrows, rfl⟩
    refine ⟨_, hnodes, ?_⟩
    change ({ nodes := OrderedMap.ofList graph.nodes.rows, roots := lockfile.roots } : DepGraph) =
      graph
    rw [OrderedMap.ofList_rows, ← hroots]

/-! ## The same graph -/

/-- The nodes agree in all that an entry has of them. -/
structure SameNode (a b : DepNode) : Prop where
  name : a.name = b.name
  aliasName : a.aliasName = b.aliasName
  version : a.version = b.version
  resolved : a.resolved = b.resolved
  integrity : a.integrity = b.integrity
  dependencies : a.dependencies = b.dependencies
  dev : a.dev = b.dev
  optional : a.optional = b.optional
  peerDependencies : a.peerDependencies = b.peerDependencies
  resolvedPeers : a.resolvedPeers = b.resolvedPeers

structure SameGraph (a b : DepGraph) : Prop where
  roots : ∀ root, root ∈ a.roots ↔ root ∈ b.roots
  nodes : List.Forall₂ (fun row row' => row.1 = row'.1 ∧ SameNode row.2 row'.2)
    a.nodes.rows b.nodes.rows

theorem mem_fromGraph_roots {graph : DepGraph} {projectName projectVersion root : String}
    {deps devDeps : OrderedMap String String} :
    root ∈ (Lockfile.fromGraphWithManifest graph projectName projectVersion deps devDeps).roots ↔
      root ∈ graph.roots := by
  change root ∈ (OrderedMap.ofList (graph.roots.map fun root => (root, ()))).keys ↔ _
  rw [OrderedMap.mem_keys, OrderedMap.find?_ofList, Option.isSome_map, List.find?_isSome]
  simp

/-- The name of the node is read back from its entry. -/
def NameKept (row : String × DepNode) : Prop :=
  (lockEntry row.1 row.2).packageNameForKey row.1 = some row.2.name

/-- What an entry does not have is lost: the names of the optional peers. -/
def rereadRow (row : String × DepNode) : String × DepNode :=
  (row.1, (lockEntry row.1 row.2).toNode row.2.name)

theorem sameNode_reread (row : String × DepNode) : SameNode row.2 (rereadRow row).2 where
  name := rfl
  aliasName := rfl
  version := rfl
  resolved := rfl
  integrity := rfl
  dependencies := rfl
  dev := rfl
  optional := rfl
  peerDependencies := rfl
  resolvedPeers := rfl

/-- A graph comes back from its lockfile exactly when every name does. -/
theorem toGraph_fromGraph_iff {graph : DepGraph} {projectName projectVersion : String}
    {deps devDeps : OrderedMap String String} :
    (∃ back, (Lockfile.fromGraphWithManifest graph projectName projectVersion deps
        devDeps).toGraph = some back ∧ SameGraph graph back) ↔
      ∀ row ∈ graph.nodes.rows, NameKept row := by
  constructor
  · rintro ⟨back, hback, hsame⟩
    obtain ⟨hrows, -⟩ := Lockfile.toGraph_eq_some.mp hback
    have hentries : List.Forall₂ (fun row added => EntryRow (row.1, lockEntry row.1 row.2) added)
        graph.nodes.rows back.nodes.rows := List.forall₂_map_left_iff.mp hrows
    have hkept : List.Forall₂ (fun row _ => NameKept row ∧ True) graph.nodes.rows
        back.nodes.rows := by
      refine hentries.mp (fun row added hentry hrow => ?_) hsame.nodes
      obtain ⟨name, hname, rfl⟩ := hentry
      have heq : row.2.name = name := hrow.2.name
      rw [← heq] at hname
      exact ⟨hname, trivial⟩
    exact ((List.forall₂_and_left _ _).mp hkept).1
  · intro hkept
    refine ⟨{ nodes := graph.nodes.map fun key node => (rereadRow (key, node)).2
              roots := _ }, Lockfile.toGraph_eq_some.mpr ⟨?_, rfl⟩, ⟨?_, ?_⟩⟩
    · refine List.forall₂_map_left_iff.mpr (List.forall₂_map_right_iff.mpr ?_)
      exact List.forall₂_same.mpr fun row hrow => ⟨row.2.name, hkept row hrow, rfl⟩
    · exact fun root => mem_fromGraph_roots.symm
    · refine List.forall₂_map_right_iff.mpr (List.forall₂_same.mpr fun row _ => ?_)
      exact ⟨rfl, sameNode_reread row⟩

end Oath.Resolve
