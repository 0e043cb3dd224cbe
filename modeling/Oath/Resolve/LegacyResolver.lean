import Mathlib.Data.Prod.Lex
import Oath.Library.Pieces
import Oath.Resolve.Placement

/-! The former resolver: it visits the dependencies level by level and then leads every edge to a
node of the graph. The maps of a packument have their rows in any order. -/

namespace Oath.Resolve
open Registry

abbrev Rows (Value : Type) := Table (Prod.fst : String × Value → String)

def Rows.get? {Value : Type} (rows : Rows Value) (key : String) : Option Value :=
  (rows.find? key).map Prod.snd

/-! ## Packuments -/

structure VersionInfo where
  dependencies : Rows String
  optionalDependencies : Rows String
  peerDependencies : Rows String
  /-- Whether a peer is optional. -/
  peerDependenciesMeta : Rows Bool
  os : List String
  cpu : List String
  tarball : String
  integrity : Option String
  hasInstallScript : Bool

structure Packument where
  name : String
  distTags : Rows String
  versions : Rows VersionInfo

/-- The crate `node_semver`. What does not count for the order is no part of a version. -/
structure Semver (Version Range : Type) where
  parseVersion : String → Option Version
  parseRange : String → Option Range
  satisfies : Range → Version → Bool

/-- The name and the version behind `npm:`. -/
def parseAliasSpec (specifier : String) : Option (String × String) :=
  if !beginsWith specifier "npm:" then none
  else
    match specifier.toList.drop 4 with
    | '@' :: stripped =>
      if '@' ∈ stripped then
        some (String.ofList ('@' :: stripped.takeWhile (· ≠ '@')),
          String.ofList ((stripped.dropWhile (· ≠ '@')).drop 1))
      else some (String.ofList ('@' :: stripped), "latest")
    | rest =>
      if '@' ∈ rest ∧ Pieces.front '@' rest ≠ [] then
        some (String.ofList (Pieces.front '@' rest), String.ofList (Pieces.lastPiece '@' rest))
      else some (String.ofList rest, "latest")

/-- What `resolve_version` and the fix-up of the edges take for the version. -/
def versionSpec (specifier : String) : String :=
  match parseAliasSpec specifier with
  | some (_, version) => version
  | none => specifier

section Versions
variable {Version Range : Type} [LinearOrder Version] (semver : Semver Version Range)

def highestVersion (packument : Packument) (range : Range) : Option (String × VersionInfo) :=
  let candidates := packument.versions.rows.filterMap fun row =>
    match semver.parseVersion row.1 with
    | some version => if semver.satisfies range version then some (row, version) else none
    | none => none
  ((candidates.mergeSort fun a b => a.2 ≤ b.2).getLast?).map Prod.fst

/-- Why there is none is only a cause behind the error of the resolver. -/
def resolveVersion (packument : Packument) (specifier : String) : Option (String × VersionInfo) :=
  let specifier := versionSpec specifier
  let tagged := (packument.distTags.get? specifier).bind fun version =>
    (packument.versions.get? version).map fun info => (version, info)
  let exactly := (packument.versions.get? specifier).map fun info => (specifier, info)
  (tagged.or exactly).or ((semver.parseRange specifier).bind (highestVersion semver packument))

end Versions

/-! ## Platforms -/

structure Platform where
  os : String
  cpu : String

def compatible (listed : List String) (current : String) : Bool :=
  if listed.isEmpty then true
  else if listed.any (beginsWith · "!") then !listed.contains ("!" ++ current)
  else listed.contains current

def isPlatformCompatible (platform : Platform) (os cpu : List String) : Bool :=
  compatible os platform.os && compatible cpu platform.cpu

/-! ## Visits -/

structure ResolveOptions where
  includeDev : Bool
  includeOptional : Bool
  maxDepth : ℕ

structure PendingDep where
  name : String
  specifier : String
  depth : ℕ
  dev : Bool
  optional : Bool
  aliasName : Option String

/-- What a visit finds: a version in the registry, or a package of a git repository. -/
structure Package where
  name : String
  version : String
  resolved : String
  integrity : Option String
  dependencies : Rows String
  optionalDependencies : Rows String
  peerDependencies : Rows String
  optionalPeers : List String
  os : List String
  cpu : List String
  hasInstallScript : Bool

structure Resolver (Version Range : Type) where
  semver : Semver Version Range
  registry : String → Option Packument
  /-- `resolve_git_spec`: it has no platforms and no peers. -/
  git : String → Option Package
  /-- Whether the tarball of a git package is kept. -/
  saveTarball : Package → Bool
  platform : Platform
  options : ResolveOptions

def isGitSpec (spec : String) : Bool :=
  ["github:", "gitlab:", "bitbucket:", "git+https://", "git+ssh://", "ssh://", "git://"].any
    (beginsWith spec)

def pendingOf (name spec : String) (depth : ℕ) (dev optional : Bool) : PendingDep :=
  match parseAliasSpec spec with
  | some (real, version) => ⟨real, version, depth, dev, optional, some name⟩
  | none => ⟨name, spec, depth, dev, optional, none⟩

def PendingDep.installName (pending : PendingDep) : String := pending.aliasName.getD pending.name

def graphKey (name version : String) : String := name ++ "@" ++ version

/-- The edges have the specifications of their package until they are fixed up. -/
structure ResolveState where
  nodes : OrderedMap String DepNode
  roots : List String
  resolved : List String

section Resolve
variable {Version Range : Type} [LinearOrder Version] (r : Resolver Version Range)

def packageOf (name version : String) (info : VersionInfo) : Package where
  name
  version
  resolved := info.tarball
  integrity := info.integrity
  dependencies := info.dependencies
  optionalDependencies := info.optionalDependencies
  peerDependencies := info.peerDependencies
  optionalPeers := (info.peerDependenciesMeta.rows.filter Prod.snd).map Prod.fst
  os := info.os
  cpu := info.cpu
  hasInstallScript := info.hasInstallScript

def findPackage (pending : PendingDep) : Except String Package :=
  if isGitSpec pending.specifier then
    match r.git pending.specifier with
    | none => .error ("resolving git dep " ++ pending.name ++ "@" ++ pending.specifier)
    | some package => .ok package
  else
    match r.registry pending.name with
    | none => .error ("failed to fetch packument for " ++ pending.name)
    | some packument =>
      match resolveVersion r.semver packument pending.specifier with
      | none => .error ("resolving " ++ pending.name ++ "@" ++ pending.specifier)
      | some (version, info) => .ok (packageOf pending.name version info)

/-- Of a name that is listed twice the optional specification stays. -/
def nodeDeps (package : Package) : OrderedMap String String :=
  .ofList (package.dependencies.rows ++
    if r.options.includeOptional then package.optionalDependencies.rows else [])

def childrenOf (pending : PendingDep) (package : Package) : List PendingDep :=
  (package.dependencies.rows.map fun (name, spec) =>
      pendingOf name spec (pending.depth + 1) pending.dev false) ++
    if r.options.includeOptional then package.optionalDependencies.rows.map fun (name, spec) =>
      pendingOf name spec (pending.depth + 1) pending.dev true
    else []

def visitedNode (pending : PendingDep) (package : Package) : DepNode where
  name := package.name
  aliasName := pending.aliasName
  version := package.version
  resolved := package.resolved
  integrity := package.integrity
  dependencies := nodeDeps r package
  hasInstallScript := package.hasInstallScript
  dev := pending.dev
  optional := pending.optional
  peerDependencies := .ofList package.peerDependencies.rows
  optionalPeers := .ofList (package.optionalPeers.map fun name => (name, ()))
  resolvedPeers := .empty

def packageKey (pending : PendingDep) (package : Package) : String :=
  graphKey pending.installName package.version

def isSkipped (pending : PendingDep) (package : Package) : Bool :=
  pending.optional && !isGitSpec pending.specifier &&
    !isPlatformCompatible r.platform package.os package.cpu

def insertNode (pending : PendingDep) (package : Package) (s : ResolveState) : ResolveState where
  nodes :=
    if isSkipped r pending package then s.nodes
    else s.nodes.insert (packageKey pending package) (visitedNode r pending package)
  roots := if pending.depth = 0 then s.roots ++ [packageKey pending package] else s.roots
  resolved := packageKey pending package :: s.resolved

/-- One dependency of a level, and what it adds to the next one. -/
def visit (pending : PendingDep) (s : ResolveState) :
    Except String (ResolveState × List PendingDep) :=
  if r.options.maxDepth < pending.depth then .ok (s, [])
  else match findPackage r pending with
    | .error message => if pending.optional then .ok (s, []) else .error message
    | .ok package =>
      if packageKey pending package ∈ s.resolved then .ok (s, [])
      else if isSkipped r pending package then .ok (insertNode r pending package s, [])
      else if isGitSpec pending.specifier && !r.saveTarball package && !pending.optional then
        .error ("resolving git dep " ++ pending.name ++ "@" ++ pending.specifier)
      else .ok (insertNode r pending package s, childrenOf r pending package)

def visitLevel : List PendingDep → ResolveState → Except String (ResolveState × List PendingDep)
  | [], s => .ok (s, [])
  | pending :: level, s => do
    let (s, children) ← visit r pending s
    let (s, next) ← visitLevel level s
    .ok (s, children ++ next)

/-- One level for each depth. -/
def visitLevels : ℕ → List PendingDep → ResolveState → Except String ResolveState
  | 0, _, s => .ok s
  | depths + 1, level, s =>
    if level.isEmpty then .ok s
    else do
      let (s, next) ← visitLevel r level s
      visitLevels depths next s

def rootLevel (dependencies devDependencies : Rows String) : List PendingDep :=
  (dependencies.rows.map fun (name, spec) => pendingOf name spec 0 false false) ++
    if r.options.includeDev then
      devDependencies.rows.map fun (name, spec) => pendingOf name spec 0 true false
    else []

/-! ## Edges -/

def goesBy (node : DepNode) (name : String) : Bool :=
  node.aliasName = some name || node.name = name

/-- A specification that is no range admits every version. -/
def admitted? (semver : Semver Version Range) (spec version : String) : Option Version :=
  (semver.parseVersion version).filter fun version =>
    match semver.parseRange (versionSpec spec) with
    | some range => semver.satisfies range version
    | none => true

def candidate? (semver : Semver Version Range) (name spec : String)
    (row : String × DepNode) : Option (Lex (Version × String)) :=
  if goesBy row.2 name then
    (admitted? semver spec row.2.version).map fun version => toLex (version, row.1)
  else none

/-- The nodes that go by the name, where the specification admits their version. -/
def candidates (semver : Semver Version Range) (nodes : OrderedMap String DepNode)
    (name spec : String) : List (Lex (Version × String)) :=
  nodes.rows.filterMap (candidate? semver name spec)

/-- The highest resolved node. -/
def findMatchingKey (semver : Semver Version Range) (nodes : OrderedMap String DepNode)
    (name spec : String) : Option String :=
  (((candidates semver nodes name spec).mergeSort fun a b => a ≤ b).getLast?).map
    fun found => (ofLex found).2

def fixEdges (nodes : OrderedMap String DepNode) : OrderedMap String DepNode :=
  nodes.map fun _ node => { node with
    dependencies := .ofList (node.dependencies.rows.filterMap fun (name, spec) =>
      (findMatchingKey r.semver nodes name spec).map fun key => (name, key)) }

def startState : ResolveState := ⟨.empty, [], []⟩

/-- Before the edges are fixed up. -/
def visitAll (dependencies devDependencies : Rows String) : Except String ResolveState :=
  visitLevels r (r.options.maxDepth + 2) (rootLevel r dependencies devDependencies) startState

/-- The peers are looked for afterwards, which leaves the dependencies as they are. -/
def resolve (dependencies devDependencies : Rows String) : Except String DepGraph := do
  let s ← visitAll r dependencies devDependencies
  .ok ⟨fixEdges r s.nodes, s.roots⟩

end Resolve

end Oath.Resolve
