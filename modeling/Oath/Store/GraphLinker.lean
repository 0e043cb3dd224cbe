import Oath.Store.Linker

/-! The linker of a package graph: every package is in a directory of its own below `.oath`, and
symbolic links lead from one to another. A map is gone through in an order that is not its own. -/

namespace Oath.Store
open Contracts Registry Resolve Unix

/-! ## Names -/

/-- `alias.as_deref().unwrap_or(&name)` -/
def installNameOf (node : DepNode) : String := node.aliasName.getD node.name

def atSign : UInt8 := 64

def nameParts (name : String) : List Name := pieces (asBytes name)

def validateInstallName (name : String) : Except String Unit :=
  if name = "" then .error "invalid empty package install name"
  else if (asBytes name).head? = some atSign then
    if (nameParts name).length ≠ 2 ∨ ((nameParts name).headD []).length = 1 ∨
        ¬(nameParts name).all isSafePathNamePart then
      .error ("invalid scoped package install name: " ++ name)
    else .ok ()
  else if (nameParts name).length ≠ 1 ∨ ¬(nameParts name).all isSafePathNamePart then
    .error ("invalid package install name: " ++ name)
  else .ok ()

/-- `contains('/')` -/
def isScoped (name : String) : Bool := (asBytes name).contains slash

def scopeOf (name : String) : Name := (nameParts name).headD []

def virtualKeyComponent (key : String) : String := safePathComponent key

/-! ## The order of the maps -/

/-- How the program comes through the maps of a graph. -/
structure GraphOrder (graph : DepGraph) where
  nodes : List (String × DepNode)
  dependencies : DepNode → List (String × String)
  peers : DepNode → List (String × String)
  nodes_perm : nodes.Perm graph.nodes.rows
  dependencies_perm (node : DepNode) : (dependencies node).Perm node.dependencies.rows
  peers_perm (node : DepNode) : (peers node).Perm node.resolvedPeers.rows

section Graph
variable {graph : DepGraph} (order : GraphOrder graph)

def validateNode (row : String × DepNode) : Except String Unit := do
  validateInstallName (installNameOf row.2)
  (order.dependencies row.2).forM fun dependency => validateInstallName dependency.1
  (order.peers row.2).forM fun peer => validateInstallName peer.1

def validateGraphPathNames : Except String Unit := order.nodes.forM (validateNode order)

/-! ## The plan -/

structure LinkPlan where
  hoisted : OrderedMap String String
  nested : List (String × String × String)

def addToGroup (groups : OrderedMap String (List String)) (row : String × DepNode) :
    OrderedMap String (List String) :=
  groups.insert (installNameOf row.2)
    ((groups.find? (installNameOf row.2)).getD [] ++ [row.1])

def byInstallName : OrderedMap String (List String) := order.nodes.foldl addToGroup .empty

def refCount (key : String) : ℕ :=
  (order.nodes.flatMap fun row => (order.dependencies row.2).map Prod.snd).count key +
    graph.roots.count key

/-- `max_by`: the last of the greatest. Of two keys that are as often referred to, the first one in
the order of the keys is the greater. -/
def prefer (count : String → ℕ) (best key : String) : String :=
  if count best < count key ∨ count best = count key ∧ key ≤ best then key else best

def hoistedKey (count : String → ℕ) (keys : List String) : String :=
  keys.tail.foldl (prefer count) (keys.headD "")

def hoistedOf : OrderedMap String String :=
  (byInstallName order).map fun _ keys => hoistedKey (refCount order) keys

def depInstallName (graph : DepGraph) (dependency : String × String) : String :=
  match graph.nodes.find? dependency.2 with
  | some node => installNameOf node
  | none => dependency.1

/-- A key, a name under which the package of the key depends on another, and the key of that. -/
def dependencyEdges : List (String × String × String) :=
  order.nodes.flatMap fun row => (order.dependencies row.2).map fun dependency =>
    (row.1, dependency)

def nestedEdge? (edge : String × String × String) : Option (String × String × String) :=
  let name := depInstallName graph edge.2
  if (hoistedOf order).find? name = some edge.2.2 then none else some (edge.1, name, edge.2.2)

def tripleLe (a b : String × String × String) : Bool :=
  a.1 < b.1 ∨ a.1 = b.1 ∧ (a.2.1 < b.2.1 ∨ a.2.1 = b.2.1 ∧ a.2.2 ≤ b.2.2)

def buildPlan : LinkPlan where
  hoisted := hoistedOf order
  nested := ((dependencyEdges order).filterMap (nestedEdge? order)).mergeSort tripleLe

/-! ## The manifest -/

def rootLine (root : String) : String := "root\t" ++ root ++ "\n"

def edgeLine (kind key : String) (row : String × String) : String :=
  kind ++ "\t" ++ key ++ "\t" ++ row.1 ++ "\t" ++ row.2 ++ "\n"

def nodeLines (row : String × DepNode) : String :=
  "pkg\t" ++ row.1 ++ "\t" ++ row.2.name ++ "\t" ++ row.2.aliasName.getD "" ++ "\t" ++
    row.2.version ++ "\n" ++
    String.join (row.2.dependencies.rows.map (edgeLine "dep" row.1)) ++
    String.join (row.2.resolvedPeers.rows.map (edgeLine "peer" row.1))

def linkManifest (graph : DepGraph) : String :=
  String.join ((graph.roots.mergeSort fun a b => a ≤ b).map rootLine) ++
    String.join (graph.nodes.rows.map nodeLines)

end Graph

/-! ## Paths -/

def Component.display : Component → String
  | .rootDir => ""
  | .curDir => "."
  | .parentDir => ".."
  | .normal name => String.ofList (Utf8.lossy name)

def displayParts (parts : List Component) : String :=
  "/".intercalate (parts.map Component.display)

def Path.display (p : Path) : String := displayParts (.rootDir :: p.base.map .normal ++ p.parts)

/-- `join` with a path that is not absolute. -/
def Path.joinText (p : Path) (text : String) : Path :=
  { p with parts := p.parts ++ components (asBytes text) }

namespace LinkEnvironment
variable (env : LinkEnvironment)

def oathDir : Path := env.stage.join oathName

/-- `.oath/{key}/node_modules` -/
def virtualModules (key : String) : Path :=
  (env.oathDir.join (asBytes (virtualKeyComponent key))).join nodeModules

def virtualDir (key installName : String) : Path :=
  Path.joinText (env.virtualModules key) installName

def manifestName : Name := asBytes ".link-manifest"

def manifestFile : Path := env.oathDir.join manifestName

def graphSource (node : DepNode) : Path :=
  env.store.packageDirFor node.name node.version (some node.resolved) node.integrity

end LinkEnvironment

/-! ## The phases -/

/-- A loop that goes on with the result. -/
def linkEach {α : Type} (f : α → LinkResult → Link LinkResult) :
    List α → LinkResult → Link LinkResult
  | [], result => pure result
  | a :: as, result => do
    let result ← f a result
    linkEach f as result

def makeScope (env : LinkEnvironment) (dir : Path) (name : String) : Link Unit :=
  if isScoped name then orText (createDirAll env.faults (dir.join (scopeOf name))) else pure ()

def copyTree (env : LinkEnvironment) (p dest : Path) : Link Unit := do
  orText (createDirAll env.faults dest.parent)
  let source ← orText (readOk (·.find true p))
  orText (hardlinkDir env.faults pathMax source dest)

def linkVirtual (env : LinkEnvironment) (row : String × DepNode) (result : LinkResult) :
    Link LinkResult := do
  if ← read (·.pathExists (env.graphSource row.2)) then
    copyTree env (env.graphSource row.2) (env.virtualDir row.1 (installNameOf row.2))
    pure { result with linked := result.linked + 1 }
  else pure { result with missing := result.missing + 1 }

/-- From the directory of modules, or from the directory of the scope in it. -/
def hoistedTarget (name key : String) : List Component :=
  (if isScoped name then [.parentDir] else []) ++
    ([.normal oathName, .normal (asBytes (virtualKeyComponent key)), .normal nodeModules] ++
      components (asBytes name))

def linkHoisted (env : LinkEnvironment) (graph : DepGraph) (row : String × String)
    (result : LinkResult) : Link LinkResult :=
  if (graph.nodes.find? row.2).isNone then pure result
  else do
    let link := Path.joinText env.stage row.1
    makeScope env env.stage row.1
    context ("failed to symlink " ++ Path.display link ++ " -> " ++
      displayParts (hoistedTarget row.1 row.2))
      (symlink env.faults (hoistedTarget row.1 row.2) link)
    pure { result with symlinks := result.symlinks + 1 }

def symlinkTo (env : LinkEnvironment) (message : String) (link source : Path) : Link Unit :=
  context (message ++ " " ++ Path.display link ++ " -> " ++
    displayParts (pathdiffRelative link source))
    (symlink env.faults (pathdiffRelative link source) link)

def nestedDir (modules : Path) (name : String) : Path :=
  if isScoped name then modules.join (scopeOf name) else modules

/-- The link in the modules of a package. -/
def linkInside (env : LinkEnvironment) (modules : Path) (name : String) (source : Path)
    (result : LinkResult) : Link LinkResult := do
  orText (createDirAll env.faults (nestedDir modules name))
  let link := Path.joinText modules name
  if ← read (fun fs => fs.pathExists source && !fs.pathExists link) then
    symlinkTo env "failed to create nested symlink" link source
    pure { result with nested := result.nested + 1 }
  else pure result

def linkNested (env : LinkEnvironment) (graph : DepGraph) (edge : String × String × String)
    (result : LinkResult) : Link LinkResult :=
  match graph.nodes.find? edge.1 with
  | none => pure result
  | some parent =>
    if (graph.nodes.find? edge.2.2).isNone then pure result
    else do
      let home := env.virtualDir edge.1 (installNameOf parent)
      if ← read (·.pathExists home) then
        linkInside env (home.join nodeModules) edge.2.1 (env.virtualDir edge.2.2 edge.2.1) result
      else pure result

/-- The link beside a package. -/
def linkBeside (env : LinkEnvironment) (message key name source : String) (result : LinkResult) :
    Link LinkResult := do
  let link := env.virtualDir key name
  if ← read (fun fs => fs.pathExists (env.virtualDir source name) && !fs.pathExists link) then
    makeScope env (env.virtualModules key) name
    symlinkTo env message link (env.virtualDir source name)
    pure { result with symlinks := result.symlinks + 1 }
  else pure result

def linkDependency (env : LinkEnvironment) (graph : DepGraph) (edge : String × String × String)
    (result : LinkResult) : Link LinkResult :=
  linkBeside env "failed to symlink dependency" edge.1 (depInstallName graph edge.2) edge.2.2 result

def linkPeer (env : LinkEnvironment) (graph : DepGraph) (edge : String × String)
    (result : LinkResult) : Link LinkResult :=
  match graph.nodes.find? edge.2 with
  | none => pure result
  | some peer =>
    linkBeside env "failed to symlink peer dependency" edge.1 (installNameOf peer) edge.2 result

/-! ### Executables -/

def hoistedBinTarget (installName : String) (path : List Name) : List Component :=
  .parentDir :: components (asBytes installName) ++ path.map .normal

/-- The permissions are left out. -/
def linkHoistedBin (env : LinkEnvironment) (installName : String) (bin : String × List Name)
    (result : LinkResult) : Link LinkResult := do
  let target := (Path.joinText env.stage installName).joinAll bin.2
  let link := (env.stage.join binName).join (asBytes bin.1)
  if ← read (fun fs => fs.pathExists target && !fs.pathExists link) then
    context ("failed to symlink bin " ++ Path.display link ++ " -> " ++
      displayParts (hoistedBinTarget installName bin.2))
      (symlink env.faults (hoistedBinTarget installName bin.2) link)
    pure { result with bins := result.bins + 1 }
  else pure result

def linkHoistedBins (env : LinkEnvironment) (graph : DepGraph) (row : String × String)
    (result : LinkResult) : Link LinkResult :=
  if (graph.nodes.find? row.2).isNone then pure result
  else do
    let package := Path.joinText env.stage row.1
    let bins ← read (readBinEntries env (package.join (asBytes "package.json")) row.1)
    linkEach (linkHoistedBin env row.1) bins result

/-! ## The transaction -/

def manifestMatches (env : LinkEnvironment) (manifest : String) (fs : LinkedFiles) : Bool :=
  let file : Path := (env.live.join oathName).join LinkEnvironment.manifestName
  match fileAt fs file with
  | .ok (_, inode) => fs.data inode = asBytes manifest
  | .error _ => false

section Run
variable {graph : DepGraph} (env : LinkEnvironment) (order : GraphOrder graph)

def peerEdges : List (String × String) :=
  order.nodes.flatMap fun row => (order.peers row.2).map fun peer => (row.1, peer.2)

def buildTree : Link LinkResult := do
  context "failed to create node_modules/.oath" (createDirAll env.faults env.oathDir)
  let plan := buildPlan order
  let result ← linkEach (linkVirtual env) order.nodes {}
  let result ← linkEach (linkHoisted env graph) plan.hoisted.rows result
  let result ← linkEach (linkNested env graph) plan.nested result
  let result ← linkEach (linkDependency env graph) (dependencyEdges order) result
  let result ← linkEach (linkPeer env graph) (peerEdges order) result
  orText (createDirAll env.faults (env.stage.join binName))
  let result ← linkEach (linkHoistedBins env graph) plan.hoisted.rows result
  context "failed to write link manifest"
    (writeFile env.faults env.manifestFile (asBytes (linkManifest graph)))
  pure result

def setLiveAside : Link Unit := do
  if ← read (·.pathExists env.live) then
    context "failed to stage existing node_modules for replacement"
      (rename env.faults env.live env.backup)
  else pure ()

def promoteTree : Link Unit := do
  match ← attempt (rename env.faults env.stage env.live) with
  | .ok () => pure ()
  | .error (_ : FileError) => do
    restoreLive env
    throw "failed to atomically promote staged node_modules"

/-- A backup that cannot be removed stays. -/
def dropBackup : Link Unit := do
  if ← read (·.pathExists env.backup) then do
    let (_ : Except FileError Unit) ← attempt (removeDirAll env.faults env.backup)
    pure ()
  else pure ()

def checkGraphNames : Link Unit :=
  match validateGraphPathNames order with
  | .ok () => pure ()
  | .error message => throw message

def isUpToDate (graph : DepGraph) (fs : LinkedFiles) : Bool :=
  fs.pathExists env.live && manifestMatches env (linkManifest graph) fs

/-- A tree whose manifest is that of the graph stays as it is. -/
def linkAll : Link LinkResult := do
  checkGraphNames order
  recoverLinkTransaction env
  if ← read (isUpToDate env graph) then pure { linked := graph.nodes.rows.length }
  else
    let result ← buildTree env order
    setLiveAside env
    promoteTree env
    dropBackup env
    pure result

end Run

end Oath.Store
