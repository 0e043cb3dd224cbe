import Oath.Contracts.Json
import Oath.Library.SystemCalls
import Oath.Library.Utf8
import Oath.Resolve.Placement
import Oath.Store.EntryLayout

/-! The linker: it builds the new `node_modules` next to the live one, by hard links, and puts
it into place with two renames. A link that succeeds has put every node of its plan into place. -/

namespace Oath.Store
open Contracts Registry Resolve Unix

structure LinkEnvironment where
  project : Location
  store : ContentStore
  parseJson : List UInt8 → Option Value
  encodePlan : PlacementPlan → List UInt8
  faults : Faults

structure LinkResult where
  linked : ℕ := 0
  symlinks : ℕ := 0
  nested : ℕ := 0
  bins : ℕ := 0
  missing : ℕ := 0
deriving DecidableEq, Repr

abbrev Link (α : Type) := EStateM String Kernel α

def context {α : Type} (message : String) (call : Syscall α) : Link α :=
  withErrors (fun _ => message) call

def orText {α : Type} (call : Syscall α) : Link α := withErrors FileError.text call

def ensure (condition : Bool) (message : String) : Link Unit :=
  if condition then pure () else throw message

def required {α : Type} (message : String) : Option α → Link α
  | some a => pure a
  | none => throw message

/-! ## Paths -/

def nodeModules : Name := asBytes "node_modules"
def stageName : Name := asBytes ".oath-node_modules-stage"
def backupName : Name := asBytes ".oath-node_modules-backup"
def oathName : Name := asBytes ".oath"
def planName : Name := asBytes "placement-plan.json"
def binName : Name := asBytes ".bin"

namespace LinkEnvironment
variable (env : LinkEnvironment)

def live : Path := ⟨env.project, [.normal nodeModules]⟩
def stage : Path := ⟨env.project, [.normal stageName]⟩
def backup : Path := ⟨env.project, [.normal backupName]⟩

def inLive (relative : List Component) : Path :=
  ⟨env.project, .normal nodeModules :: relative⟩
def inStage (relative : List Component) : Path :=
  ⟨env.project, .normal stageName :: relative⟩

def planFile : Path := env.inStage [.normal oathName, .normal planName]

def sourceOf (node : PlacementNode) : Path :=
  env.store.packageDirFor node.name node.version node.resolved node.integrity

end LinkEnvironment

/-- `strip_prefix("node_modules")`. -/
def relativeTo (location : String) : Option (List Component) :=
  match components (asBytes location) with
  | .normal name :: relative => if name = nodeModules then some relative else none
  | _ => none

def isSafeRelative (relative : List Component) : Bool :=
  !relative.isEmpty && !relative.contains .parentDir && !relative.contains .rootDir

/-! ## Recovery -/

def recoverBackup (env : LinkEnvironment) : Link Unit := do
  if ← read (·.pathExists env.backup) then
    if ← read (·.pathExists env.live) then
      context "failed to remove committed node_modules backup" (removeDirAll env.faults env.backup)
    else
      context "failed to restore interrupted node_modules transaction"
        (rename env.faults env.backup env.live)
  else pure ()

def cleanStage (env : LinkEnvironment) : Link Unit := do
  if ← read (·.pathExists env.stage) then
    context "failed to clean interrupted node_modules stage" (removeDirAll env.faults env.stage)
  else pure ()

def recoverLinkTransaction (env : LinkEnvironment) : Link Unit := do
  recoverBackup env
  cleanStage env

/-! ## Files -/

def removeExistingPath (faults : Faults) (p : Path) : Syscall Unit := do
  match ← read (·.metadata false p) with
  | .error .notFound => pure ()
  | .error e => throw e
  | .ok (.symlink _) => unlink faults p
  | .ok .directory => removeDirAll faults p
  | .ok (.file _) => unlink faults p

/-- No path that the kernel takes has more names. -/
def pathMax : ℕ := 4096

def linkOrCopy (faults : Faults) (source : Location) (dest : Path) : Syscall Unit := do
  match ← attempt (hardLink faults source dest) with
  | .ok () => pure ()
  | .error (_ : FileError) => copyFile faults source dest

def listDir (fs : LinkedFiles) (loc : Location) : Except FileError (List Name) :=
  if fs.entryAt? loc = some .directory then .ok (fs.readDir loc) else .error .notADirectory

/-- Symbolic links are left out. The source is known by its place, which nothing moves. -/
def hardlinkDir (faults : Faults) : ℕ → Location → Path → Syscall Unit
  | 0, _, _ => throw .nameTooLong
  | depth + 1, source, dest => do
    createDirAll faults dest
    let names ← readOk (listDir · source)
    names.forM fun name => do
      match ← read (·.entryAt? (source ++ [name])) with
      | some .directory => hardlinkDir faults depth (source ++ [name]) (dest.join name)
      | some (.file _) => linkOrCopy faults (source ++ [name]) (dest.join name)
      | _ => pure ()

def seedStage (env : LinkEnvironment) (preserveExisting : Bool) : Link Unit := do
  if preserveExisting && (← read (·.pathExists env.live)) then
    let source ← orText (readOk (·.find true env.live))
    orText (hardlinkDir env.faults pathMax source env.stage)
  else pure ()

/-! ## Workspace links -/

def absoluteParts (loc : Location) : List Component := .rootDir :: loc.map .normal

/-- The first ancestor that is there decides. -/
def checkAncestors (fs : LinkedFiles) (project : Location) (target : String)
    (candidate : List Component) : ℕ → List Component → Except String (List Component)
  | 0, _ => .error "workspace link has no existing project ancestor"
  | n + 1, ancestor =>
    match fs.canonicalize ⟨[], ancestor⟩ with
    | .ok canonical =>
      if project <+: canonical then .ok candidate
      else .error ("workspace link escapes project: " ++ target)
    | .error .notFound => checkAncestors fs project target candidate n ancestor.dropLast
    | .error _ => .error "resolve workspace link ancestor"

def validatedWorkspaceTarget (project : Location) (target : String) (fs : LinkedFiles) :
    Except String (List Component) := do
  let project ← match fs.canonicalize ⟨[], absoluteParts project⟩ with
    | .ok project => .ok project
    | .error _ => .error "resolve workspace project root"
  let parts := components (asBytes target)
  let candidate :=
    if isAbsolute (asBytes target) then parts else absoluteParts project ++ parts
  match fs.canonicalize ⟨[], candidate⟩ with
  | .ok canonical =>
    if project <+: canonical then .ok (absoluteParts canonical)
    else .error ("workspace link escapes project: " ++ target)
  | .error .notFound =>
    checkAncestors fs project target candidate (candidate.length - 1) candidate.dropLast
  | .error _ => .error ("resolve workspace link target " ++ target)

def checkedTarget (env : LinkEnvironment) (target : String) : Link (List Component) := fun k =>
  match validatedWorkspaceTarget env.project target k.files with
  | .ok parts => .ok parts k
  | .error message => .error message k

def linkWorkspace (env : LinkEnvironment) (node : PlacementNode) (destination : Path) :
    Link Unit := do
  context ("replace existing workspace link " ++ node.location)
    (removeExistingPath env.faults destination)
  let target ← required "Arborist link node has no target" node.target
  let parts ← checkedTarget env target
  orText (createDirAll env.faults destination.parent)
  orText (symlink env.faults parts destination)

/-! ## Packages -/

def reuseExisting (env : LinkEnvironment) (node : PlacementNode) (relative : List Component)
    (destination : Path) : Link Unit := do
  ensure (← read (·.isDir (env.inLive relative)))
    ("Arborist marked missing placement unchanged: " ++ node.location)
  context ("restore unchanged placement " ++ node.location)
    (removeExistingPath env.faults destination)
  orText (createDirAll env.faults destination.parent)
  let source ← orText (readOk (·.find true (env.inLive relative)))
  orText (hardlinkDir env.faults pathMax source destination)

def placeFromStore (env : LinkEnvironment) (node : PlacementNode) (destination : Path) :
    Link Unit := do
  context ("replace changed placement " ++ node.location)
    (removeExistingPath env.faults destination)
  ensure (← read (·.pathExists (env.sourceOf node)))
    ("planned package missing from verified store: " ++ node.name ++ "@" ++ node.version)
  orText (createDirAll env.faults destination.parent)
  let source ← orText (readOk (·.find true (env.sourceOf node)))
  orText (hardlinkDir env.faults pathMax source destination)

def placePackage (env : LinkEnvironment) (preserveExisting : Bool) (node : PlacementNode)
    (relative : List Component) (destination : Path) : Link Unit :=
  if preserveExisting && node.reuseExisting then reuseExisting env node relative destination
  else placeFromStore env node destination

/-! ## Executables -/

def isSafePathNamePart (part : List UInt8) : Bool :=
  part ≠ [] && part ≠ asBytes "." && part ≠ asBytes ".." && !part.contains 92 && !part.contains 0

def isSafeBinName (name : String) : Bool :=
  isSafePathNamePart (asBytes name) && !(asBytes name).contains slash

def safeParts : List Component → Option (List Name)
  | [] => some []
  | .normal part :: rest =>
    if isSafePathNamePart part then (safeParts rest).map (part :: ·) else none
  | .curDir :: rest => safeParts rest
  | _ :: _ => none

def sanitizePackageRelativePath (path : String) : Option (List Name) :=
  match safeParts (components (asBytes path)) with
  | some (part :: parts) => some (part :: parts)
  | _ => none

def binEntry (name path : String) : Option (String × List Name) :=
  if isSafeBinName name then (sanitizePackageRelativePath path).map fun safe => (name, safe)
  else none

def lastPart (installName : String) : String :=
  String.ofList ((installName.toList.splitOnP (· = '/')).getLastD [])

def binEntries (installName : String) : Option Value → List (String × List Name)
  | some (.string path) => (binEntry (lastPart installName) path).toList
  | some (.object fields) => fields.filterMap fun field =>
      field.2.asStr?.bind fun path => binEntry field.1 path
  | _ => []

def readBinEntries (env : LinkEnvironment) (p : Path) (installName : String)
    (fs : LinkedFiles) : List (String × List Name) :=
  match fileAt fs p with
  | .error _ => []
  | .ok (_, inode) =>
    if !Utf8.isValid (fs.data inode) then []
    else match env.parseJson (fs.data inode) with
      | none => []
      | some json => binEntries installName (json.get? "bin")

def commonLength : List Component → List Component → ℕ
  | a :: as, b :: bs => if a = b then commonLength as bs + 1 else 0
  | _, _ => 0

/-- Both paths have the same base. -/
def pathdiffRelative (link target : Path) : List Component :=
  let fromDir := link.parent.parts
  let common := commonLength fromDir target.parts
  let relative :=
    List.replicate (fromDir.length - common) .parentDir ++ target.parts.drop common
  if relative.isEmpty then [.curDir] else relative

def binDir (destination : Path) : Path := destination.parent.join binName

def linkBin (env : LinkEnvironment) (link target : Path) (result : LinkResult) :
    Link LinkResult := do
  if ← read (·.pathExists link) then pure result
  else
    orText (symlink env.faults (pathdiffRelative link target) link)
    pure { result with bins := result.bins + 1 }

def linkBins (env : LinkEnvironment) (destination : Path) :
    List (String × List Name) → LinkResult → Link LinkResult
  | [], result => pure result
  | (name, path) :: bins, result => do
    let target := destination.joinAll path
    if ← read (·.pathExists target) then
      orText (createDirAll env.faults (binDir destination))
      let result ← linkBin env ((binDir destination).join (asBytes name)) target result
      linkBins env destination bins result
    else linkBins env destination bins result

/-! ## The transaction -/

def removeLocation (env : LinkEnvironment) (location : String) : Link Unit := do
  let relative ← required ("invalid removal location " ++ location) (relativeTo location)
  context ("remove stale placement " ++ location)
    (removeExistingPath env.faults (env.inStage relative))

def linkPackage (env : LinkEnvironment) (preserveExisting : Bool) (node : PlacementNode)
    (relative : List Component) (result : LinkResult) : Link LinkResult := do
  let destination := env.inStage relative
  placePackage env preserveExisting node relative destination
  let bins ← read (readBinEntries env (destination.join (asBytes "package.json")) node.installName)
  linkBins env destination bins { result with linked := result.linked + 1 }

def linkNode (env : LinkEnvironment) (preserveExisting : Bool) (node : PlacementNode)
    (result : LinkResult) : Link LinkResult := do
  let relative ← required ("invalid placement location " ++ node.location)
    (relativeTo node.location)
  ensure (isSafeRelative relative) ("unsafe placement location " ++ node.location)
  if node.link then
    linkWorkspace env node (env.inStage relative)
    pure { result with symlinks := result.symlinks + 1 }
  else linkPackage env preserveExisting node relative result

def linkNodes (env : LinkEnvironment) (preserveExisting : Bool) :
    List PlacementNode → LinkResult → Link LinkResult
  | [], result => pure result
  | node :: nodes, result => do
    let result ← linkNode env preserveExisting node result
    linkNodes env preserveExisting nodes result

def buildStage (env : LinkEnvironment) (plan : PlacementPlan) (preserveExisting : Bool) :
    Link LinkResult := do
  seedStage env preserveExisting
  orText (createDirAll env.faults (env.stage.join oathName))
  plan.removedLocations.forM (removeLocation env)
  linkNodes env preserveExisting plan.nodes {}

def writePlan (env : LinkEnvironment) (plan : PlacementPlan) : Link Unit :=
  orText (writeFile env.faults env.planFile (env.encodePlan plan))

def moveLive (env : LinkEnvironment) : Link Unit := do
  if ← read (·.pathExists env.live) then
    context "failed to stage existing node_modules" (rename env.faults env.live env.backup)
  else pure ()

/-- Whether this works is not looked at. -/
def restoreLive (env : LinkEnvironment) : Link Unit := do
  if ← read (fun fs => fs.pathExists env.backup && !fs.pathExists env.live) then do
    let (_ : Except FileError Unit) ← attempt (rename env.faults env.backup env.live)
    pure ()
  else pure ()

def promoteStage (env : LinkEnvironment) : Link Unit := do
  match ← attempt (rename env.faults env.stage env.live) with
  | .ok () => pure ()
  | .error (_ : FileError) => do
    restoreLive env
    throw "failed to promote Arborist placement"

def removeBackup (env : LinkEnvironment) : Link Unit := do
  if ← read (·.pathExists env.backup) then
    context "failed to remove node_modules backup" (removeDirAll env.faults env.backup)
  else pure ()

def linkPlacementPlanInner (env : LinkEnvironment) (plan : PlacementPlan)
    (preserveExisting : Bool) : Link LinkResult := do
  recoverLinkTransaction env
  let result ← buildStage env plan preserveExisting
  writePlan env plan
  moveLive env
  promoteStage env
  removeBackup env
  pure result

def linkPlacementPlan (env : LinkEnvironment) (plan : PlacementPlan) : Link LinkResult :=
  linkPlacementPlanInner env plan true

/-- `oath ci` keeps nothing of the tree before. -/
def linkPlacementPlanClean (env : LinkEnvironment) (plan : PlacementPlan) : Link LinkResult :=
  linkPlacementPlanInner env plan false

/-! ## The nodes that the linker comes to -/

/-- What is done before the first node is placed. -/
def prepareStage (env : LinkEnvironment) (plan : PlacementPlan) (preserveExisting : Bool) :
    Link Unit := do
  recoverLinkTransaction env
  seedStage env preserveExisting
  orText (createDirAll env.faults (env.stage.join oathName))
  plan.removedLocations.forM (removeLocation env)

/-- The link of a plan comes to the node, and puts it into its place in the stage. -/
def Places (env : LinkEnvironment) (plan : PlacementPlan) (k : Kernel) (node : PlacementNode) :
    Prop :=
  ∃ before after k₀ k₁ k₂ built result, plan.nodes = before ++ node :: after ∧
    prepareStage env plan true k = .ok () k₀ ∧
    linkNodes env true before {} k₀ = .ok built k₁ ∧ linkNode env true node built k₁ = .ok result k₂

variable {env : LinkEnvironment} {preserveExisting : Bool} {k k' : Kernel}

theorem linkNodes_append {before after : List PlacementNode} {start result : LinkResult}
    (h : linkNodes env preserveExisting (before ++ after) start k = .ok result k') :
    ∃ built k₁, linkNodes env preserveExisting before start k = .ok built k₁ ∧
      linkNodes env preserveExisting after built k₁ = .ok result k' := by
  induction before generalizing start k with
  | nil => exact ⟨start, k, rfl, h⟩
  | cons node rest ih =>
    obtain ⟨placed, k₁, hplaced, h1⟩ := EStateM.bind_eq_ok.mp h
    obtain ⟨built, k₂, hbuilt, hafter⟩ := ih h1
    exact ⟨built, k₂, EStateM.bind_eq_ok.mpr ⟨placed, k₁, hplaced, hbuilt⟩, hafter⟩

theorem linkPlacementPlan_places {plan : PlacementPlan} {result : LinkResult}
    (h : linkPlacementPlan env plan k = .ok result k') {node : PlacementNode}
    (hnode : node ∈ plan.nodes) : Places env plan k node := by
  obtain ⟨_, k₁, hrecover, h1⟩ := EStateM.bind_eq_ok.mp h
  obtain ⟨built, k₂, hbuild, -⟩ := EStateM.bind_eq_ok.mp h1
  obtain ⟨_, k₃, hseed, h2⟩ := EStateM.bind_eq_ok.mp hbuild
  obtain ⟨_, k₄, hoath, h3⟩ := EStateM.bind_eq_ok.mp h2
  obtain ⟨_, k₅, hremoved, hlink⟩ := EStateM.bind_eq_ok.mp h3
  have hprepare : prepareStage env plan true k = .ok () k₅ := by
    refine EStateM.bind_eq_ok.mpr ⟨(), k₁, hrecover, ?_⟩
    refine EStateM.bind_eq_ok.mpr ⟨(), k₃, hseed, ?_⟩
    exact EStateM.bind_eq_ok.mpr ⟨(), k₄, hoath, hremoved⟩
  obtain ⟨before, after, hnodes⟩ := List.append_of_mem hnode
  rw [hnodes] at hlink
  obtain ⟨some, k₆, hbefore, hrest⟩ := linkNodes_append hlink
  obtain ⟨placed, k₇, hplaced, -⟩ := EStateM.bind_eq_ok.mp hrest
  exact ⟨before, after, k₅, k₆, k₇, some, placed, hnodes, hprepare, hbefore, hplaced⟩

theorem Places.mem {plan : PlacementPlan} {node : PlacementNode} (h : Places env plan k node) :
    node ∈ plan.nodes := by
  obtain ⟨before, after, _, _, _, _, _, hnodes, -⟩ := h
  rw [hnodes]
  exact List.mem_append_right before List.mem_cons_self

end Oath.Store
