import Oath.Cli.Frozen
import Oath.Cli.InstallScripts
import Oath.Cli.WorkspaceInstall

/-! `install`: the whole command with all its branches. The version that it writes to the manifest for a
package that is added is that of the first node under the name, in an order of the nodes that nothing
fixes. -/

namespace Oath.Cli
open Contracts Core Registry Resolve Workspace

structure InstallOptions where
  packages : List String
  dev : Bool
  dryRun : Bool
  runAudit : Bool
  yes : Bool
  runScripts : Bool
  ignoreScripts : Bool
  global : Bool
  frozenLockfile : Bool
  minAge : Option String

/-- What `install` finds outside, over what every command finds. -/
structure InstallEnvironment (Text : Type) extends Environment Text where
  home : Option String
  /-- `detect_workspace_root` of the current directory. -/
  workspace : Option WorkspaceRoot
  /-- With `OATH_RESOLVER=legacy` the graph comes from the former resolver, the lockfile or
  an npm lockfile. -/
  legacyResolver : Option (OrderedMap String String → OrderedMap String String →
    Except String DepGraph)
  linkAll : DepGraph → String → Except String Unit
  linkGlobalBins : PlacementPlan → Except String Unit
  checkReleaseAge : Option String → List DepNode → Except String Unit
  policy : OathPolicy
  site : String → ScriptSite
  afterScript : Event → Files Text → Files Text

def InstallEnvironment.scripts {Text : Type} (env : InstallEnvironment Text) :
    ScriptEnvironment Text := ⟨env.cwd, env.policy, env.site, env.afterScript⟩

/-! ## Specifications of packages to add -/

def splitAtSign (cs : List Char) : Option (List Char × List Char) :=
  match cs.dropWhile (· ≠ '@') with
  | [] => none
  | _ :: version => some (cs.takeWhile (· ≠ '@'), version)

def parsePackageSpec (spec : String) : String × String :=
  match spec.toList with
  | '@' :: rest =>
    match splitAtSign rest with
    | some (name, version) => (String.ofList ('@' :: name), String.ofList version)
    | none => (spec, "latest")
  | cs =>
    match splitAtSign cs with
    | some (name, version) => (String.ofList name, String.ofList version)
    | none => (spec, "latest")

def isGitLikeSpec (spec : String) : Bool :=
  ["github:", "gitlab:", "bitbucket:", "git+https://", "git+ssh://", "git://"].any (beginsWith spec)

def dependencyManifestSpec (pkgName requestedSpec : String) (nodes : List DepNode) : String :=
  if beginsWith requestedSpec "npm:" || isGitLikeSpec requestedSpec then requestedSpec
  else match nodes.find? fun node => node.aliasName = some pkgName || node.name = pkgName with
    | some node => "^" ++ node.version
    | none => requestedSpec

/-- `pkg[key] = value`, which panics when `pkg` is neither an object nor `null`. -/
def setIndex (pkg : Value) (key : String) (value : Value) : Except String Value :=
  match pkg with
  | .object fields => .ok (.object (Value.insertField key value fields))
  | .null => .ok (.object [(key, value)])
  | _ => .error ("cannot access key " ++ key)

def depKey (dev : Bool) : String := if dev then "devDependencies" else "dependencies"

def setDependency (dev : Bool) (pkg : Value) (dependency : String × String) :
    Except String Value := do
  let group ← setIndex (pkg.index (depKey dev)) dependency.1 (.string dependency.2)
  setIndex pkg (depKey dev) group

/-! ## The manifest -/

structure ProjectManifest where
  deps : OrderedMap String String
  devDeps : OrderedMap String String
  name : String
  version : String
  /-- The manifest to write when packages are added, and their names. -/
  pending : Option Value
  added : List String

def textOr (value : Value) (key default : String) : String := ((value.index key).asStr?).getD default

section Command
variable {Text : Type} (env : InstallEnvironment Text)

def plainManifest : Command Text ProjectManifest := do
  let pkg ← readPackageJson env.json env.cwd
  pure ⟨extractDeps pkg "dependencies", extractDeps pkg "devDependencies",
    textOr pkg "name" "unnamed", textOr pkg "version" "0.0.0", none, []⟩

/-- Without a `package.json` there is one to begin with. -/
def existingManifest : Command Text Value := fun s =>
  if (s.files (packageJsonPath env.cwd)).isSome then readPackageJson env.json env.cwd s
  else .ok (.json [("name", .string "project"), ("version", .string "1.0.0")]) s

def withGroup (dev : Bool) (pkg : Value) : Except String Value :=
  if (pkg.get? (depKey dev)).isNone then setIndex pkg (depKey dev) (.object []) else .ok pkg

def addedManifest (packages : List String) (dev : Bool) : Command Text ProjectManifest := do
  let pkg ← existingManifest env
  let pkg ← fromExcept (withGroup dev pkg)
  let added := packages.map parsePackageSpec
  let pkg ← fromExcept (added.foldlM (setDependency dev) pkg)
  pure ⟨extractDeps pkg "dependencies", extractDeps pkg "devDependencies",
    textOr pkg "name" "project", textOr pkg "version" "0.0.0", some pkg, added.map Prod.fst⟩

def projectManifest (options : InstallOptions) : Command Text ProjectManifest :=
  if options.packages.isEmpty then plainManifest env
  else addedManifest env options.packages options.dev

def trustedDeps (manifest : ProjectManifest) : Command Text (List String) := fun s =>
  let pkg := match manifest.pending with
    | some pkg => pkg
    | none => match readPackageJson env.json env.cwd s with
      | .ok pkg _ => pkg
      | .error _ _ => .null
  let listed := (pkg.get? "trustedDependencies").bind Value.asArray?
  .ok ((listed.getD []).filterMap Value.asStr?) s

/-! ## The graph and its lockfile -/

structure ResolvedProject where
  plan : Option PlacementPlan
  graph : DepGraph

def addRequest (options : InstallOptions) : PlacementRequest :=
  if options.packages.isEmpty then .default
  else ⟨options.packages, [], none, if options.dev then some "dev" else none⟩

def resolveProject (options : InstallOptions) (manifest : ProjectManifest) :
    Command Text ResolvedProject :=
  match env.legacyResolver with
  | some resolve => do
    let graph ← fromExcept (resolve manifest.deps manifest.devDeps)
    pure ⟨none, graph⟩
  | none => do
    let plan ← planWith env.toEnvironment env.cwd (addRequest options)
    let plan ← fromExcept (hydrateMissingRegistryMetadata env.toEnvironment plan)
    let graph ← fromExcept plan.toDepGraph
    pure ⟨some plan, graph⟩

/-- The specifications of added packages are made definite in the manifest and in the lock. -/
def finishAdded (dev : Bool) (graph : DepGraph) (manifest : ProjectManifest) (name : String) :
    Except String ProjectManifest :=
  match manifest.pending with
  | none => .ok manifest
  | some pkg => do
    let requested := textOr (pkg.index (depKey dev)) name "latest"
    let spec := dependencyManifestSpec name requested (graph.nodes.rows.map Prod.snd)
    let pkg ← setDependency dev pkg (name, spec)
    .ok { manifest with
      pending := some pkg
      deps := if dev then manifest.deps else manifest.deps.insert name spec
      devDeps := if dev then manifest.devDeps.insert name spec else manifest.devDeps }

def projectLock (graph : DepGraph) (manifest : ProjectManifest) : Lockfile :=
  .fromGraphWithManifest graph manifest.name manifest.version manifest.deps manifest.devDeps

def checkFrozen (options : InstallOptions) (lockfile : Lockfile) : Command Text Unit :=
  if options.frozenLockfile then do
    let existing ← readLockfile env.json env.cwd
    fromExcept (if lockfilesMatchForFrozen existing lockfile then .ok ()
      else .error "lockfile would be modified, refusing (--frozen-lockfile)")
  else pure ()

/-! ## Download, link and write -/

/-- A script of the project itself, if `package.json` has it. -/
def runRootLifecycle (hook : String) : Command Text Unit := fun s =>
  match readPackageJson env.json env.cwd s with
  | .error _ _ => .ok () s
  | .ok pkg _ =>
    match (pkg.get? "scripts").bind fun scripts => (scripts.get? hook).bind Value.asStr? with
    | none => .ok () s
    | some command => runCommand env.scripts (.ranRootScript hook command) s

def rootLifecycle (options : InstallOptions) (hooks : List String) : Command Text Unit :=
  if options.packages.isEmpty && !options.ignoreScripts then hooks.forM (runRootLifecycle env)
  else pure ()

def linkProject (resolved : ResolvedProject) : Command Text Unit :=
  match resolved.plan with
  | some plan => do
    fromExcept (env.linkPlacementPlan plan env.cwd)
    writePlan env.json env.cwd plan
  | none => fromExcept (env.linkAll resolved.graph env.cwd)

def updateLockfile (options : InstallOptions) (lockfile : Lockfile) : Command Text Unit :=
  if options.frozenLockfile then pure () else writeLockfile env.json env.cwd lockfile

def updateManifest (manifest : ProjectManifest) : Command Text Unit :=
  match manifest.pending with
  | some pkg => writeFile (packageJsonPath env.cwd) (env.json.pretty pkg)
  | none => pure ()

def scriptOptions (options : InstallOptions) (trusted : List String) : ScriptOptions :=
  ⟨options.yes, options.runScripts, options.ignoreScripts, trusted⟩

def materialize (options : InstallOptions) (manifest : ProjectManifest)
    (resolved : ResolvedProject) (trusted : List String) : Command Text Unit := do
  rootLifecycle env options ["preinstall"]
  let missing := (missingStoreNodes env.toEnvironment (resolved.graph.nodes.rows.map Prod.snd) []).1
  fromExcept (env.checkReleaseAge options.minAge missing)
  let _ ← fromExcept (env.download missing)
  linkProject env resolved
  updateLockfile env options (projectLock resolved.graph manifest)
  updateManifest env manifest
  dependencyScripts env.scripts (scriptOptions options trusted) resolved.graph
  rootLifecycle env options ["install", "postinstall", "prepare"]

/-! ## The command -/

def installProject (options : InstallOptions) : Command Text Unit := do
  let manifest ← projectManifest env options
  let trusted ← trustedDeps env manifest
  let resolved ← resolveProject env options manifest
  let manifest ← fromExcept (manifest.added.foldlM (finishAdded options.dev resolved.graph) manifest)
  checkFrozen env options (projectLock resolved.graph manifest)
  if options.dryRun then pure () else materialize env options manifest resolved trusted

def globalManifest (packages : List String) : Value :=
  .json [("name", .string "oath-global"), ("version", .string "0.0.0"), ("private", .bool true),
    ("dependencies", .stringMap (.ofList (packages.map parsePackageSpec)))]

def installGlobal (packages : List String) (globalDir : String) : Command Text Unit := do
  writeFile (packageJsonPath globalDir) (env.json.pretty (globalManifest packages))
  let plan ← planWith env.toEnvironment globalDir .default
  let plan ← fromExcept (hydrateMissingRegistryMetadata env.toEnvironment plan)
  let graph ← fromExcept plan.toDepGraph
  let _ ← fromExcept (downloadMissing env.toEnvironment graph)
  fromExcept (env.linkPlacementPlan plan globalDir)
  writePlan env.json globalDir plan
  fromExcept (env.linkGlobalBins plan)

def cmdInstallGlobal (packages : List String) (dryRun : Bool) : Command Text Unit :=
  if packages.isEmpty then
    throw "oath install -g: please specify at least one package to install globally"
  else match env.home with
    | none => throw "HOME or USERPROFILE not set"
    | some home => if dryRun then pure () else installGlobal env packages (home ++ "/.oath/global")

def frozenPreconditions (options : InstallOptions) : Command Text Unit := fun s =>
  if options.frozenLockfile && !options.packages.isEmpty then
    .error "cannot add packages with --frozen-lockfile/--ci" s
  else if options.frozenLockfile && (s.files (lockPath env.cwd)).isNone then
    .error "no lockfile found, run oath install first" s
  else .ok () s

/-- A workspace is installed as a whole unless packages are added. -/
def dispatch (options : InstallOptions) : Command Text Unit :=
  match env.workspace with
  | some ws =>
    if options.packages.isEmpty then cmdInstallWorkspace env.toEnvironment ws options.dryRun
    else installProject env options
  | none => installProject env options

def cmdInstall (options : InstallOptions) : Command Text Unit :=
  if options.global then cmdInstallGlobal env options.packages options.dryRun
  else do
    frozenPreconditions env options
    dispatch env options

end Command

/-! ## The steps before anything changes -/

section Steps
variable {Text : Type} {env : InstallEnvironment Text} {options : InstallOptions}
  {s s' : Session Text}

theorem projectManifest_ok {manifest : ProjectManifest}
    (h : projectManifest env options s = .ok manifest s') : s' = s := by
  unfold projectManifest at h
  split_ifs at h
  · obtain ⟨pkg, s₁, hpkg, hfields⟩ := EStateM.bind_eq_ok.mp h
    obtain ⟨-, rfl⟩ := readPackageJson_ok.mp hpkg
    exact (EStateM.Result.ok.inj hfields).2.symm
  · obtain ⟨pkg, s₁, hpkg, h1⟩ := EStateM.bind_eq_ok.mp h
    have hs₁ : s₁ = s := by
      unfold existingManifest at hpkg
      split_ifs at hpkg
      · exact (readPackageJson_ok.mp hpkg).2
      · exact (EStateM.Result.ok.inj hpkg).2.symm
    subst hs₁
    obtain ⟨grouped, s₂, hgrouped, h2⟩ := EStateM.bind_eq_ok.mp h1
    obtain ⟨-, rfl⟩ := fromExcept_ok.mp hgrouped
    obtain ⟨filled, s₃, hfilled, h3⟩ := EStateM.bind_eq_ok.mp h2
    obtain ⟨-, rfl⟩ := fromExcept_ok.mp hfilled
    exact (EStateM.Result.ok.inj h3).2.symm

theorem resolveProject_ok {manifest : ProjectManifest} {resolved : ResolvedProject}
    (h : resolveProject env options manifest s = .ok resolved s') : s' = s := by
  unfold resolveProject at h
  cases hlegacy : env.legacyResolver with
  | some resolve =>
    rw [hlegacy] at h
    obtain ⟨graph, s₁, hgraph, h1⟩ := EStateM.bind_eq_ok.mp h
    obtain ⟨-, rfl⟩ := fromExcept_ok.mp hgraph
    exact (EStateM.Result.ok.inj h1).2.symm
  | none =>
    rw [hlegacy] at h
    obtain ⟨plan, s₁, hplan, h1⟩ := EStateM.bind_eq_ok.mp h
    obtain ⟨-, rfl⟩ := planWith_ok hplan
    obtain ⟨linked, s₂, hlinked, h2⟩ := EStateM.bind_eq_ok.mp h1
    obtain ⟨-, rfl⟩ := fromExcept_ok.mp hlinked
    obtain ⟨graph, s₃, hgraph, h3⟩ := EStateM.bind_eq_ok.mp h2
    obtain ⟨-, rfl⟩ := fromExcept_ok.mp hgraph
    exact (EStateM.Result.ok.inj h3).2.symm

/-- A frozen run goes on only with a lockfile that matches. -/
theorem checkFrozen_ok {lockfile : Lockfile} (h : checkFrozen env options lockfile s = .ok () s') :
    s' = s ∧ (options.frozenLockfile → ∃ existing,
      readLockfile env.json env.cwd s = .ok existing s ∧
        lockfilesMatchForFrozen existing lockfile) := by
  unfold checkFrozen at h
  split_ifs at h with hfrozen
  · obtain ⟨existing, s₁, hexisting, hmatch⟩ := EStateM.bind_eq_ok.mp h
    obtain ⟨-, rfl⟩ := readLockfile_ok.mp hexisting
    obtain ⟨hmatches, rfl⟩ := fromExcept_ok.mp hmatch
    split_ifs at hmatches with hfrozenMatch
    exact ⟨rfl, fun _ => ⟨existing, hexisting, hfrozenMatch⟩⟩
  · exact ⟨(EStateM.Result.ok.inj h).2.symm, fun hf => absurd hf hfrozen⟩

/-- What a run of `install` that succeeds has found when it begins to change things. -/
structure Prepared (env : InstallEnvironment Text) (options : InstallOptions) (s : Session Text)
    (manifest finished : ProjectManifest) (trusted : List String)
    (resolved : ResolvedProject) : Prop where
  projectManifest : projectManifest env options s = .ok manifest s
  trustedDeps : trustedDeps env manifest s = .ok trusted s
  resolveProject : resolveProject env options manifest s = .ok resolved s
  finishAdded : manifest.added.foldlM (finishAdded options.dev resolved.graph) manifest =
    .ok finished
  checkFrozen : checkFrozen env options (projectLock resolved.graph finished) s = .ok () s

theorem installProject_prepared (h : installProject env options s = .ok () s') :
    ∃ manifest finished trusted resolved, Prepared env options s manifest finished trusted resolved ∧
      (if options.dryRun then s' = s
        else materialize env options finished resolved trusted s = .ok () s') := by
  obtain ⟨manifest, s₁, hmanifest, h1⟩ := EStateM.bind_eq_ok.mp h
  obtain rfl := projectManifest_ok hmanifest
  obtain ⟨trusted, s₂, htrusted, h2⟩ := EStateM.bind_eq_ok.mp h1
  obtain rfl : s₁ = s₂ := (EStateM.Result.ok.inj htrusted).2
  obtain ⟨resolved, s₃, hresolved, h3⟩ := EStateM.bind_eq_ok.mp h2
  obtain rfl := resolveProject_ok hresolved
  obtain ⟨finished, s₄, hfinished, h4⟩ := EStateM.bind_eq_ok.mp h3
  obtain ⟨hadded, rfl⟩ := fromExcept_ok.mp hfinished
  obtain ⟨_, s₅, hfrozen, h5⟩ := EStateM.bind_eq_ok.mp h4
  obtain rfl := (checkFrozen_ok hfrozen).1
  refine ⟨manifest, finished, trusted, resolved,
    ⟨hmanifest, htrusted, hresolved, hadded, hfrozen⟩, ?_⟩
  split_ifs at h5 ⊢
  · exact (EStateM.Result.ok.inj h5).2.symm
  · exact h5

end Steps

/-! ## The first element in any order -/

section Order
variable {α β : Type} {values : List α} {p : α → Bool}

theorem exists_order_find? {x : α} (hx : x ∈ values) (hp : p x) :
    ∃ order : List α, order.Perm values ∧ order.find? p = some x := by
  obtain ⟨front, rest, rfl⟩ := List.append_of_mem hx
  exact ⟨x :: (front ++ rest), List.perm_middle.symm, List.find?_cons_of_pos hp⟩

/-- What is made of the first element is the same in every order exactly when all elements that may
come first agree on it. -/
theorem find?_order_iff {f : α → β} {other b : β} :
    (∀ order : List α, order.Perm values → ((order.find? p).elim other f) = b) ↔
      (∀ x ∈ values, p x → f x = b) ∧ ((∀ x ∈ values, ¬ p x) → other = b) := by
  constructor
  · intro h
    refine ⟨fun x hx hp => ?_, fun hnone => ?_⟩
    · obtain ⟨order, hperm, hfind⟩ := exists_order_find? hx hp
      have hfirst := h order hperm
      rwa [hfind] at hfirst
    · have hfirst := h values (List.Perm.refl values)
      rwa [List.find?_eq_none.mpr hnone] at hfirst
  · rintro ⟨hagree, hother⟩ order hperm
    cases hfind : order.find? p with
    | none =>
      have hno := List.find?_eq_none.mp hfind
      exact hother fun x hx => hno x (hperm.mem_iff.mpr hx)
    | some x =>
      have hx := hperm.mem_iff.mp (List.mem_of_find?_eq_some hfind)
      exact hagree x hx (List.find?_some hfind)

end Order

/-! ## Nodes under a name -/

/-- The node is installed under the name, as its alias or its own. -/
def GoesBy (name : String) (node : DepNode) : Prop := node.aliasName = some name ∨ node.name = name

theorem decide_goesBy {name : String} {node : DepNode} :
    (node.aliasName = some name || node.name = name : Bool) = true ↔ GoesBy name node := by
  rw [Bool.or_eq_true, decide_eq_true_eq, decide_eq_true_eq, GoesBy]

theorem dependencyManifestSpec_eq {name requested : String} {nodes : List DepNode}
    (hnpm : beginsWith requested "npm:" = false) (hgit : isGitLikeSpec requested = false) :
    dependencyManifestSpec name requested nodes =
      (nodes.find? fun node => node.aliasName = some name || node.name = name).elim requested
        fun node => "^" ++ node.version := by
  unfold dependencyManifestSpec
  rw [hnpm, hgit, Bool.or_self, if_neg Bool.false_ne_true]
  cases nodes.find? fun node => node.aliasName = some name || node.name = name with
  | none => rfl
  | some node => rfl

theorem caret_inj {a b : String} : "^" ++ a = "^" ++ b ↔ a = b := String.append_right_inj "^"

/-- The version of the node in `node_modules` is written in every order of the nodes exactly when
every other node under the name has that version. -/
theorem dependencyManifestSpec_iff {graph : DepGraph} {name requested : String} {placed : DepNode}
    (hnpm : beginsWith requested "npm:" = false) (hgit : isGitLikeSpec requested = false)
    (_hplaced : graph.nodes.find? ("node_modules/" ++ name) = some placed) :
    (∀ order : List DepNode, order.Perm (graph.nodes.rows.map Prod.snd) →
        dependencyManifestSpec name requested order = "^" ++ placed.version) ↔
      (∀ row ∈ graph.nodes.rows, GoesBy name row.2 → row.2.version = placed.version) ∧
      ((∀ row ∈ graph.nodes.rows, ¬GoesBy name row.2) → requested = "^" ++ placed.version) := by
  simp only [dependencyManifestSpec_eq hnpm hgit, find?_order_iff, List.forall_mem_map,
    decide_goesBy, caret_inj]

/-! ## A package that is there twice -/

def hoistedPad : PlacementNode :=
  { demoNode with
    location := "node_modules/left-pad"
    installName := "left-pad"
    name := "left-pad"
    version := "1.3.0"
    resolved := some "https://registry.npmjs.org/left-pad/-/left-pad-1.3.0.tgz" }

def nestedPad : PlacementNode :=
  { hoistedPad with
    location := "node_modules/app/node_modules/left-pad"
    version := "1.1.0"
    resolved := some "https://registry.npmjs.org/left-pad/-/left-pad-1.1.0.tgz" }

theorem dependencyManifestSpec_nested : ∃ graph placed,
    (demoPlan [hoistedPad, nestedPad]).toDepGraph = .ok graph ∧
    graph.nodes.find? "node_modules/left-pad" = some placed ∧ placed.version = "1.3.0" ∧
    dependencyManifestSpec "left-pad" "latest" (graph.nodes.rows.map Prod.snd) = "^1.1.0" :=
  ⟨_, _, rfl, rfl, rfl, rfl⟩

theorem dependencyManifestSpec_iff_demo : ∃ graph placed,
    (demoPlan [hoistedPad]).toDepGraph = .ok graph ∧
    graph.nodes.find? "node_modules/left-pad" = some placed ∧
    ((∀ order : List DepNode, order.Perm (graph.nodes.rows.map Prod.snd) →
        dependencyManifestSpec "left-pad" "latest" order = "^" ++ placed.version) ↔
      (∀ row ∈ graph.nodes.rows, GoesBy "left-pad" row.2 → row.2.version = placed.version) ∧
      ((∀ row ∈ graph.nodes.rows, ¬GoesBy "left-pad" row.2) →
        "latest" = "^" ++ placed.version)) :=
  ⟨_, _, rfl, rfl, dependencyManifestSpec_iff rfl rfl rfl⟩

end Oath.Cli
