import Oath.Contracts.Decode
import Oath.Workspace.Globs

/-! Workspaces: the manifests of their packages, the dependencies that come from outside, and the
search for the root of a workspace, upwards from a directory. The nearest directory that declares a
workspace is taken, whatever its patterns name. -/

namespace Oath.Workspace
open Contracts Registry

inductive WorkspacesField
  | array (patterns : List String)
  | object (packages : List String)
deriving DecidableEq, Repr

structure Manifest where
  name : String
  version : String
  isPrivate : Bool
  dependencies : OrderedMap String String
  devDependencies : OrderedMap String String
  peerDependencies : OrderedMap String String
  optionalDependencies : OrderedMap String String
  workspaces : Option WorkspacesField

structure WorkspacePackage where
  name : String
  version : String
  path : String
  packageJson : Manifest

structure WorkspaceRoot where
  root : String
  packages : List WorkspacePackage

def WorkspacesField.ofValue? (value : Value) : Option WorkspacesField :=
  match value.strings? with
  | some patterns => some (.array patterns)
  | none => (value.field? "packages" Value.strings?).map .object

def Manifest.ofValue? (value : Value) : Option Manifest := do
  let value ← value.record? ["name", "version", "private", "dependencies", "devDependencies",
    "peerDependencies", "optionalDependencies", "workspaces"] 0
  let name ← value.fieldOr "name" Value.asStr? ""
  let version ← value.fieldOr "version" Value.asStr? ""
  let isPrivate ← value.fieldOr "private" Value.asBool? false
  let dependencies ← value.fieldOr "dependencies" Value.stringMap? .empty
  let devDependencies ← value.fieldOr "devDependencies" Value.stringMap? .empty
  let peerDependencies ← value.fieldOr "peerDependencies" Value.stringMap? .empty
  let optionalDependencies ← value.fieldOr "optionalDependencies" Value.stringMap? .empty
  let workspaces ← value.fieldOr "workspaces" (Value.option? WorkspacesField.ofValue?) none
  some ⟨name, version, isPrivate, dependencies, devDependencies, peerDependencies,
    optionalDependencies, workspaces⟩

def isWorkspaceSpec (spec : String) : Bool := beginsWith spec "workspace:"

def WorkspaceRoot.packageMap (ws : WorkspaceRoot) : OrderedMap String WorkspacePackage :=
  .ofList (ws.packages.map fun package => (package.name, package))

/-- The dependencies found so far: those from outside and the workspace links. -/
structure CollectedDeps where
  external : OrderedMap String String
  workspaceLinks : List (String × String × String)

/-- The first specification of an external dependency stays. -/
def processDep (consumer depName spec : String) (pkgMap : OrderedMap String WorkspacePackage)
    (deps : CollectedDeps) : CollectedDeps :=
  match isWorkspaceSpec spec, pkgMap.find? depName with
  | _, some package =>
    { deps with workspaceLinks := deps.workspaceLinks ++ [(consumer, depName, package.path)] }
  | true, none => deps
  | false, none => { deps with external := deps.external.insertNew depName spec }

/-- The groups of dependencies in the order in which they are visited; within a group the
order of the names does not matter. -/
def WorkspaceRoot.dependencyGroups (ws : WorkspaceRoot) (rootManifest : Option Manifest)
    (includeDev : Bool) : List (String × OrderedMap String String) :=
  let groups := fun (consumer : String) (manifest : Manifest) =>
    if includeDev then [(consumer, manifest.dependencies), (consumer, manifest.devDependencies)]
    else [(consumer, manifest.dependencies)]
  (rootManifest.map (groups "root")).getD [] ++
    ws.packages.flatMap fun package => groups package.name package.packageJson

def processGroup (pkgMap : OrderedMap String WorkspacePackage) (deps : CollectedDeps)
    (group : String × OrderedMap String String) : CollectedDeps :=
  group.2.rows.foldl (fun deps row => processDep group.1 row.1 row.2 pkgMap deps) deps

def WorkspaceRoot.collectExternalDeps (ws : WorkspaceRoot) (rootManifest : Option Manifest)
    (includeDev : Bool) : CollectedDeps :=
  (ws.dependencyGroups rootManifest includeDev).foldl (processGroup ws.packageMap) ⟨.empty, []⟩

/-! ## The external dependencies -/

/-- The dependency is neither a workspace reference nor a package of the workspace. -/
def WorkspaceRoot.isExternal (ws : WorkspaceRoot) (depName spec : String) : Bool :=
  !isWorkspaceSpec spec && (ws.packageMap.find? depName).isNone

theorem processDep_external (consumer depName spec : String) (ws : WorkspaceRoot)
    (deps : CollectedDeps) :
    (processDep consumer depName spec ws.packageMap deps).external =
      if ws.isExternal depName spec then deps.external.insertNew depName spec
      else deps.external := by
  unfold processDep WorkspaceRoot.isExternal
  cases ws.packageMap.find? depName <;> cases isWorkspaceSpec spec <;> rfl

/-- Every dependency that a manifest of the workspace declares, in the order of the visit. -/
def WorkspaceRoot.declarations (ws : WorkspaceRoot) (rootManifest : Option Manifest)
    (includeDev : Bool) : List (String × String) :=
  (ws.dependencyGroups rootManifest includeDev).flatMap fun group => group.2.rows

theorem foldl_processDep_external (consumer : String) (ws : WorkspaceRoot)
    (rows : List (String × String)) (deps : CollectedDeps) (depName : String) :
    (rows.foldl (fun deps row => processDep consumer row.1 row.2 ws.packageMap deps)
      deps).external.find? depName =
      (deps.external.find? depName).or
        ((rows.find? fun row => row.1 = depName && ws.isExternal row.1 row.2).map Prod.snd) := by
  induction rows generalizing deps with
  | nil => simp
  | cons row rest ih =>
    rw [List.foldl_cons, ih, processDep_external, List.find?_cons]
    by_cases hexternal : ws.isExternal row.1 row.2
    · rw [if_pos hexternal, OrderedMap.find?_insertNew, Option.or_assoc]
      by_cases hname : row.1 = depName
      · subst hname
        simp [hexternal]
      · simp [hname, Ne.symm hname]
    · rw [if_neg hexternal]
      simp [hexternal]

/-- An external dependency has the specification of its first declaration. -/
theorem find?_external (ws : WorkspaceRoot) (rootManifest : Option Manifest) (includeDev : Bool)
    (depName : String) :
    (ws.collectExternalDeps rootManifest includeDev).external.find? depName =
      ((ws.declarations rootManifest includeDev).find? fun row =>
        row.1 = depName && ws.isExternal row.1 row.2).map Prod.snd := by
  unfold WorkspaceRoot.collectExternalDeps WorkspaceRoot.declarations
  generalize ws.dependencyGroups rootManifest includeDev = groups
  have hgroups : ∀ deps : CollectedDeps,
      (groups.foldl (processGroup ws.packageMap) deps).external.find? depName =
        (deps.external.find? depName).or
          (((groups.flatMap fun group => group.2.rows).find? fun row =>
            row.1 = depName && ws.isExternal row.1 row.2).map Prod.snd) := by
    induction groups with
    | nil => simp
    | cons group rest ih =>
      intro deps
      rw [List.foldl_cons, ih, processGroup, foldl_processDep_external, List.flatMap_cons,
        List.find?_append, Option.or_assoc, Option.map_or]
  rw [hgroups]
  simp

/-! ## The search for the root -/

open Unix

/-- The file system, the parsers and the current directory. -/
structure Host (Pattern : Type) where
  glob : Glob Pattern
  tree : Tree
  /-- The text of a file that can be read as text. -/
  readToString : Location → Option String
  /-- The packages of a `pnpm-workspace.yaml`, none where it names none. -/
  fromYaml : String → Option (List String)
  fromJson : String → Option Value
  currentDir : Option Location

/-- Where the search starts. -/
inductive Start
  | absolute (directory : Location)
  | relative (names : List Name)

def pnpmWorkspaceName : Name := asBytes "pnpm-workspace.yaml"

def WorkspacesField.patterns : WorkspacesField → List String
  | array patterns => patterns
  | object packages => packages

section Detection
variable {Pattern : Type} (host : Host Pattern)

def readManifest (directory : Location) : Option Manifest :=
  ((host.readToString (directory ++ [packageJsonName])).bind host.fromJson).bind Manifest.ofValue?

def loadWorkspacePackage (directory : Location) : Option WorkspacePackage := do
  let manifest ← readManifest host directory
  if manifest.name = "" then none else
  some {
    name := manifest.name
    version := manifest.version
    path := String.ofList (pathText directory)
    packageJson := manifest }

def expandAndLoadPackages (root : Location) (patterns : List String) : List WorkspacePackage :=
  (expandWorkspaceGlobs host.glob host.tree root (patterns.map String.toList)).filterMap
    (loadWorkspacePackage host)

def workspaceRoot (root : Location) (patterns : List String) : WorkspaceRoot where
  root := String.ofList (pathText root)
  packages := expandAndLoadPackages host root patterns

/-- What a `pnpm-workspace.yaml` declares. -/
def pnpmPatterns? (directory : Location) : Option (List String) :=
  if host.tree.exists? (directory ++ [pnpmWorkspaceName]) then
    (host.readToString (directory ++ [pnpmWorkspaceName])).bind host.fromYaml
  else none

/-- What a `package.json` declares. -/
def manifestPatterns? (directory : Location) : Option (List String) :=
  if host.tree.exists? (directory ++ [packageJsonName]) then
    (readManifest host directory).bind fun manifest =>
      manifest.workspaces.map WorkspacesField.patterns
  else none

def tryDirectory (directory : Location) : Option WorkspaceRoot :=
  match pnpmPatterns? host directory with
  | some patterns => some (workspaceRoot host directory patterns)
  | none =>
    match manifestPatterns? host directory with
    | some patterns => some (workspaceRoot host directory patterns)
    | none => none

/-- The loop. The last name of the directory comes first. -/
def searchUp : List Name → Option WorkspaceRoot
  | [] => tryDirectory host []
  | name :: above =>
    (tryDirectory host (name :: above).reverse).orElse fun _ => searchUp above

def detectWorkspaceRoot (start : Start) : Option WorkspaceRoot :=
  match start with
  | .absolute directory => searchUp host directory.reverse
  | .relative names => host.currentDir.bind fun current => searchUp host (current ++ names).reverse

/-- What `oath install` works on. -/
inductive InstallTarget
  | workspace (root : WorkspaceRoot)
  | project

def installTarget (cwd : Location) (packages : List String) : InstallTarget :=
  match detectWorkspaceRoot host (.absolute cwd) with
  | some root => if packages.isEmpty then .workspace root else .project
  | none => .project

/-! ## What is found -/

/-- The patterns that count for a directory: those of pnpm before those of the manifest. -/
def declared? (directory : Location) : Option (List String) :=
  (pnpmPatterns? host directory).or (manifestPatterns? host directory)

def Start.directory? : Start → Option Location
  | absolute directory => some directory
  | relative names => host.currentDir.map (· ++ names)

/-- The root is the start or above it and declares the patterns, and nothing between declares
any. -/
structure NearestDeclaring (start root : Location) (patterns : List String) : Prop where
  above : root <+: start
  declares : declared? host root = some patterns
  nearest (between : Location) : between <+: start → root.length < between.length →
    declared? host between = none

end Detection

section Found
variable {Pattern : Type} {host : Host Pattern} {start root cwd : Location}
  {patterns : List String} {ws : WorkspaceRoot}

theorem tryDirectory_eq (directory : Location) : tryDirectory host directory =
    (declared? host directory).map (workspaceRoot host directory) := by
  unfold tryDirectory declared?
  cases pnpmPatterns? host directory with
  | some patterns => rfl
  | none =>
    rw [Option.none_or]
    cases manifestPatterns? host directory <;> rfl

theorem searchUp_eq_some_iff : searchUp host start.reverse = some ws ↔
    ∃ root patterns, NearestDeclaring host start root patterns ∧
      ws = workspaceRoot host root patterns := by
  induction start using List.reverseRecOn with
  | nil =>
    rw [List.reverse_nil, searchUp, tryDirectory_eq, Option.map_eq_some_iff]
    constructor
    · rintro ⟨patterns, hdeclares, rfl⟩
      refine ⟨[], patterns, ⟨List.prefix_rfl, hdeclares, fun between hbetween hlong => ?_⟩, rfl⟩
      rw [List.prefix_nil.mp hbetween] at hlong
      exact absurd hlong (lt_irrefl _)
    · rintro ⟨root, patterns, hnearest, rfl⟩
      obtain rfl := List.prefix_nil.mp hnearest.above
      exact ⟨patterns, hnearest.declares, rfl⟩
  | append_singleton directory name ih =>
    rw [List.reverse_append, List.reverse_singleton, List.singleton_append, searchUp,
      List.reverse_cons, List.reverse_reverse, tryDirectory_eq]
    cases hhere : declared? host (directory ++ [name]) with
    | some patterns =>
      rw [Option.map_some, Option.orElse_some, Option.some_inj]
      constructor
      · rintro rfl
        refine ⟨_, patterns, ⟨List.prefix_rfl, hhere, fun between hbetween hlong => ?_⟩, rfl⟩
        exact absurd hbetween.length_le (Nat.not_le_of_lt hlong)
      · rintro ⟨root, patterns', hnearest, rfl⟩
        have hlong : ¬ root.length < (directory ++ [name]).length := by
          intro hshort
          have hnone := hnearest.nearest _ List.prefix_rfl hshort
          rw [hhere] at hnone
          cases hnone
        obtain rfl := hnearest.above.eq_of_length_le (not_lt.mp hlong)
        rw [Option.some.inj (hhere.symm.trans hnearest.declares)]
    | none =>
      rw [Option.map_none, Option.orElse_none, ih]
      refine exists_congr fun root => exists_congr fun patterns => and_congr_left fun _ => ?_
      constructor
      · intro hnearest
        refine ⟨hnearest.above.trans (List.prefix_append _ _), hnearest.declares, ?_⟩
        intro between hbetween hlong
        rcases List.prefix_concat_iff.mp hbetween with rfl | hshort
        · exact hhere
        · exact hnearest.nearest between hshort hlong
      · intro hnearest
        have habove : root <+: directory := by
          refine (List.prefix_concat_iff.mp hnearest.above).resolve_left fun heq => ?_
          have hdeclares := hnearest.declares
          rw [heq, hhere] at hdeclares
          cases hdeclares
        refine ⟨habove, hnearest.declares, fun between hbetween hlong => ?_⟩
        exact hnearest.nearest between (hbetween.trans (List.prefix_append _ _)) hlong

theorem detectWorkspaceRoot_eq_some_iff {start : Start} :
    detectWorkspaceRoot host start = some ws ↔
      ∃ directory, start.directory? host = some directory ∧ ∃ root patterns,
        NearestDeclaring host directory root patterns ∧ ws = workspaceRoot host root patterns := by
  cases start with
  | absolute directory =>
    rw [detectWorkspaceRoot, searchUp_eq_some_iff]
    refine ⟨fun h => ⟨directory, rfl, h⟩, ?_⟩
    rintro ⟨directory', heq, h⟩
    rwa [Option.some.inj heq]
  | relative names =>
    rw [detectWorkspaceRoot, Start.directory?, Option.bind_eq_some_iff]
    constructor
    · rintro ⟨current, hcurrent, h⟩
      refine ⟨current ++ names, ?_, searchUp_eq_some_iff.mp h⟩
      rw [hcurrent]
      rfl
    · rintro ⟨directory, hdirectory, h⟩
      obtain ⟨current, hcurrent, rfl⟩ := Option.map_eq_some_iff.mp hdirectory
      exact ⟨current, hcurrent, searchUp_eq_some_iff.mpr h⟩

/-- The root of a workspace is the nearest directory from the start upwards that declares one, and
what is installed without names is that workspace whenever there is one. -/
theorem detectWorkspaceRoot_nearest (host : Host Pattern) :
    (∀ (start : Start) (ws : WorkspaceRoot), detectWorkspaceRoot host start = some ws ↔
      ∃ directory, start.directory? host = some directory ∧ ∃ root patterns,
        NearestDeclaring host directory root patterns ∧
          ws = workspaceRoot host root patterns) ∧
    ∀ (cwd : Location) (packages : List String) (ws : WorkspaceRoot),
      installTarget host cwd packages = .workspace ws ↔ packages = [] ∧
        ∃ root patterns, NearestDeclaring host cwd root patterns ∧
          ws = workspaceRoot host root patterns := by
  refine ⟨fun start ws => detectWorkspaceRoot_eq_some_iff, fun cwd packages ws => ?_⟩
  have hsearch : detectWorkspaceRoot host (.absolute cwd) = some ws ↔
      ∃ root patterns, NearestDeclaring host cwd root patterns ∧
        ws = workspaceRoot host root patterns := searchUp_eq_some_iff
  rw [← hsearch, installTarget]
  cases detectWorkspaceRoot host (.absolute cwd) with
  | none => simp
  | some root =>
    cases packages with
    | nil => simp
    | cons name rest => simp

end Found

/-! ## A project that is in no package -/

section Nested

def toolsDir : Location := [asBytes "w", asBytes "tools"]

def rootText : String :=
  "\x7b\"name\":\"w\",\"version\":\"1.0.0\",\"workspaces\":[\"app\"]\x7d"

/-- `/w` declares the workspace `app`, and `/w/tools` is a project besides. -/
def nestedHost : Host (List Char) where
  glob := literalGlob [workRoot, appDir, toolsDir]
  tree := literalTree [workRoot, appDir, toolsDir]
  readToString location :=
    if location = workRoot ++ [packageJsonName] then some rootText
    else if location = appDir ++ [packageJsonName] ∨ location = toolsDir ++ [packageJsonName] then
      some "{}"
    else none
  fromYaml _ := none
  fromJson text :=
    if text = rootText then some (.object [("name", .string "w"), ("version", .string "1.0.0"),
      ("workspaces", .array [.string "app"])])
    else some (.object [])
  currentDir := none

/-- The project is taken for a part of the workspace. -/
theorem project_in_workspace : ∃ ws,
    detectWorkspaceRoot nestedHost (.absolute toolsDir) = some ws ∧ ws.root = "/w" ∧
      toolsDir ≠ workRoot ∧
      (∀ dir ∈ expandWorkspaceGlobs nestedHost.glob nestedHost.tree workRoot ["app".toList],
        ¬ dir <+: toolsDir) ∧
      installTarget nestedHost toolsDir [] = .workspace ws := by
  have hroot : declared? nestedHost workRoot = some ["app"] := by decide
  have htools : declared? nestedHost toolsDir = none := by decide
  have hnearest : NearestDeclaring nestedHost toolsDir workRoot ["app"] := by
    refine ⟨by decide, hroot, fun between hbetween hlong => ?_⟩
    have hwhole : between = toolsDir := hbetween.eq_of_length_le hlong
    rw [hwhole, htools]
  have hdetected : detectWorkspaceRoot nestedHost (.absolute toolsDir) =
      some (workspaceRoot nestedHost workRoot ["app"]) :=
    searchUp_eq_some_iff.mpr ⟨workRoot, ["app"], hnearest, rfl⟩
  refine ⟨_, hdetected, by decide, by decide, fun dir hdir habove => ?_, ?_⟩
  · have hcandidate := ((mem_expandWorkspaceGlobs (literalGlob_lists _)).mp hdir).1
    obtain ⟨pattern, hpattern, -, compiled, hcompiled, hmatches⟩ := hcandidate.named
    obtain rfl := List.mem_singleton.mp hpattern
    obtain rfl := Option.some.inj hcompiled
    have hprefixes : ∀ dir ∈ toolsDir.inits,
        pathText dir ≠ absolutePattern workRoot "app".toList := by
      decide
    exact hprefixes dir ((List.mem_inits dir toolsDir).mpr habove) hmatches
  · rw [installTarget, hdetected]
    rfl

end Nested

end Oath.Workspace
