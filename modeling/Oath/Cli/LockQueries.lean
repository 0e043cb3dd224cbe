import Oath.Cli.Session

/-! The commands that ask the lockfile: why a package is installed, and which packages need which.
They read the JSON anew, with keys that have a name and a version. -/

namespace Oath.Cli
open Contracts Registry Resolve Value

/-- The packages of a lockfile, and the dependencies of one of them. -/
abbrev JsonRows := List (String × Value)

/-- The key that a dependency is taken to lead to. -/
def lockDepKey (dep : String × Value) : String := dep.1 ++ "@" ++ dep.2.asStr?.getD ""

def lockDeps (entry : Value) : Option JsonRows := (entry.get? "dependencies").bind asObject?

/-- The keys of a name, of any version. -/
def matchesPackage (package key : String) : Bool := key = package || beginsWith key (package ++ "@")

/-! ## Why -/

/-- Which packages depend on a key. -/
def reverseDeps (packages : JsonRows) : OrderedMap String (List String) :=
  packages.foldl (fun rdeps row => ((lockDeps row.2).getD []).foldl (fun rdeps dep =>
    rdeps.insert (lockDepKey dep) ((rdeps.find? (lockDepKey dep)).getD [] ++ [row.1])) rdeps)
    .empty

section Search
variable (rdeps : OrderedMap String (List String))

structure SearchState where
  queue : List (String × List String)
  visited : List String

/-- The parents of a key are queued, unless one of them is a root. -/
def visitParents (path : List String) : List String → SearchState → List String ⊕ SearchState
  | [], s => .inr s
  | parent :: parents, s =>
    if s.visited.contains parent then visitParents path parents s
    else if ((rdeps.find? parent).getD []).isEmpty then .inl (parent :: path)
    else visitParents path parents
      ⟨s.queue ++ [(parent, parent :: path)], s.visited ++ [parent]⟩

/-- One key of the queue for each unit of fuel. -/
def searchPath : ℕ → SearchState → List String
  | 0, _ => []
  | fuel + 1, s =>
    match s.queue with
    | [] => []
    | (current, path) :: queue =>
      match rdeps.find? current with
      | none => path
      | some parents =>
        match visitParents rdeps path parents { s with queue } with
        | .inl found => found
        | .inr next => searchPath fuel next

/-- Every key is queued once at most. -/
def findDepPath (start : String) : List String :=
  searchPath rdeps ((rdeps.rows.map fun row => row.2.length).sum + 1) ⟨[(start, [])], [start]⟩

end Search

inductive Reason
  | direct
  | chain (path : List String)
  | unknown
deriving DecidableEq, Repr

structure WhyReport where
  key : String
  name : String
  version : String
  reason : Reason
  stored : List String

inductive WhyOutput
  | noLockfile
  | noPackages
  | notFound
  | found (reports : List WhyReport)

def Reason.line : Reason → String
  | direct => "    why: required by your package.json (direct dependency)"
  | chain path => "    why: required by " ++ " -> ".intercalate path ++ " -> root"
  | unknown => "    why: required by (unknown)"

def WhyReport.lines (report : WhyReport) : List String :=
  [s!"  {report.name}@{report.version}", report.reason.line] ++ report.stored ++ [""]

def WhyOutput.lines (package : String) : WhyOutput → List String
  | noLockfile => ["oath why: no oath-lock.json found (run `oath install` first)"]
  | noPackages => ["oath why: oath-lock.json has no packages"]
  | notFound => ["oath why: '" ++ package ++ "' not found in oath-lock.json"]
  | found reports => reports.flatMap WhyReport.lines

section Commands
variable {Text : Type} (json : JsonText Text) (files : Files Text) (directory : String)

/-- A manifest that is no JSON counts as empty. -/
def manifestOrEmpty : Option Value :=
  (files (packageJsonPath directory)).map fun text => (json.parse text).toOption.getD (.object [])

def directDeps : List String :=
  match manifestOrEmpty json files directory with
  | some pkg => (extractDeps pkg "dependencies").keys ++ (extractDeps pkg "devDependencies").keys
  | none => []

/-- What stands in the store of a package is asked outside: its name, its version, where it comes
from, its integrity and whether the lockfile has an install script for it. -/
structure StoreReport where
  lines : String → String → Option String → Option String → Bool → Except String (List String)

def whyReport (store : StoreReport) (package : String) (rdeps : OrderedMap String (List String))
    (row : String × Value) : Except String WhyReport := do
  let name := ((row.2.get? "name").bind asStr?).getD package
  let version := ((row.2.get? "version").bind asStr?).getD "?"
  let script := (((row.2.get? "hasInstallScript").or (row.2.get? "has_install_script")).bind
    asBool?).getD false
  let path := findDepPath rdeps row.1
  let stored ← store.lines name version ((row.2.get? "resolved").bind asStr?)
    ((row.2.get? "integrity").bind asStr?) script
  pure {
    key := row.1
    name
    version
    reason := if (directDeps json files directory).contains name then .direct
      else if path = [] then .unknown else .chain path
    stored }

def cmdWhy (store : StoreReport) (package : String) : Except String WhyOutput :=
  match files (lockPath directory) with
  | none => .ok .noLockfile
  | some text =>
    match json.parse text with
    | .error message => .error message
    | .ok lock =>
      match (lock.get? "packages").bind asObject? with
      | none => .ok .noPackages
      | some packages =>
        match packages.filter fun row => matchesPackage package row.1 with
        | [] => .ok .notFound
        | found =>
          (((found.mergeSort fun a b => a.1 ≤ b.1).mapM
            (whyReport json files directory store package (reverseDeps packages))).map .found)

/-! ## Graph -/

inductive GraphLine
  | noLockfile
  | noPackages
  | noRoots
  | project (name version : String)
  | root (key : String)
  | child (indent key : String)
  | more (indent : String) (count : ℕ)
  | circular (indent : String)
  | blank
deriving DecidableEq, Repr

def GraphLine.text : GraphLine → String
  | noLockfile => "oath graph: no oath-lock.json found (run `oath install` first)"
  | noPackages => "oath graph: oath-lock.json has no packages"
  | noRoots => "  (no root packages found)"
  | project name version => s!"  {name}@{version}"
  | root key => s!"  {key}"
  | child indent key => s!"  {indent}+-- {key}"
  | more indent count => s!"  {indent}... ({count} more deps, use --depth to show)"
  | circular indent => s!"  {indent}(circular)"
  | blank => ""

def sortedDepKeys (deps : JsonRows) : List String :=
  (deps.map lockDepKey).mergeSort fun a b => a ≤ b

/-- The dependencies of a key, when the lockfile has it. -/
def depsOf (packages : JsonRows) (key : String) : Option JsonRows :=
  (packages.lookup key).bind lockDeps

/-- What is printed below some children; `remaining` is how much deeper it may go. -/
def printGraphChildren (packages : JsonRows) :
    ℕ → List String → String → List String → List GraphLine
  | 0, _, indent, children => children.zipIdx.flatMap fun (child, i) =>
    let below := if i + 1 = children.length then indent ++ "    " else indent ++ "|   "
    GraphLine.child indent child :: match depsOf packages child with
      | none | some [] => []
      | some deps => [.more below deps.length]
  | remaining + 1, visited, indent, children => children.zipIdx.flatMap fun (child, i) =>
    let below := if i + 1 = children.length then indent ++ "    " else indent ++ "|   "
    GraphLine.child indent child ::
      if visited.contains child then [.circular below]
      else match depsOf packages child with
        | none => []
        | some deps => printGraphChildren packages remaining (child :: visited) below
          (sortedDepKeys deps)

/-- The children of a root are at depth one. -/
def printRoot (packages : JsonRows) (maxDepth : ℕ) (key : String) : List GraphLine :=
  .root key :: match depsOf packages key with
    | none => []
    | some deps => printGraphChildren packages (maxDepth - 1) [] "" (sortedDepKeys deps)

/-- Without roots in the lockfile and without a manifest: what nothing leads to. -/
def withoutParents (packages : JsonRows) : List String :=
  let parents := packages.flatMap fun row => ((lockDeps row.2).getD []).map lockDepKey
  (packages.map Prod.fst).filter fun key => !parents.contains key

def graphOfManifest (packages : JsonRows) (pkg : Value) (maxDepth : ℕ) : List GraphLine :=
  let name := (pkg.index "name").asStr?.getD "project"
  let version := (pkg.index "version").asStr?.getD "0.0.0"
  let direct := ((extractDeps pkg "dependencies").keys ++
    (extractDeps pkg "devDependencies").keys).mergeSort fun a b => a ≤ b
  let children := direct.filterMap fun dep =>
    (packages.find? fun row => matchesPackage dep row.1).map Prod.fst
  .project name version :: printGraphChildren packages (maxDepth - 1) [] "" children ++ [.blank]

def graphOfRoots (packages : JsonRows) (roots : List String) (maxDepth : ℕ) : List GraphLine :=
  if roots.isEmpty then [.noRoots] else roots.flatMap (printRoot packages maxDepth) ++ [.blank]

def cmdGraph (maxDepth : ℕ) : Except String (List GraphLine) :=
  match files (lockPath directory) with
  | none => .ok [.noLockfile]
  | some text =>
    match json.parse text with
    | .error message => .error message
    | .ok lock =>
      match (lock.get? "packages").bind asObject? with
      | none => .ok [.noPackages]
      | some packages =>
        match (lock.get? "roots").bind asArray? with
        | some roots => .ok (graphOfRoots packages (roots.filterMap asStr?) maxDepth)
        | none =>
          match manifestOrEmpty json files directory with
          | some pkg => .ok (graphOfManifest packages pkg maxDepth)
          | none => .ok (graphOfRoots packages (withoutParents packages) maxDepth)

end Commands

end Oath.Cli
