import Oath.Library.Pieces
import Oath.Resolve.Lockfile

/-! The import of a lockfile that npm has written. Its packages stand under the paths of their
directories; what one of them needs is looked for in the directories around it. -/

namespace Oath.Resolve
open Contracts Contracts.Value

/-- `std::env::consts`. -/
structure Host where
  os : String
  arch : String

def Host.npmOs (host : Host) : String :=
  match host.os with
  | "macos" => "darwin"
  | "windows" => "win32"
  | other => other

def Host.npmCpu (host : Host) : String :=
  match host.arch with
  | "x86_64" => "x64"
  | "aarch64" => "arm64"
  | "x86" => "ia32"
  | other => other

/-- Whether a list of systems allows this one: no item excludes it, and some item names it when any
item names a system. -/
def matchesList (field : Option Value) (current : String) : Bool :=
  match field.bind asArray? with
  | none | some [] => true
  | some list =>
    let items := (list.filterMap asStr?).map String.toList
    let named := items.filter fun item => item.head? ≠ some '!'
    !items.contains ('!' :: current.toList) && (named.isEmpty || named.contains current.toList)

/-- An entry, or the whole map of packages. -/
abbrev Fields := List (String × Value)

def platformMatches (host : Host) (entry : Fields) : Bool :=
  matchesList (entry.lookup "os") host.npmOs && matchesList (entry.lookup "cpu") host.npmCpu

def flag (entry : Fields) (field : String) : Bool :=
  ((entry.lookup field).bind asBool?).getD false

def rangeMap (field : Option Value) : OrderedMap String String :=
  .ofList (((field.bind asObject?).getD []).filterMap fun row => row.2.asStr?.map (row.1, ·))

/-- The part behind the last `node_modules/`. -/
def nameFromPath (path : String) : String :=
  String.ofList ((Pieces.after "node_modules/".toList path.toList).getD path.toList)

/-- The node of an entry, without its dependencies. The root, links, entries without a version and
packages for other systems have none. -/
def npmNode? (host : Host) (path : String) (value : Value) : Option DepNode := do
  if path = "" then none else
  let entry ← value.asObject?
  if flag entry "link" then none else
  let version ← (entry.lookup "version").bind asStr?
  if !platformMatches host entry then none else
  some {
    name := nameFromPath path
    aliasName := none
    version
    resolved := ((entry.lookup "resolved").bind asStr?).getD ""
    integrity := (entry.lookup "integrity").bind asStr?
    dependencies := .empty
    hasInstallScript := flag entry "hasInstallScript"
    dev := flag entry "dev" || flag entry "devOptional"
    optional := flag entry "optional" || flag entry "devOptional"
    peerDependencies := rangeMap (entry.lookup "peerDependencies")
    optionalPeers := .empty
    resolvedPeers := .empty }

/-! ## Paths -/

/-- What stands between the paths of a package and of one inside it. -/
def between : List Char := "/node_modules/".toList

/-- Where a dependency is looked for in a directory. -/
def candidate (directory : List Char) (dep : String) : String :=
  if directory = [] then String.ofList ("node_modules/".toList ++ dep.toList)
  else String.ofList (directory ++ (between ++ dep.toList))

/-- One turn of the loop for each unit of fuel. -/
def resolveFrom (packages : Fields) (dep : String) : ℕ → List Char → Option String
  | 0, _ => none
  | fuel + 1, directory =>
    if (packages.lookup (candidate directory dep)).isSome then some (candidate directory dep)
    else if directory = [] then none
    else resolveFrom packages dep fuel
      ((Pieces.beforeLast between directory).getD [])

def resolveDepPath (packages : Fields) (path dep : String) : Option String :=
  resolveFrom packages dep (path.toList.length + 1) path.toList

/-! ## The import -/

/-- The names under these fields of an entry. -/
def depNames (entry : Fields) (fields : List String) : List String :=
  fields.flatMap fun field => (((entry.lookup field).bind asObject?).getD []).map Prod.fst

section Import
variable (host : Host) (packages : Fields)

/-- The first pass. -/
def imported : List (String × DepNode) :=
  packages.filterMap fun row => (npmNode? host row.1 row.2).map (row.1, ·)

def pathToKey : OrderedMap String String :=
  .ofList ((imported host packages).map fun row => (row.1, canonicalKey row.2))

def skeletons : OrderedMap String DepNode :=
  .ofList ((imported host packages).map fun row => (canonicalKey row.2, row.2))

/-- The key of what a dependency of the package at the path is resolved to. -/
def resolvedKey (path dep : String) : Option String :=
  (resolveDepPath packages path dep).bind (pathToKey host packages).find?

/-- What is found for a dependency is put under its name. -/
def insertFound (found : String → Option String) (resolved : OrderedMap String String)
    (dep : String) : OrderedMap String String :=
  match found dep with
  | some key => resolved.insert dep key
  | none => resolved

def resolvedDeps (path : String) (entry : Fields) : OrderedMap String String :=
  (depNames entry ["dependencies", "optionalDependencies"]).foldl
    (insertFound (resolvedKey host packages path)) .empty

/-- The second pass, on one entry. -/
def linkEntry (nodes : OrderedMap String DepNode) (row : String × Value) :
    OrderedMap String DepNode :=
  match row.2.asObject?, (pathToKey host packages).find? row.1 with
  | some entry, some key =>
    match nodes.find? key with
    | some node =>
      nodes.insert key { node with dependencies := resolvedDeps host packages row.1 entry }
    | none => nodes
  | _, _ => nodes

def npmRoots : List String :=
  match (packages.lookup "").bind asObject? with
  | none => []
  | some entry =>
    (depNames entry ["dependencies", "devDependencies", "optionalDependencies"]).foldl
      (fun roots dep =>
        match resolvedKey host packages "" dep with
        | some key => if key ∈ roots then roots else roots ++ [key]
        | none => roots) []

end Import

/-- The text of the file may not be read; each error is what stands outermost. -/
def importNpmLockfile (host : Host) (fromStr : String → Except String Value) (path : String)
    (content : Except String String) : Except String DepGraph :=
  match content with
  | .error _ => .error s!"reading {path}"
  | .ok data =>
    match fromStr data with
    | .error _ => .error s!"parsing {path}"
    | .ok root =>
      match (root.get? "packages").bind asObject? with
      | none => .error ("package-lock.json has no `packages` map (lockfileVersion 1 is " ++
          "unsupported; run `npm install` once with npm 7+ to upgrade it)")
      | some packages =>
        let nodes := packages.foldl (linkEntry host packages) (skeletons host packages)
        if nodes.rows.isEmpty then .error "package-lock.json contained no installable packages"
        else .ok { nodes, roots := npmRoots host packages }

end Oath.Resolve
