import Mathlib.Data.List.Infix
import Oath.Library.ModuleLookup
import Oath.Library.OrderedMap
import Oath.Library.Outcome
import Oath.Registry.Digest

/-! Placement plans, the package graph that Oath makes of one, and the checks of its
locations; and the plan that the planner script makes of Arborist's ideal tree. -/

namespace Oath.Resolve
open Registry

structure PlacementEdge where
  name : String
  spec : String
  dependencyType : String
  targetLocation : Option String
  valid : Bool
deriving DecidableEq, Repr

structure PlacementNode where
  location : String
  installName : String
  name : String
  version : String
  resolved : Option String
  integrity : Option String
  dev : Bool
  optional : Bool
  hasInstallScript : Bool
  reuseExisting : Bool
  link : Bool
  target : Option String
  edges : List PlacementEdge
deriving DecidableEq, Repr

structure PlannerIdentity where
  name : String
  npm : String
deriving DecidableEq, Repr

structure PlacementPlan where
  schemaVersion : UInt32
  planner : PlannerIdentity
  project : String
  nodes : List PlacementNode
  removedLocations : List String
  invalidEdges : List PlacementEdge
deriving DecidableEq, Repr

def placementPlanVersion : UInt32 := 2

/-! ## The package graph -/

/-- A set of names is a map without values. -/
structure DepNode where
  name : String
  aliasName : Option String
  version : String
  resolved : String
  integrity : Option String
  dependencies : OrderedMap String String
  hasInstallScript : Bool
  dev : Bool
  optional : Bool
  peerDependencies : OrderedMap String String
  optionalPeers : OrderedMap String Unit
  resolvedPeers : OrderedMap String String
deriving DecidableEq

structure DepGraph where
  nodes : OrderedMap String DepNode
  roots : List String
deriving DecidableEq

def PlacementEdge.isPeer (edge : PlacementEdge) : Bool := beginsWith edge.dependencyType "peer"

def targetsOf (edges : List PlacementEdge) : OrderedMap String String :=
  .ofList (edges.filterMap fun edge => edge.targetLocation.map fun target => (edge.name, target))

def toDepNode (node : PlacementNode) (resolved : String) : DepNode where
  name := node.name
  aliasName := if node.installName ≠ node.name then some node.installName else none
  version := node.version
  resolved
  integrity := node.integrity
  dependencies := targetsOf (node.edges.filter fun edge => !edge.isPeer)
  hasInstallScript := node.hasInstallScript
  dev := node.dev
  optional := node.optional
  peerDependencies :=
    .ofList ((node.edges.filter PlacementEdge.isPeer).map fun edge => (edge.name, edge.spec))
  optionalPeers := .ofList ((node.edges.filter fun edge => edge.dependencyType = "peerOptional").map
    fun edge => (edge.name, ()))
  resolvedPeers := targetsOf (node.edges.filter PlacementEdge.isPeer)

def isRootLocation (location : String) : Bool :=
  let directory := asBytes "node_modules/"
  directory.isPrefixOf (asBytes location) &&
    !decide (asBytes "/node_modules/" <:+: (asBytes location).drop directory.length)

/-- The nodes by location; link nodes are left out. -/
def depNodes : List PlacementNode → OrderedMap String DepNode →
    Except String (OrderedMap String DepNode)
  | [], nodes => .ok nodes
  | node :: rest, nodes =>
    if node.link then depNodes rest nodes
    else match node.resolved with
      | none => .error ("Arborist omitted resolved URL for " ++ node.location)
      | some resolved => depNodes rest (nodes.insert node.location (toDepNode node resolved))

def PlacementPlan.toDepGraph (plan : PlacementPlan) : Except String DepGraph := do
  let nodes ← depNodes plan.nodes .empty
  .ok {
    nodes
    roots := (plan.nodes.filter fun node => !node.link && isRootLocation node.location).map
      PlacementNode.location }

/-! ## The nodes of the graph -/

def graphRow? (node : PlacementNode) : Option (String × DepNode) :=
  if node.link then none
  else node.resolved.map fun resolved => (node.location, toDepNode node resolved)

theorem depNodes_ok {nodes : List PlacementNode} {start graph : OrderedMap String DepNode}
    (h : depNodes nodes start = .ok graph) :
    (∀ node ∈ nodes, node.link = false → node.resolved.isSome) ∧
      graph = (nodes.filterMap graphRow?).foldl (fun m row => m.insert row.1 row.2) start := by
  induction nodes generalizing start with
  | nil =>
    obtain rfl := Except.ok.inj h
    exact ⟨by simp, rfl⟩
  | cons node rest ih =>
    rw [depNodes] at h
    split_ifs at h with hlink
    · obtain ⟨hresolved, hgraph⟩ := ih h
      have hrow : graphRow? node = none := by simp [graphRow?, hlink]
      rw [List.filterMap_cons_none hrow]
      refine ⟨fun other hother => ?_, hgraph⟩
      rcases List.mem_cons.mp hother with rfl | hrest
      · simp [hlink]
      · exact hresolved other hrest
    · cases hnode : node.resolved with
      | none =>
        rw [hnode] at h
        cases h
      | some resolved =>
        rw [hnode] at h
        obtain ⟨hresolved, hgraph⟩ := ih h
        have hrow : graphRow? node = some (node.location, toDepNode node resolved) := by
          simp [graphRow?, hlink, hnode]
        rw [List.filterMap_cons_some hrow]
        refine ⟨fun other hother => ?_, hgraph⟩
        rcases List.mem_cons.mp hother with rfl | hrest
        · simp [hnode]
        · exact hresolved other hrest

theorem toDepGraph_ok {plan : PlacementPlan} {graph : DepGraph} (h : plan.toDepGraph = .ok graph) :
    (∀ node ∈ plan.nodes, node.link = false → node.resolved.isSome) ∧
      graph.nodes = .ofList (plan.nodes.filterMap graphRow?) := by
  obtain ⟨nodes, hnodes, hgraph⟩ := Except.bind_eq_ok.mp h
  obtain rfl := Except.ok.inj hgraph
  exact depNodes_ok hnodes

end Oath.Resolve

/-! ## The plan of an ideal tree -/

namespace Oath.Resolve
open Registry ModuleLookup

structure ArboristEdge where
  name : String
  spec : String
  edgeType : String
  /-- The location of the node that the edge leads to. -/
  leadsTo : Option String
  valid : Bool
deriving DecidableEq, Repr

structure ArboristPackage where
  name : Option String
  version : Option String
  scripts : OrderedMap String String
deriving DecidableEq

structure ArboristNode where
  location : String
  name : String
  package : ArboristPackage
  resolved : Option String
  integrity : Option String
  dev : Bool
  optional : Bool
  isLink : Bool
  target : Option String
  inDepBundle : Bool
  isWorkspace : Bool
  edgesOut : List ArboristEdge
deriving DecidableEq

/-! ## The script -/

/-- `replaceAll('\\', '/')`. -/
def slashed (location : String) : String :=
  String.ofList (location.toList.map fun c => if c = '\\' then '/' else c)

def truthy (text : Option String) : Option String := text.filter fun text => text ≠ ""

namespace ArboristNode
variable (node : ArboristNode)

def version : String := (truthy node.package.version).getD "0.0.0"

/-- What the script keeps of the inventory. -/
def isKept : Bool :=
  !node.inDepBundle && node.location ≠ "" && beginsWith (slashed node.location) "node_modules/" &&
    (truthy node.package.name).isSome && (node.isLink || (truthy node.package.version).isSome)

def hasInstallScript : Bool :=
  ["preinstall", "install", "postinstall"].any fun hook =>
    (truthy (node.package.scripts.find? hook)).isSome

end ArboristNode

section Script

/-! The order is that of `localeCompare`. -/

variable (comesBefore : String → String → Bool)

def planEdge (edge : ArboristEdge) : PlacementEdge where
  name := edge.name
  spec := edge.spec
  dependencyType := edge.edgeType
  targetLocation := edge.leadsTo.map slashed
  valid := edge.valid

def planNode (unchanged : List String) (node : ArboristNode) : PlacementNode where
  location := slashed node.location
  installName := node.name
  name := (truthy node.package.name).getD ""
  version := node.version
  resolved := truthy node.resolved
  integrity := truthy node.integrity
  dev := node.dev
  optional := node.optional
  hasInstallScript := node.hasInstallScript
  reuseExisting := slashed node.location ∈ unchanged.map slashed
  link := node.isLink
  target := if node.isLink then node.target else none
  edges := (node.edgesOut.map planEdge).mergeSort fun a b => comesBefore a.name b.name

/-- The locations of modules in the directory: a module of its own stands in `node_modules`. -/
def pathSegments (location : String) : List String :=
  if location = "" then []
  else (location.toList.splitOnP (· = '/')).map String.ofList

def StandsAt (nodes : List ArboristNode) (location : String) (node : ArboristNode) : Prop :=
  node ∈ nodes ∧ node.location = location

/-- An edge of a workspace package leads to the module that is found from the package. -/
def EdgesResolve (nodes : List ArboristNode) : Prop :=
  ∀ node ∈ nodes, node.isWorkspace → ∀ edge ∈ node.edgesOut, ∀ location,
    edge.leadsTo = some location → ∃ target, StandsAt nodes location target ∧
      Resolves (StandsAt nodes) (pathSegments node.location) edge.name target

/-- A tree as Arborist documents it: its locations are slash-normalized and tell the nodes
apart, and an edge leads to the module that is found from the package that has it. -/
structure IdealTree where
  nodes : List ArboristNode
  unchanged : List String
  removed : List String
  posix : ∀ node ∈ nodes, '\\' ∉ node.location.toList
  distinct : (nodes.map ArboristNode.location).Nodup
  resolved : EdgesResolve nodes

def arboristPlan (npm project : String) (tree : IdealTree) : PlacementPlan :=
  let nodes := ((tree.nodes.filter ArboristNode.isKept).map
    (planNode comesBefore tree.unchanged)).mergeSort
      fun a b => comesBefore a.location b.location
  { schemaVersion := 2
    planner := ⟨"@npmcli/arborist", npm⟩
    project
    nodes
    removedLocations := ((tree.removed.map slashed).filter fun location =>
      beginsWith location "node_modules/").mergeSort comesBefore
    invalidEdges := nodes.flatMap fun node => node.edges.filter fun edge => !edge.valid }

theorem mem_arboristPlan {npm project : String} {tree : IdealTree} {placement : PlacementNode} :
    placement ∈ (arboristPlan comesBefore npm project tree).nodes ↔
      ∃ node ∈ tree.nodes, node.isKept ∧ planNode comesBefore tree.unchanged node = placement := by
  unfold arboristPlan
  simp only [List.mem_mergeSort, List.mem_map, List.mem_filter, and_assoc]

end Script

theorem slashed_of_posix {location : String} (h : '\\' ∉ location.toList) :
    slashed location = location := by
  have hsame : (location.toList.map fun c => if c = '\\' then '/' else c) = location.toList := by
    calc location.toList.map (fun c => if c = '\\' then '/' else c)
      _ = location.toList.map id := by
          apply List.map_congr_left
          intro c hc
          exact if_neg (ne_of_mem_of_not_mem hc h)
      _ = location.toList := List.map_id _
  rw [slashed, hsame, String.ofList_toList]

/-- The locations tell the nodes of a tree apart. -/
theorem IdealTree.node_unique {tree : IdealTree} {node other : ArboristNode}
    (hnode : node ∈ tree.nodes) (hother : other ∈ tree.nodes)
    (h : node.location = other.location) : node = other :=
  List.inj_on_of_nodup_map tree.distinct hnode hother h

end Oath.Resolve
