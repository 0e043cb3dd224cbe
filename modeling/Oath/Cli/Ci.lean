import Oath.Cli.Frozen
import Oath.Library.UnixPath

/-! `ci`: the tree that it links, and when that tree is the one of the lockfile. -/

namespace Oath.Cli
open Contracts Registry Resolve Unix

section Command
variable {Text : Type} (env : Environment Text)

/-- The persisted plan if there is one, and a new one otherwise. -/
def ciPlan : Command Text PlacementPlan := fun s =>
  if (s.files (planPath env.cwd)).isSome then readPlan env.json env.cwd s
  else planWith env env.cwd .default s

def plannedLock (graph : DepGraph) (lockfile : Lockfile) (pkg : Value) : Lockfile :=
  .fromGraphWithManifest graph lockfile.name lockfile.version (extractDeps pkg "dependencies")
    (extractDeps pkg "devDependencies")

def matchPlan (lockfile planned : Lockfile) : Except String Unit :=
  if lockfilesMatchForFrozen lockfile planned then .ok ()
  else .error "placement plan does not match oath-lock.json, run oath install first"

def cmdCi : Command Text Unit := do
  let (pkg, lockfile) ← checkManifest env env.cwd
  let plan ← ciPlan env
  let plan ← fromExcept (hydrateMissingRegistryMetadata env plan)
  let graph ← fromExcept plan.toDepGraph
  fromExcept (matchPlan lockfile (plannedLock graph lockfile pkg))
  let _ ← fromExcept (downloadMissing env graph)
  fromExcept (env.linkPlacementPlanClean plan env.cwd)
  writePlan env.json env.cwd plan

end Command

/-! ## The tree that a plan leaves -/

/-- A node that is linked replaces what is at its location or below it. -/
def covers (node other : PlacementNode) : Bool :=
  startsWith (asBytes other.location) (components (asBytes node.location))

def place (placed : List PlacementNode) (node : PlacementNode) : List PlacementNode :=
  placed.filter (fun old => !covers node old) ++ [node]

/-- The nodes that are in `node_modules` when all have been linked in turn. -/
def materialized (nodes : List PlacementNode) : List PlacementNode := nodes.foldl place []

theorem covers_of_location {node other : PlacementNode} (h : node.location = other.location) :
    covers node other := by
  unfold covers startsWith
  rw [h]
  exact List.isPrefixOf_iff_prefix.mpr (List.prefix_refl _)

/-- A node stays if no later node is at or above its location. -/
theorem mem_materialized {nodes : List PlacementNode} {node : PlacementNode} :
    node ∈ materialized nodes ↔ ∃ before after, nodes = before ++ node :: after ∧
      ∀ later ∈ after, ¬covers later node := by
  have hfold : ∀ placed, node ∈ nodes.foldl place placed ↔
      (node ∈ placed ∧ ∀ later ∈ nodes, ¬covers later node) ∨
      ∃ before after, nodes = before ++ node :: after ∧ ∀ later ∈ after, ¬covers later node := by
    induction nodes with
    | nil => simp
    | cons first rest ih =>
      intro placed
      rw [List.foldl_cons, ih]
      constructor
      · rintro (⟨hplaced, hrest⟩ | ⟨before, after, hsplit, hafter⟩)
        · rcases List.mem_append.mp hplaced with hold | hnew
          · obtain ⟨hmem, hcovers⟩ := List.mem_filter.mp hold
            refine Or.inl ⟨hmem, fun later hlater => ?_⟩
            rcases List.mem_cons.mp hlater with rfl | hlater
            · simpa using hcovers
            · exact hrest later hlater
          · obtain rfl := List.mem_singleton.mp hnew
            exact Or.inr ⟨[], rest, rfl, hrest⟩
        · exact Or.inr ⟨first :: before, after, by rw [hsplit]; rfl, hafter⟩
      · rintro (⟨hplaced, hnodes⟩ | ⟨before, after, hsplit, hafter⟩)
        · have hfirst := hnodes first List.mem_cons_self
          refine Or.inl ⟨?_, fun later hlater => hnodes later (List.mem_cons_of_mem _ hlater)⟩
          exact List.mem_append_left _ (List.mem_filter.mpr ⟨hplaced, by simpa using hfirst⟩)
        · cases before with
          | nil =>
            obtain ⟨rfl, rfl⟩ := List.cons.inj hsplit
            exact Or.inl ⟨List.mem_append_right _ List.mem_cons_self, hafter⟩
          | cons head before =>
            obtain ⟨rfl, rfl⟩ := List.cons.inj hsplit
            exact Or.inr ⟨before, after, rfl, hafter⟩
  rw [materialized, hfold]
  simp

/-! ## The packages of the plan -/

section Graph
variable {plan : PlacementPlan} {graph : DepGraph}

/-- The last registry node of a location is the one in the graph. -/
theorem find?_graph_of_last (hgraph : plan.toDepGraph = .ok graph)
    {before after : List PlacementNode} {node : PlacementNode}
    (hsplit : plan.nodes = before ++ node :: after) (hlink : node.link = false)
    (hlast : ∀ later ∈ after, ¬(later.link = false ∧ later.location = node.location)) :
    ∃ resolved, node.resolved = some resolved ∧
      graph.nodes.find? node.location = some (toDepNode node resolved) := by
  obtain ⟨hresolved, hnodes⟩ := toDepGraph_ok hgraph
  obtain ⟨resolved, hnode⟩ :=
    Option.isSome_iff_exists.mp (hresolved node (by rw [hsplit]; simp) hlink)
  refine ⟨resolved, hnode, ?_⟩
  have hrow : graphRow? node = some (node.location, toDepNode node resolved) := by
    simp [graphRow?, hlink, hnode]
  have hlater : (after.filterMap graphRow?).reverse.find?
      (fun row => row.1 = node.location) = none := by
    apply List.find?_eq_none.mpr
    intro row hmem hlocation
    obtain ⟨later, hin, hrow'⟩ := List.mem_filterMap.mp (List.mem_reverse.mp hmem)
    unfold graphRow? at hrow'
    split_ifs at hrow' with hlink'
    obtain ⟨_, -, rfl⟩ := Option.map_eq_some_iff.mp hrow'
    exact hlast later hin ⟨by simpa using hlink', by simpa using hlocation⟩
  rw [hnodes, OrderedMap.find?_ofList, hsplit, List.filterMap_append,
    List.filterMap_cons_some hrow, List.reverse_append, List.reverse_cons, List.append_assoc,
    List.find?_append, hlater]
  simp

theorem mem_of_find?_graph (hgraph : plan.toDepGraph = .ok graph) {location : String}
    (h : (graph.nodes.find? location).isSome) :
    ∃ node ∈ plan.nodes, node.link = false ∧ node.location = location := by
  obtain ⟨dep, hdep⟩ := Option.isSome_iff_exists.mp h
  rw [(toDepGraph_ok hgraph).2, OrderedMap.find?_ofList] at hdep
  obtain ⟨row, hfind, -⟩ := Option.map_eq_some_iff.mp hdep
  have hlocation : row.1 = location := by simpa using List.find?_some hfind
  obtain ⟨node, hmem, hrow⟩ :=
    List.mem_filterMap.mp (List.mem_reverse.mp (List.mem_of_find?_eq_some hfind))
  unfold graphRow? at hrow
  split_ifs at hrow with hlink
  obtain ⟨_, -, rfl⟩ := Option.map_eq_some_iff.mp hrow
  exact ⟨node, hmem, by simpa using hlink, hlocation⟩

theorem find?_plannedLock (lockfile : Lockfile) (pkg : Value) (location : String) :
    (plannedLock graph lockfile pkg).packages.find? location =
      (graph.nodes.find? location).map (lockEntry location) := OrderedMap.find?_map _ _ _

end Graph

/-! ## When the tree is the one of the lockfile -/

/-- The lockfile names the location: as a package's, as one an edge leads to, or as that of
a root dependency. -/
def Mentions (lockfile : Lockfile) (location : String) : Prop :=
  location ∈ lockfile.packages.keys ∨
    (∃ row ∈ lockfile.packages.rows,
      location ∈ (row.2.dependencies.rows ++ row.2.resolvedPeers.rows).map Prod.snd) ∨
    ∃ name ∈ lockfile.rootDependencies.keys ++ lockfile.rootDevDependencies.keys,
      location = "node_modules/" ++ name

/-- The lockfile comes from an install of this `package.json`. -/
def WrittenFrom (lockfile : Lockfile) (written : Value) : Prop :=
  ∃ graph projectName projectVersion, lockfile = .fromGraphWithManifest graph projectName
    projectVersion (extractDeps written "dependencies") (extractDeps written "devDependencies")

section Runs
variable {Text : Type} {env : Environment Text} {s s' : Session Text}

/-- A run of `ci` that succeeds has compared the lockfile with the one of its plan. -/
theorem cmdCi_ok {pkg : Value} {lockfile : Lockfile} {plan linked : PlacementPlan}
    (hrun : cmdCi env s = .ok () s')
    (hlock : checkManifest env env.cwd s = .ok (pkg, lockfile) s)
    (hplan : ciPlan env s = .ok plan s)
    (hlinked : hydrateMissingRegistryMetadata env plan = .ok linked) :
    ∃ graph, linked.toDepGraph = .ok graph ∧
      lockfilesMatchForFrozen lockfile (plannedLock graph lockfile pkg) := by
  obtain ⟨checked, s₁, hchecked, h1⟩ := EStateM.bind_eq_ok.mp hrun
  obtain ⟨rfl, rfl⟩ := EStateM.Result.ok.inj (hlock.symm.trans hchecked)
  obtain ⟨plan', s₂, hplan', h2⟩ := EStateM.bind_eq_ok.mp h1
  obtain ⟨rfl, rfl⟩ := EStateM.Result.ok.inj (hplan.symm.trans hplan')
  obtain ⟨linked', s₃, hlinked', h3⟩ := EStateM.bind_eq_ok.mp h2
  obtain ⟨hhydrated, rfl⟩ := fromExcept_ok.mp hlinked'
  obtain rfl := Except.ok.inj (hlinked.symm.trans hhydrated)
  obtain ⟨graph, s₄, hgraph, h4⟩ := EStateM.bind_eq_ok.mp h3
  obtain ⟨htoDepGraph, rfl⟩ := fromExcept_ok.mp hgraph
  obtain ⟨_, s₅, hmatch, -⟩ := EStateM.bind_eq_ok.mp h4
  obtain ⟨hmatches, -⟩ := fromExcept_ok.mp hmatch
  refine ⟨graph, htoDepGraph, ?_⟩
  unfold matchPlan at hmatches
  split_ifs at hmatches with hfrozen
  exact hfrozen

end Runs

section Locked
variable {lockfile : Lockfile} {linked : PlacementPlan} {graph : DepGraph} {pkg : Value}

theorem last_of_materialized {after : List PlacementNode} {node : PlacementNode}
    (h : ∀ later ∈ after, ¬covers later node) :
    ∀ later ∈ after, ¬(later.link = false ∧ later.location = node.location) :=
  fun later hlater hsame => h later hlater (covers_of_location hsame.2)

/-- A package that is linked has its entry in the lockfile, unless it is optional. -/
theorem materialized_locked (hgraph : linked.toDepGraph = .ok graph)
    (hmatch : lockfilesMatchForFrozen lockfile (plannedLock graph lockfile pkg))
    {node : PlacementNode} (hnode : node ∈ materialized linked.nodes) (hlink : node.link = false)
    (hoptional : node.optional → node.location ∈ lockfile.packages.keys) :
    ∃ entry, lockfile.packages.find? node.location = some entry ∧ entry.version = node.version ∧
      some entry.resolved = node.resolved ∧ entry.integrity = node.integrity := by
  obtain ⟨hoptionalOnly, locations, hcommon⟩ := lockfilesMatch_packages hmatch
  obtain ⟨before, after, hsplit, hafter⟩ := mem_materialized.mp hnode
  obtain ⟨resolved, hresolved, hfind⟩ :=
    find?_graph_of_last hgraph hsplit hlink (last_of_materialized hafter)
  have hplanned : (plannedLock graph lockfile pkg).packages.find? node.location = _ :=
    find?_plannedLock _ _ _
  rw [hfind, Option.map_some] at hplanned
  cases hentry : lockfile.packages.find? node.location with
  | none =>
    have honly : oneSided lockfile (plannedLock graph lockfile pkg) node.location =
        some (lockEntry node.location (toDepNode node resolved)) := by
      unfold oneSided
      rw [hentry, hplanned]
    have hkey := OrderedMap.mem_keys.mp (hoptional (hoptionalOnly _ _ honly))
    rw [hentry] at hkey
    cases hkey
  | some entry =>
    have hsame := hcommon node.location entry _ hentry hplanned
    have hversion := congrArg LockEntry.version hsame
    have hurl := congrArg LockEntry.resolved hsame
    have hintegrity := congrArg LockEntry.integrity hsame
    refine ⟨entry, rfl, hversion, ?_, hintegrity⟩
    rw [hresolved]
    exact congrArg some hurl

/-- A package of the lockfile that is not optional is in the plan. -/
theorem planned_of_locked (hgraph : linked.toDepGraph = .ok graph)
    (hmatch : lockfilesMatchForFrozen lockfile (plannedLock graph lockfile pkg))
    {location : String} {entry : LockEntry}
    (hentry : lockfile.packages.find? location = some entry) (hoptional : entry.optional = false) :
    ∃ node ∈ linked.nodes, node.link = false ∧ node.location = location := by
  apply mem_of_find?_graph hgraph
  by_contra hnone
  have hplanned : (plannedLock graph lockfile pkg).packages.find? location = _ :=
    find?_plannedLock _ _ _
  rw [Option.not_isSome_iff_eq_none.mp hnone, Option.map_none] at hplanned
  have honly : oneSided lockfile (plannedLock graph lockfile pkg) location = some entry := by
    unfold oneSided
    rw [hentry, hplanned]
  have := (lockfilesMatch_packages hmatch).1 location entry honly
  rw [hoptional] at this
  cases this

end Locked

/-- No location stands after one at or below it. -/
def InOrder (nodes : List PlacementNode) : Prop :=
  nodes.Pairwise fun node later => ¬covers later node

theorem materialized_of_inOrder {nodes : List PlacementNode} (h : InOrder nodes)
    {node : PlacementNode} (hnode : node ∈ nodes) : node ∈ materialized nodes := by
  obtain ⟨before, after, rfl⟩ := List.append_of_mem hnode
  have hlater := (List.pairwise_cons.mp (List.pairwise_append.mp h).2.1).1
  exact mem_materialized.mpr ⟨before, after, rfl, hlater⟩

structure KeepsLock (lockfile : Lockfile) (linked : List PlacementNode) (pkg : Value) : Prop where
  packages (node : PlacementNode) : node ∈ materialized linked → node.link = false →
    (∃ entry, lockfile.packages.find? node.location = some entry ∧
      entry.version = node.version ∧ some entry.resolved = node.resolved ∧
      entry.integrity = node.integrity) ∨
    (node.optional ∧ lockfile.packages.find? node.location = none)
  complete (location : String) (entry : LockEntry) :
    lockfile.packages.find? location = some entry → entry.optional = false →
      (∃ node ∈ linked, node.link = false ∧ node.location = location) ∧
      (InOrder linked → ∃ node ∈ materialized linked, node.link = false ∧ node.location = location)
  dependencies : extractDeps pkg "dependencies" = lockfile.rootDependencies
  devDependencies : extractDeps pkg "devDependencies" = lockfile.rootDevDependencies

def demoManifest : Value := .object [("dependencies", .object [("typescript", .string "^5.4.0")])]

/-- The manifest with an optional dependency that it did not have at the install. -/
def changedManifest : Value := .object [("dependencies", .object [("typescript", .string "^5.4.0")]),
  ("optionalDependencies", .object [("fsevents", .string "^2.3.0")])]

def nestedNode : PlacementNode :=
  { demoNode with
    location := "node_modules/typescript/node_modules/ms"
    installName := "ms"
    name := "ms"
    version := "2.1.3"
    resolved := some "https://registry.npmjs.org/ms/-/ms-2.1.3.tgz" }

def extraNode : PlacementNode :=
  { demoNode with
    location := "node_modules/extra"
    installName := "extra"
    name := "extra"
    version := "1.0.0"
    resolved := some "https://registry.npmjs.org/extra/-/extra-1.0.0.tgz"
    optional := true }

def linkNode : PlacementNode :=
  { demoNode with
    location := "node_modules/tool"
    installName := "tool"
    name := "tool"
    link := true
    target := some "/repo/scripts" }

def demoLock : Lockfile where
  lockfileVersion := lockfileVersion
  name := "repo"
  version := "1.0.0"
  roots := ["node_modules/typescript"]
  rootDependencies := .ofList [("typescript", "^5.4.0")]
  rootDevDependencies := .empty
  packages := .ofList (([demoNode, nestedNode].filterMap graphRow?).map fun row =>
    (row.1, lockEntry row.1 row.2))

/-- A project with its manifest, its lockfile and a persisted plan of these nodes. -/
def demoProject (pkg : Value) (nodes : List PlacementNode) : Session (Except String Value) where
  files := Function.update (Function.update (demoFiles pkg).files
    "/repo/oath-lock.json" (some (.ok demoLock.toValue)))
    "/repo/.oath/placement-plan.json" (some (.ok (demoPlan nodes).toValue))
  stdin := []
  events := []

def carelessNodes : List PlacementNode := [nestedNode, demoNode, extraNode, linkNode]

end Oath.Cli
