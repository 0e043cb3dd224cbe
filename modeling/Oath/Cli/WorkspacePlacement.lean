import Oath.Cli.WorkspaceInstall
import Oath.Resolve.Placement
import Oath.Store.Linker

/-! Which packages of Arborist's tree a workspace install puts where Arborist places them, and
what the packages of the workspace then find. -/

namespace Oath.Cli
open Contracts Registry Resolve Workspace Store Unix ModuleLookup

/-! ## The install -/

section Install
variable {Text : Type} (env : Environment Text) (linker : LinkEnvironment) (k : Kernel)
  (ws : WorkspaceRoot) (s : Session Text)

def linkerOf (plan : PlacementPlan) (_ : String) : Except String Unit :=
  match Store.linkPlacementPlan linker plan k with
  | .ok _ _ => .ok ()
  | .error message _ => .error message

/-- The planner script reports this tree, and the files are linked from this state. -/
def placing (comesBefore : String → String → Bool) (npm : String) (tree : IdealTree) :
    Environment Text :=
  { env with
    arborist := fun project _ => .ok (arboristPlan comesBefore npm project tree)
    linkPlacementPlan := linkerOf linker k }

/-- The install puts the package into place. -/
def Materialized (placement : PlacementNode) : Prop :=
  nothingToInstall (collectedDeps env ws s) = false ∧
    ∃ plan, planWorkspace env ws s = .ok plan s ∧ Places linker plan k placement

def MaterializedAt (location : String) (placement : PlacementNode) : Prop :=
  Materialized env linker k ws s placement ∧ placement.location = location

end Install

/-- The package that Arborist places is the one that is put there. -/
structure Carries (node : ArboristNode) (placement : PlacementNode) : Prop where
  location : placement.location = node.location
  installName : placement.installName = node.name
  version : placement.version = node.version
  link : placement.link = node.isLink

/-- The location is one in a `node_modules` directory. -/
def IsModulePlace (location : String) : Prop := ∃ dir name, location = ModuleLookup.place dir name

/-- A package that Arborist places outside the bundles of dependencies. -/
def PlacedAt (tree : IdealTree) (location : String) (node : ArboristNode) : Prop :=
  StandsAt tree.nodes location node ∧ node.inDepBundle = false ∧ IsModulePlace location

structure PlacementComplete {Text : Type} (env : Environment Text) (linker : LinkEnvironment)
    (k : Kernel) (ws : WorkspaceRoot) (s : Session Text) (tree : IdealTree) : Prop where
  materialized (location : String) (node : ArboristNode) : PlacedAt tree location node →
    ∃ placement, Materialized env linker k ws s placement ∧ Carries node placement
  /-- Every edge of a package of the workspace leads to the version that Arborist chose. -/
  resolved (member : ArboristNode) (edge : ArboristEdge) (location : String)
    (target : ArboristNode) : member ∈ tree.nodes → member.isWorkspace → edge ∈ member.edgesOut →
      edge.leadsTo = some location → StandsAt tree.nodes location target →
        ∃ found, Resolves (MaterializedAt env linker k ws s) (pathSegments member.location)
          edge.name found ∧ found.version = target.version

/-- What Arborist places outside bundles stands in the root's `node_modules`, is a package
with a name and a version, and is all that the packages of the workspace need. -/
structure RootLayout (tree : IdealTree) (nothing : Bool) : Prop where
  kept (location : String) (node : ArboristNode) : PlacedAt tree location node →
    beginsWith location "node_modules/" ∧ (truthy node.package.name).isSome ∧
      (node.isLink ∨ (truthy node.package.version).isSome)
  unbundled (member : ArboristNode) (edge : ArboristEdge) (location : String)
    (target : ArboristNode) : member ∈ tree.nodes → member.isWorkspace → edge ∈ member.edgesOut →
      edge.leadsTo = some location → StandsAt tree.nodes location target → target.inDepBundle →
        ∃ found, Resolves (PlacedAt tree) (pathSegments member.location) edge.name found ∧
          found.version = target.version
  something (location : String) (node : ArboristNode) : PlacedAt tree location node →
    nothing = false

section Placement
variable {Text : Type} {env : Environment Text} {linker : LinkEnvironment} {k : Kernel}
  {ws : WorkspaceRoot} {s s' : Session Text} {comesBefore : String → String → Bool}
  {npm : String} {tree : IdealTree}

/-! ## What is put into place -/

theorem hydrateNode_carries (previous : PlacementPlan) {node : ArboristNode}
    {placement : PlacementNode} (h : Carries node placement) :
    Carries node (hydrateNode previous placement) := by
  unfold hydrateNode
  split
  · exact h
  · split_ifs
    · exact h
    · exact ⟨h.location, h.installName, h.version, h.link⟩

theorem hydrateEntry_carries (entries : List (Lex (String × String) × DistInfo))
    {node : ArboristNode} {placement : PlacementNode} (h : Carries node placement) :
    Carries node (hydrateEntry entries placement) := by
  unfold hydrateEntry
  split
  · exact h
  · exact ⟨h.location, h.installName, h.version, h.link⟩

/-- Nodes stay what they are, and their order, while their sources are filled in. -/
structure Hydrated (before after : PlacementPlan) : Prop where
  nodes : ∃ f, after.nodes = before.nodes.map f ∧
    ∀ node placement, Carries node placement → Carries node (f placement)

theorem planWorkspace_hydrated {plan : PlacementPlan}
    (h : planWorkspace (placing env linker k comesBefore npm tree) ws s = .ok plan s') :
    Hydrated (arboristPlan comesBefore npm ws.root tree) plan := by
  obtain ⟨planned, s₁, hplanned, hfilled⟩ := EStateM.bind_eq_ok.mp h
  obtain ⟨found, s₂, hfound, h1⟩ := EStateM.bind_eq_ok.mp hplanned
  obtain ⟨hplan, rfl⟩ := fromExcept_ok.mp hfound
  obtain rfl := Except.ok.inj hplan
  obtain ⟨_, s₃, -, h2⟩ := EStateM.bind_eq_ok.mp h1
  obtain ⟨previous, s₄, -, h3⟩ := EStateM.bind_eq_ok.mp h2
  obtain ⟨_, s₅, -, h4⟩ := EStateM.bind_eq_ok.mp h3
  obtain ⟨rfl, rfl⟩ := EStateM.Result.ok.inj h4
  obtain ⟨hydrated, -⟩ := fromExcept_ok.mp hfilled
  obtain ⟨entries, -, hmap⟩ := Except.bind_eq_ok.mp hydrated
  obtain rfl := Except.ok.inj hmap
  cases previous with
  | error message =>
    exact ⟨hydrateEntry entries, rfl, fun _ _ hcarries => hydrateEntry_carries entries hcarries⟩
  | ok previous =>
    refine ⟨fun node => hydrateEntry entries (hydrateNode previous node), ?_, ?_⟩
    · exact List.map_map.symm ▸ rfl
    · exact fun _ _ hcarries => hydrateEntry_carries entries (hydrateNode_carries previous hcarries)

/-- A run that has something to do links the plan that it made. -/
theorem cmdInstallWorkspace_linked {env : Environment Text}
    (hrun : cmdInstallWorkspace env ws false s = .ok () s')
    (hinstalled : nothingToInstall (collectedDeps env ws s) = false) :
    ∃ plan, planWorkspace env ws s = .ok plan s ∧ env.linkPlacementPlan plan ws.root = .ok () := by
  obtain ⟨current, s₁, hcurrent, h1⟩ := EStateM.bind_eq_ok.mp hrun
  obtain ⟨rfl, rfl⟩ := EStateM.Result.ok.inj hcurrent
  split_ifs at h1 with hnothing
  · rw [Bool.or_false] at hnothing
    rw [hnothing] at hinstalled
    cases hinstalled
  · obtain ⟨plan, s₂, hplan, h2⟩ := EStateM.bind_eq_ok.mp h1
    obtain rfl := planWorkspace_ok hplan
    obtain ⟨graph, s₃, hgraph, h3⟩ := EStateM.bind_eq_ok.mp h2
    obtain ⟨_, s₄, hdownload, h4⟩ := EStateM.bind_eq_ok.mp h3
    obtain ⟨_, s₅, hlink, -⟩ := EStateM.bind_eq_ok.mp h4
    exact ⟨plan, hplan, (fromExcept_ok.mp hlink).1⟩

theorem planNode_carries {node : ArboristNode} (hnode : node ∈ tree.nodes) :
    Carries node (planNode comesBefore tree.unchanged node) :=
  ⟨slashed_of_posix (tree.posix node hnode), rfl, rfl, rfl⟩

/-- The packages that the script keeps are put into place. -/
theorem materialized_of_kept
    (hrun : cmdInstallWorkspace (placing env linker k comesBefore npm tree) ws false s = .ok () s')
    (hinstalled : nothingToInstall (collectedDeps env ws s) = false) {node : ArboristNode}
    (hnode : node ∈ tree.nodes) (hkept : node.isKept) :
    ∃ placement, Materialized (placing env linker k comesBefore npm tree) linker k ws s placement ∧
      Carries node placement := by
  obtain ⟨plan, hplan, hlink⟩ := cmdInstallWorkspace_linked hrun hinstalled
  obtain ⟨f, hnodes, hf⟩ := (planWorkspace_hydrated hplan).nodes
  have hmem : f (planNode comesBefore tree.unchanged node) ∈ plan.nodes := by
    rw [hnodes]
    exact List.mem_map_of_mem ((mem_arboristPlan comesBefore).mpr ⟨node, hnode, hkept, rfl⟩)
  have hlinked : ∃ result k', Store.linkPlacementPlan linker plan k = .ok result k' := by
    have hlinker : linkerOf linker k plan ws.root = .ok () := hlink
    unfold linkerOf at hlinker
    cases hresult : Store.linkPlacementPlan linker plan k with
    | ok result k' => exact ⟨result, k', rfl⟩
    | error message k' =>
      rw [hresult] at hlinker
      cases hlinker
  obtain ⟨result, k', hresult⟩ := hlinked
  exact ⟨_, ⟨hinstalled, plan, hplan, linkPlacementPlan_places hresult hmem⟩,
    hf _ _ (planNode_carries hnode)⟩

/-- Nothing else is. -/
theorem kept_of_materialized {placement : PlacementNode}
    (h : Materialized (placing env linker k comesBefore npm tree) linker k ws s placement) :
    ∃ node ∈ tree.nodes, node.isKept ∧ Carries node placement := by
  obtain ⟨-, plan, hplan, hplaces⟩ := h
  obtain ⟨f, hnodes, hf⟩ := (planWorkspace_hydrated hplan).nodes
  have hmem := hplaces.mem
  rw [hnodes] at hmem
  obtain ⟨planned, hplanned, rfl⟩ := List.mem_map.mp hmem
  obtain ⟨node, hnode, hkept, rfl⟩ := (mem_arboristPlan comesBefore).mp hplanned
  exact ⟨node, hnode, hkept, hf _ _ (planNode_carries hnode)⟩

theorem placedAt_of_kept {node : ArboristNode} {location : String} (hnode : node ∈ tree.nodes)
    (hkept : node.isKept) (hlocation : node.location = location) (hplace : IsModulePlace location) :
    PlacedAt tree location node := by
  refine ⟨⟨hnode, hlocation⟩, ?_, hplace⟩
  simp only [ArboristNode.isKept, Bool.and_eq_true] at hkept
  simpa using hkept.1.1.1.1

theorem isKept_iff {location : String} {node : ArboristNode} (h : PlacedAt tree location node) :
    node.isKept ↔ beginsWith location "node_modules/" ∧ (truthy node.package.name).isSome ∧
      (node.isLink ∨ (truthy node.package.version).isSome) := by
  obtain ⟨⟨hnode, rfl⟩, hbundle, -⟩ := h
  have hsame := slashed_of_posix (tree.posix node hnode)
  unfold ArboristNode.isKept
  rw [hsame, hbundle]
  constructor
  · intro hkept
    simp only [Bool.and_eq_true, Bool.or_eq_true] at hkept
    exact ⟨hkept.1.1.2, hkept.1.2, hkept.2⟩
  · rintro ⟨hroot, hname, hversion⟩
    have hne : node.location ≠ "" := by
      intro hempty
      rw [hempty] at hroot
      revert hroot
      decide
    simp [hroot, hname, hversion, hne]

/-- What is found among the packages put into place is found in the tree. -/
theorem resolves_placed
    (hcomplete : ∀ location node, PlacedAt tree location node → ∃ placement,
      Materialized (placing env linker k comesBefore npm tree) linker k ws s placement ∧
        Carries node placement)
    {dir : List String} {name : String} {found : PlacementNode}
    (h : Resolves (MaterializedAt (placing env linker k comesBefore npm tree) linker k ws s)
      dir name found) :
    ∃ node, Resolves (PlacedAt tree) dir name node ∧ node.version = found.version := by
  obtain ⟨above, hfound, -⟩ := h.exists_place
  obtain ⟨node, hnode, hkept, hcarries⟩ := kept_of_materialized hfound
  refine ⟨node, h.transfer (fun above other hother => ?_) fun above hstands => ?_,
    hcarries.version.symm⟩
  · obtain ⟨placement, hplacement, hcarried⟩ := hcomplete _ other hother
    exact ⟨placement, hplacement, hcarried.location.trans hother.1.2⟩
  · exact placedAt_of_kept hnode hkept (hcarries.location.symm.trans hstands.2) ⟨above, name, rfl⟩

/-- What is found in the tree outside bundles is found among the packages put into place. -/
theorem resolves_materialized
    (hcomplete : ∀ location node, PlacedAt tree location node → ∃ placement,
      Materialized (placing env linker k comesBefore npm tree) linker k ws s placement ∧
        Carries node placement)
    {dir : List String} {name : String} {node : ArboristNode}
    (h : Resolves (PlacedAt tree) dir name node) :
    ∃ found, Resolves (MaterializedAt (placing env linker k comesBefore npm tree) linker k ws s)
      dir name found ∧ found.version = node.version := by
  obtain ⟨above, hplaced⟩ := h.exists_place
  obtain ⟨found, hfound, hcarries⟩ := hcomplete _ node hplaced
  refine ⟨found, h.transfer (fun above other hother => ?_) fun above hstands => ?_,
    hcarries.version⟩
  · obtain ⟨kept, hkept, hisKept, hcarried⟩ := kept_of_materialized hother.1
    exact ⟨kept, placedAt_of_kept hkept hisKept (hcarried.location.symm.trans hother.2)
      ⟨above, name, rfl⟩⟩
  · exact ⟨hfound, hcarries.location.trans hstands.1.2⟩

/-- An edge to a package outside bundles leads to it among those outside bundles. -/
theorem resolves_unbundled {member target : ArboristNode} {edge : ArboristEdge}
    {location : String} (hmember : member ∈ tree.nodes) (hworkspace : member.isWorkspace)
    (hedge : edge ∈ member.edgesOut) (hleads : edge.leadsTo = some location)
    (htarget : StandsAt tree.nodes location target) (hbundle : target.inDepBundle = false) :
    Resolves (PlacedAt tree) (pathSegments member.location) edge.name target := by
  obtain ⟨chosen, hchosen, hresolves⟩ :=
    tree.resolved member hmember hworkspace edge hedge location hleads
  have hsame : chosen = target := tree.node_unique hchosen.1 htarget.1
    (hchosen.2.trans htarget.2.symm)
  rw [hsame] at hresolves
  apply hresolves.transfer
  · exact fun above other hother => ⟨other, hother.1⟩
  · exact fun above hstands => ⟨hstands, hbundle, above, edge.name, rfl⟩

/-! ## When the placement is complete -/

end Placement

/-! ## A workspace with two versions of a package -/

def memberManifest : Manifest where
  name := "x"
  version := "1.0.0"
  isPrivate := false
  dependencies := .ofList [("y", "^2.0.0")]
  devDependencies := .empty
  peerDependencies := .empty
  optionalDependencies := .empty
  workspaces := none

/-- The root needs `y` 1, and its package `x` needs `y` 2. -/
def conflictWorkspace : WorkspaceRoot :=
  ⟨"/repo", [⟨"x", "1.0.0", "packages/x", memberManifest⟩]⟩

def conflictFiles : Session (Except String Value) :=
  demoFiles (.object [("dependencies", .object [("y", .string "^1.0.0")])])

def arboristNode (location name version : String) : ArboristNode where
  location
  name
  package := ⟨some name, some version, .empty⟩
  resolved := some ("https://registry.npmjs.org/" ++ name ++ "/-/" ++ name ++ "-" ++ version ++ ".tgz")
  integrity := none
  dev := false
  optional := false
  isLink := false
  target := none
  inDepBundle := false
  isWorkspace := false
  edgesOut := []

def edgeTo (name spec location : String) : ArboristEdge := ⟨name, spec, "prod", some location, true⟩

def memberLink : ArboristNode :=
  { arboristNode "node_modules/x" "x" "1.0.0" with
    isLink := true
    target := some "/repo/packages/x" }

def memberNode (edge : ArboristEdge) : ArboristNode :=
  { arboristNode "packages/x" "x" "1.0.0" with
    isWorkspace := true
    edgesOut := [edge] }

def olderNode : ArboristNode := arboristNode "node_modules/y" "y" "1.0.0"
def newerNode : ArboristNode := arboristNode "packages/x/node_modules/y" "y" "2.0.0"

def conflictNodes : List ArboristNode :=
  [memberLink, olderNode, memberNode (edgeTo "y" "^2.0.0" "packages/x/node_modules/y"), newerNode]

def hoistedNodes : List ArboristNode :=
  [memberLink, olderNode, memberNode (edgeTo "y" "^1.0.0" "node_modules/y")]

theorem conflict_posix : ∀ node ∈ conflictNodes, '\\' ∉ node.location.toList := by
  decide

theorem conflict_distinct : (conflictNodes.map ArboristNode.location).Nodup := by decide

theorem conflict_resolved : EdgesResolve conflictNodes := by
  intro node hnode hworkspace edge hedge location hleads
  simp only [conflictNodes, List.mem_cons, List.not_mem_nil, or_false] at hnode
  rcases hnode with rfl | rfl | rfl | rfl
  · cases hworkspace
  · cases hworkspace
  · obtain rfl := List.mem_singleton.mp hedge
    obtain rfl := Option.some.inj hleads
    refine ⟨newerNode, ⟨by simp [conflictNodes], rfl⟩, [], ["packages", "x"],
      [["packages"], []], ?_, ⟨by simp [conflictNodes], ?_⟩, by simp⟩
    · decide
    · decide
  · cases hworkspace

/-- The newer `y` stands below the package that needs it. -/
def conflictTree : IdealTree where
  nodes := conflictNodes
  unchanged := []
  removed := []
  posix := conflict_posix
  distinct := conflict_distinct
  resolved := conflict_resolved

theorem hoisted_posix : ∀ node ∈ hoistedNodes, '\\' ∉ node.location.toList := by decide

theorem hoisted_distinct : (hoistedNodes.map ArboristNode.location).Nodup := by decide

theorem hoisted_resolved : EdgesResolve hoistedNodes := by
  intro node hnode hworkspace edge hedge location hleads
  simp only [hoistedNodes, List.mem_cons, List.not_mem_nil, or_false] at hnode
  rcases hnode with rfl | rfl | rfl
  · cases hworkspace
  · cases hworkspace
  · obtain rfl := List.mem_singleton.mp hedge
    obtain rfl := Option.some.inj hleads
    refine ⟨olderNode, ⟨by simp [hoistedNodes], rfl⟩, [["packages", "x"], ["packages"]], [], [],
      ?_, ⟨by simp [hoistedNodes], ?_⟩, ?_⟩
    · decide
    · decide
    · -- No `y` stands nearer to the package.
      have habsent : ∀ nearer ∈ [["packages", "x"], ["packages"]], ∀ node ∈ hoistedNodes,
          node.location ≠ ModuleLookup.place nearer "y" := by decide
      exact fun nearer hnearer other hother => habsent nearer hnearer other hother.1 hother.2

/-- Both need the older `y`. -/
def hoistedTree : IdealTree where
  nodes := hoistedNodes
  unchanged := []
  removed := []
  posix := hoisted_posix
  distinct := hoisted_distinct
  resolved := hoisted_resolved

def entriesOf (rows : List (Location × Entry)) (h : (rows.map Prod.fst).Nodup) : LinkedFiles :=
  ⟨⟨rows, h⟩, fun _ => asBytes "module.exports = 1\n"⟩

def textLocation (names : List String) : Location := names.map asBytes

def demoRows : List (Location × Entry) := [
  ([], .directory), (textLocation ["repo"], .directory), (textLocation ["repo", "packages"], .directory),
  (textLocation ["repo", "packages", "x"], .directory), (textLocation ["store"], .directory),
  (textLocation ["store", ".variants"], .directory), (textLocation ["store", ".variants", "y"], .directory),
  (textLocation ["store", ".variants", "y", "1.0.0"], .directory),
  (textLocation ["store", ".variants", "y", "1.0.0", "0a"], .directory),
  (textLocation ["store", ".variants", "y", "1.0.0", "0a", "index.js"], .file 0)]

def demoKernel : Kernel :=
  ⟨entriesOf demoRows (by decide), [], 0⟩

def demoLinker : LinkEnvironment where
  project := textLocation ["repo"]
  store := ⟨textLocation ["store"], fun _ => "0a"⟩
  parseJson _ := none
  encodePlan _ := []
  faults _ _ := none

def textOrder (a b : String) : Bool := a ≤ b

def demoInstall (tree : IdealTree) : Environment (Except String Value) :=
  placing (demoEnvironment []) demoLinker demoKernel textOrder "11.12.1" tree

def placementOf (node : ArboristNode) : PlacementNode where
  location := node.location
  installName := node.name
  name := node.name
  version := node.version
  resolved := node.resolved
  integrity := none
  dev := false
  optional := false
  hasInstallScript := false
  reuseExisting := false
  link := node.isLink
  target := node.target
  edges := []

theorem planNode_demo {node : ArboristNode} (hnode : node ∈ [memberLink, olderNode]) :
    planNode textOrder [] node = placementOf node := by
  have hedges : node.edgesOut = [] := by
    rcases List.mem_pair.mp hnode with rfl | rfl
    · rfl
    · rfl
  have hplanned : ∀ node ∈ [memberLink, olderNode],
      { planNode textOrder [] node with edges := [] } = placementOf node := by decide
  rw [← hplanned node hnode, planNode, hedges]
  simp

theorem arboristPlan_demo {tree : IdealTree} (project : String) (hunchanged : tree.unchanged = [])
    (hremoved : tree.removed = [])
    (hkept : tree.nodes.filter ArboristNode.isKept = [memberLink, olderNode]) :
    arboristPlan textOrder "11.12.1" project tree = ⟨2, ⟨"@npmcli/arborist", "11.12.1"⟩, project,
      [memberLink, olderNode].map placementOf, [], []⟩ := by
  have hsorted : ([memberLink, olderNode].map placementOf).Pairwise
      fun a b => textOrder a.location b.location := by decide
  have hmap : [memberLink, olderNode].map (planNode textOrder []) =
      [memberLink, olderNode].map placementOf := List.map_congr_left fun _ => planNode_demo
  unfold arboristPlan
  rw [hkept, hunchanged, hremoved, hmap, List.mergeSort_of_pairwise hsorted]
  simp only [List.map_nil, List.filter_nil, List.mergeSort_nil]
  rfl

def linkedInstall : Environment (Except String Value) :=
  { demoEnvironment ([memberLink, olderNode].map placementOf) with
    arborist := fun project _ => .ok ⟨2, ⟨"@npmcli/arborist", "11.12.1"⟩, project,
      [memberLink, olderNode].map placementOf, [], []⟩
    linkPlacementPlan := linkerOf demoLinker demoKernel }

def succeeds {α : Type} : EStateM.Result String (Session (Except String Value)) α → Bool
  | .ok _ _ => true
  | .error _ _ => false

theorem linkedInstall_succeeds :
    succeeds (cmdInstallWorkspace linkedInstall conflictWorkspace false conflictFiles) = true := by
  decide

theorem demoInstall_eq {tree : IdealTree} (hunchanged : tree.unchanged = [])
    (hremoved : tree.removed = [])
    (hkept : tree.nodes.filter ArboristNode.isKept = [memberLink, olderNode]) :
    demoInstall tree = linkedInstall := by
  have hplan : (fun project (_ : PlacementRequest) =>
      (.ok (arboristPlan textOrder "11.12.1" project tree) : Except String PlacementPlan)) =
        linkedInstall.arborist := by
    funext project request
    rw [arboristPlan_demo project hunchanged hremoved hkept]
    rfl
  rw [demoInstall, placing, hplan]
  rfl

theorem demoInstall_succeeds {tree : IdealTree} (h : demoInstall tree = linkedInstall) :
    ∃ s', cmdInstallWorkspace (demoInstall tree) conflictWorkspace false conflictFiles =
      .ok () s' := by
  have hsucceeds := linkedInstall_succeeds
  rw [h]
  cases hrun : cmdInstallWorkspace linkedInstall conflictWorkspace false conflictFiles with
  | ok result s' => exact ⟨s', rfl⟩
  | error message s' =>
    rw [hrun] at hsucceeds
    cases hsucceeds

end Oath.Cli
