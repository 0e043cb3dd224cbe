import Oath.Resolve.ResolverEdges

/-! Where the former resolver leads the edges that a package cannot do without: to the package that
was chosen for them, where it is the highest one that goes by their name. -/

namespace Oath.Resolve

variable {Version Range : Type} [LinearOrder Version] {r : Resolver Version Range}

section Edges
variable (r)

/-- The name and the version that `resolve_version` chooses for a dependency. -/
def chosenPackage (name spec : String) : Option (String × String) :=
  let pending := pendingOf name spec 0 false false
  (r.registry pending.name).bind fun packument =>
    (resolveVersion r.semver packument pending.specifier).map fun found => (pending.name, found.1)

/-- What the package of a visit requires from the registry. -/
structure RequiredEdge (dependencies devDependencies : Rows String)
    (visited : PendingDep × ResolveState) (package : Package) (name spec : String) : Prop where
  mem : visited ∈ visitsOf r dependencies devDependencies
  places : Places r visited package
  listed : (name, spec) ∈ package.dependencies.rows
  registry : isGitSpec (pendingOf name spec 0 false false).specifier = false

def IsChosen (nodes : OrderedMap String DepNode) (name spec key : String) : Prop :=
  ∃ node, nodes.find? key = some node ∧
    chosenPackage r name spec = some (node.name, node.version)

/-- The edge of the package leads to the version that was chosen for it. -/
def EdgeLeads (graph : DepGraph) (visited : PendingDep × ResolveState) (package : Package)
    (name spec : String) : Prop :=
  ∃ node key, graph.nodes.find? (packageKey visited.1 package) = some node ∧
    node.dependencies.find? name = some key ∧ IsChosen r graph.nodes name spec key

/-- The specification that the node has kept admits the chosen version, and every other candidate
is below a chosen one. -/
structure HighestChosen (nodes : OrderedMap String DepNode) (name spec recorded : String) :
    Prop where
  admits : ∃ chosen, chosenPackage r name spec = some chosen ∧
    (admitted? r.semver recorded chosen.2).isSome
  highest : ∀ other ∈ candidates r.semver nodes name recorded,
    ¬ IsChosen r nodes name spec (ofLex other).2 →
      ∃ found ∈ candidates r.semver nodes name recorded,
        IsChosen r nodes name spec (ofLex found).2 ∧ other < found

end Edges

/-! ## The highest node -/

/-- Of things that are told apart by their order, the last one is the greatest. -/
theorem getLast?_mergeSort_by {α β : Type*} [LinearOrder β] {f : α → β} {items : List α} {top : α}
    (hinjective : ∀ a ∈ items, ∀ b ∈ items, f a = f b → a = b) :
    (items.mergeSort fun a b => f a ≤ f b).getLast? = some top ↔
      top ∈ items ∧ ∀ item ∈ items, f item ≤ f top := by
  have hsorted : (items.mergeSort fun a b => f a ≤ f b).Pairwise fun a b => f a ≤ f b := by
    have hpairwise : (items.mergeSort fun a b => f a ≤ f b).Pairwise
        fun a b => decide (f a ≤ f b) := by
      apply List.pairwise_mergeSort
      · intro a b c hab hbc
        exact decide_eq_true ((of_decide_eq_true hab).trans (of_decide_eq_true hbc))
      · intro a b
        simpa using le_total (f a) (f b)
    exact hpairwise.imp of_decide_eq_true
  have hlast (front : List α) (last : α)
      (hsplit : (items.mergeSort fun a b => f a ≤ f b) = front ++ [last]) :
      last ∈ items ∧ ∀ item ∈ items, f item ≤ f last := by
    have hmem (item : α) : item ∈ items ↔ item ∈ front ++ [last] := by
      rw [← hsplit, List.mem_mergeSort]
    rw [hsplit] at hsorted
    refine ⟨(hmem last).mpr (List.mem_append_right _ List.mem_cons_self), fun item hitem => ?_⟩
    rcases List.mem_append.mp ((hmem item).mp hitem) with hfront | hone
    · exact (List.pairwise_append.mp hsorted).2.2 item hfront last List.mem_cons_self
    · rw [List.mem_singleton.mp hone]
  constructor
  · intro h
    obtain ⟨front, hsplit⟩ := List.getLast?_eq_some_iff.mp h
    exact hlast front top hsplit
  · rintro ⟨hmem, htop⟩
    have hne : (items.mergeSort fun a b => f a ≤ f b) ≠ [] :=
      List.ne_nil_of_mem (List.mem_mergeSort.mpr hmem)
    obtain ⟨hin, hall⟩ := hlast _ _ (List.dropLast_append_getLast hne).symm
    rw [List.getLast?_eq_some_getLast hne]
    exact congrArg some (hinjective _ hin _ hmem (le_antisymm (htop _ hin) (hall top hmem)))

theorem getLast?_mergeSort {α : Type} [LinearOrder α] {items : List α} {top : α} :
    (items.mergeSort fun a b => a ≤ b).getLast? = some top ↔
      top ∈ items ∧ ∀ item ∈ items, item ≤ top :=
  getLast?_mergeSort_by fun _ _ _ _ heq => heq

variable {nodes : OrderedMap String DepNode} {name spec key : String}

omit [LinearOrder Version] in
theorem mem_candidates {semver : Semver Version Range} {found : Lex (Version × String)} :
    found ∈ candidates semver nodes name spec ↔ ∃ node,
      nodes.find? (ofLex found).2 = some node ∧ goesBy node name ∧
        admitted? semver spec node.version = some (ofLex found).1 := by
  unfold candidates candidate?
  rw [List.mem_filterMap]
  constructor
  · rintro ⟨⟨key, node⟩, hrow, hcandidate⟩
    dsimp only at hcandidate
    split_ifs at hcandidate with hgoes
    obtain ⟨version, hversion, rfl⟩ := Option.map_eq_some_iff.mp hcandidate
    exact ⟨node, OrderedMap.find?_eq_some.mpr hrow, hgoes, hversion⟩
  · rintro ⟨node, hnode, hgoes, hversion⟩
    refine ⟨((ofLex found).2, node), OrderedMap.find?_eq_some.mp hnode, ?_⟩
    dsimp only
    rw [if_pos hgoes, hversion]
    rfl

theorem findMatchingKey_eq_some {semver : Semver Version Range} :
    findMatchingKey semver nodes name spec = some key ↔
      ∃ top ∈ candidates semver nodes name spec, (ofLex top).2 = key ∧
        ∀ other ∈ candidates semver nodes name spec, other ≤ top := by
  unfold findMatchingKey
  rw [Option.map_eq_some_iff]
  constructor
  · rintro ⟨top, htop, rfl⟩
    obtain ⟨hmem, hhighest⟩ := getLast?_mergeSort.mp htop
    exact ⟨top, hmem, rfl, hhighest⟩
  · rintro ⟨top, hmem, rfl, hhighest⟩
    exact ⟨top, getLast?_mergeSort.mpr ⟨hmem, hhighest⟩, rfl⟩

theorem exists_findMatchingKey {semver : Semver Version Range} {found : Lex (Version × String)}
    (hmem : found ∈ candidates semver nodes name spec) :
    ∃ key, findMatchingKey semver nodes name spec = some key := by
  unfold findMatchingKey
  have hne : ((candidates semver nodes name spec).mergeSort fun a b => a ≤ b) ≠ [] :=
    List.ne_nil_of_mem (List.mem_mergeSort.mpr hmem)
  rw [List.getLast?_eq_some_getLast hne]
  exact ⟨_, rfl⟩

/-! ## One edge -/

theorem find?_fixEdges (nodes : OrderedMap String DepNode) (key : String) :
    (fixEdges r nodes).find? key = (nodes.find? key).map fun node => { node with
      dependencies := .ofList (node.dependencies.rows.filterMap fun (name, spec) =>
        (findMatchingKey r.semver nodes name spec).map fun key => (name, key)) } :=
  OrderedMap.find?_map ..

theorem isChosen_fixEdges : IsChosen r (fixEdges r nodes) name spec key ↔
    IsChosen r nodes name spec key := by
  unfold IsChosen
  rw [find?_fixEdges]
  constructor
  · rintro ⟨node, hnode, hchosen⟩
    obtain ⟨before, hbefore, rfl⟩ := Option.map_eq_some_iff.mp hnode
    exact ⟨before, hbefore, hchosen⟩
  · rintro ⟨node, hnode, hchosen⟩
    rw [hnode]
    exact ⟨_, rfl, hchosen⟩

theorem chosenPackage_of_findPackage {depth : ℕ} {dev optional : Bool} {found : Package}
    (hregistry : isGitSpec (pendingOf name spec 0 false false).specifier = false)
    (h : findPackage r (pendingOf name spec depth dev optional) = .ok found) :
    chosenPackage r name spec = some (found.name, found.version) := by
  have hname : (pendingOf name spec depth dev optional).name =
      (pendingOf name spec 0 false false).name := by
    unfold pendingOf
    split <;> rfl
  have hspec : (pendingOf name spec depth dev optional).specifier =
      (pendingOf name spec 0 false false).specifier := by
    unfold pendingOf
    split <;> rfl
  unfold findPackage at h
  rw [hspec, hname, hregistry, if_neg Bool.false_ne_true] at h
  unfold chosenPackage
  cases hpackument : r.registry (pendingOf name spec 0 false false).name with
  | none => simp [hpackument] at h
  | some packument =>
    rw [hpackument] at h
    dsimp only at h
    dsimp only
    rw [hpackument, Option.bind_some]
    cases hversion : resolveVersion r.semver packument
        (pendingOf name spec 0 false false).specifier with
    | none => simp [hversion] at h
    | some version =>
      rw [hversion] at h
      rw [← Except.ok.inj h]
      rfl

omit [LinearOrder Version] in
theorem find?_nodeDeps {package : Package} (hlisted : (name, spec) ∈ package.dependencies.rows) :
    ∃ recorded, (nodeDeps r package).find? name = some recorded := by
  unfold nodeDeps
  cases hfind : (OrderedMap.ofList (package.dependencies.rows ++
      if r.options.includeOptional then package.optionalDependencies.rows else [])).find? name with
  | some recorded => exact ⟨recorded, rfl⟩
  | none =>
    rw [OrderedMap.find?_ofList, Option.map_eq_none_iff, List.find?_eq_none] at hfind
    have hnone := hfind (name, spec) (List.mem_reverse.mpr (List.mem_append_left _ hlisted))
    exact absurd (decide_eq_true rfl) hnone

theorem edgeLeads_fixEdges {roots : List String} {visited : PendingDep × ResolveState}
    {package : Package} {recorded : String}
    (hnode : nodes.find? (packageKey visited.1 package) = some (visitedNode r visited.1 package))
    (hrecorded : (nodeDeps r package).find? name = some recorded) :
    EdgeLeads r ⟨fixEdges r nodes, roots⟩ visited package name spec ↔
      ∃ top ∈ candidates r.semver nodes name recorded,
        (∀ other ∈ candidates r.semver nodes name recorded, other ≤ top) ∧
          IsChosen r nodes name spec (ofLex top).2 := by
  have hfound (key : String) : (OrderedMap.ofList ((nodeDeps r package).rows.filterMap
      fun (name, spec) => (findMatchingKey r.semver nodes name spec).map fun key =>
        (name, key))).find? name = some key ↔
      findMatchingKey r.semver nodes name recorded = some key := by
    have hbind := OrderedMap.find?_ofList_filterMap (nodeDeps r package)
      (fun name spec => findMatchingKey r.semver nodes name spec) name
    rw [hbind, hrecorded, Option.bind_some]
  unfold EdgeLeads
  dsimp only
  rw [find?_fixEdges, hnode]
  constructor
  · rintro ⟨node, key, hvisited, hkey, hchosen⟩
    obtain rfl := Option.some.inj hvisited
    obtain ⟨top, hmem, rfl, hhighest⟩ := findMatchingKey_eq_some.mp ((hfound key).mp hkey)
    exact ⟨top, hmem, hhighest, isChosen_fixEdges.mp hchosen⟩
  · rintro ⟨top, hmem, hhighest, hchosen⟩
    have hkey := findMatchingKey_eq_some.mpr ⟨top, hmem, rfl, hhighest⟩
    exact ⟨_, (ofLex top).2, rfl, (hfound _).mpr hkey, isChosen_fixEdges.mpr hchosen⟩

/-- An edge whose package stands in the graph leads there just when no other is above it. -/
theorem edgeLeads_iff {roots : List String} {visited : PendingDep × ResolveState}
    {package found : Package} {recorded key : String}
    (hnode : nodes.find? (packageKey visited.1 package) = some (visitedNode r visited.1 package))
    (hrecorded : (nodeDeps r package).find? name = some recorded)
    (hchosen : chosenPackage r name spec = some (found.name, found.version))
    (hstands : ∃ node, nodes.find? key = some node ∧ node.name = found.name ∧
      node.version = found.version ∧ goesBy node name) :
    EdgeLeads r ⟨fixEdges r nodes, roots⟩ visited package name spec ↔
      HighestChosen r nodes name spec recorded := by
  rw [edgeLeads_fixEdges hnode hrecorded]
  constructor
  · rintro ⟨top, hmem, hhighest, hchosenTop⟩
    constructor
    · obtain ⟨node, hfind, -, hadmitted⟩ := mem_candidates.mp hmem
      obtain ⟨node', hfind', hpackage⟩ := hchosenTop
      cases hfind.symm.trans hfind'
      exact ⟨_, hpackage, Option.isSome_iff_exists.mpr ⟨_, hadmitted⟩⟩
    · intro other hother hnot
      have hne : other ≠ top := fun heq => hnot (heq ▸ hchosenTop)
      exact ⟨top, hmem, hchosenTop, lt_of_le_of_ne (hhighest other hother) hne⟩
  · rintro ⟨⟨chosen, hpackage, hadmits⟩, hbelow⟩
    obtain ⟨node, hfind, -, hversion, hgoes⟩ := hstands
    obtain rfl := Option.some.inj (hchosen.symm.trans hpackage)
    obtain ⟨version, hadmitted⟩ := Option.isSome_iff_exists.mp hadmits
    have hcandidate : toLex (version, key) ∈ candidates r.semver nodes name recorded :=
      mem_candidates.mpr ⟨node, hfind, hgoes, by rw [hversion]; exact hadmitted⟩
    obtain ⟨top, htop⟩ := exists_findMatchingKey hcandidate
    obtain ⟨found, hmem, -, hhighest⟩ := findMatchingKey_eq_some.mp htop
    refine ⟨found, hmem, hhighest, ?_⟩
    by_contra hnot
    obtain ⟨above, habove, -, hlt⟩ := hbelow found hmem hnot
    exact absurd (hhighest above habove) (not_le.mpr hlt)

/-! ## Every edge -/

variable {dependencies devDependencies : Rows String} {graph : DepGraph}

omit [LinearOrder Version] in
theorem mem_childrenOf {pending : PendingDep} {package : Package}
    (hlisted : (name, spec) ∈ package.dependencies.rows) :
    pendingOf name spec (pending.depth + 1) pending.dev false ∈ childrenOf r pending package :=
  List.mem_append_left _ (List.mem_map.mpr ⟨(name, spec), hlisted, rfl⟩)

theorem keyed_startState : Keyed startState := by
  intro key node hnode
  cases hnode

/-- The visits leave no node of the graph out. -/
theorem places_of_node {s : ResolveState} (h : visitAll r dependencies devDependencies = .ok s)
    {node : DepNode} (hnode : s.nodes.find? key = some node) :
    ∃ visited ∈ visitsOf r dependencies devDependencies, ∃ package, Places r visited package ∧
      key = packageKey visited.1 package ∧ node = visitedNode r visited.1 package := by
  rcases exists_places h hnode with hstart | hplaced
  · cases hstart
  · exact hplaced

/-- Where no needed dependency is met too deep or under a key that stands for another package, every
required edge leads to the version that was chosen for it, as long as the specification that was
kept admits it and no other node above it goes by its name. -/
theorem resolve_edges_iff (h : resolve r dependencies devDependencies = .ok graph)
    (hmeets : ∀ visited ∈ visitsOf r dependencies devDependencies, Needed visited.1 →
      MeetsPlace r visited) :
    ∃ s, visitAll r dependencies devDependencies = .ok s ∧
      ((∀ visited package name spec,
          RequiredEdge r dependencies devDependencies visited package name spec →
            EdgeLeads r graph visited package name spec) ↔
        ∀ visited package name spec,
          RequiredEdge r dependencies devDependencies visited package name spec →
            ∃ recorded, (nodeDeps r package).find? name = some recorded ∧
              HighestChosen r s.nodes name spec recorded) := by
  obtain ⟨s, hvisits, hgraph⟩ := Except.bind_eq_ok.mp h
  obtain rfl := Except.ok.inj hgraph
  refine ⟨s, hvisits, forall_congr' fun visited => forall_congr' fun package =>
    forall_congr' fun name => forall_congr' fun spec => forall_congr' fun hedge => ?_⟩
  obtain ⟨hmem, hplaces, hlisted, hregistry⟩ := hedge
  obtain ⟨recorded, hrecorded⟩ := find?_nodeDeps (r := r) hlisted
  obtain ⟨hnode, hchildren⟩ := stands_of_visit keyed_startState
    (levelled_rootLevel dependencies devDependencies) hvisits hmeets hmem hplaces
  have hneeded : Needed (pendingOf name spec (visited.1.depth + 1) visited.1.dev false) := by
    unfold Needed
    unfold pendingOf at hregistry ⊢
    split at hregistry
    · exact ⟨rfl, hregistry⟩
    · exact ⟨rfl, hregistry⟩
  have hinstall : (pendingOf name spec (visited.1.depth + 1) visited.1.dev false).installName =
      name := by
    unfold pendingOf PendingDep.installName
    split <;> rfl
  obtain ⟨found, hfound, node, hfind, hname, hversion, hgoes⟩ :=
    hchildren _ (mem_childrenOf hlisted) hneeded
  have hchosen := chosenPackage_of_findPackage hregistry hfound
  rw [edgeLeads_iff hnode hrecorded hchosen ⟨node, hfind, hname, hversion, hinstall ▸ hgoes⟩]
  constructor
  · exact fun hhighest => ⟨recorded, hrecorded, hhighest⟩
  · rintro ⟨other, hother, hhighest⟩
    cases hrecorded.symm.trans hother
    exact hhighest

/-! ## A package that is optional for one and required by another -/

def exactSemver : Semver ℕ ℕ where
  parseVersion text := if text = "1.0.0" then some 1 else none
  parseRange text := if text = "1.0.0" then some 1 else none
  satisfies range version := range = version

def noRows {Value : Type} : Rows Value := ⟨[], List.Pairwise.nil⟩

def oneRow {Value : Type} (key : String) (value : Value) : Rows Value :=
  ⟨[(key, value)], List.nodup_singleton _⟩

def demoInfo (dependencies optionalDependencies : Rows String) (os : List String) :
    VersionInfo where
  dependencies
  optionalDependencies
  peerDependencies := noRows
  peerDependenciesMeta := noRows
  os
  cpu := []
  tarball := ""
  integrity := none
  hasInstallScript := false

/-- The package `a` would like to have `c`, and `d`, which it requires, requires `c`. -/
def demoVersions : String → Option VersionInfo
  | "a" => some (demoInfo (oneRow "d" "1.0.0") (oneRow "c" "1.0.0") [])
  | "d" => some (demoInfo (oneRow "c" "1.0.0") noRows [])
  | "c" => some (demoInfo noRows noRows ["win32"])
  | _ => none

def demoResolver (os : String) : Resolver ℕ ℕ where
  semver := exactSemver
  registry name := (demoVersions name).map fun info => ⟨name, noRows, oneRow "1.0.0" info⟩
  git _ := none
  saveTarball _ := false
  platform := ⟨os, "x64"⟩
  options := ⟨true, true, 256⟩

def demoRoots : Rows String := oneRow "a" "1.0.0"

def demoPackage (name : String) : Package :=
  packageOf name "1.0.0" ((demoVersions name).getD (demoInfo noRows noRows []))

def demoPending (name : String) (depth : ℕ) (optional : Bool) : PendingDep :=
  ⟨name, "1.0.0", depth, false, optional, none⟩

def afterA (os : String) : ResolveState :=
  insertNode (demoResolver os) (demoPending "a" 0 false) (demoPackage "a") startState

def afterD (os : String) : ResolveState :=
  insertNode (demoResolver os) (demoPending "d" 1 false) (demoPackage "d") (afterA os)

def afterC (os : String) : ResolveState :=
  insertNode (demoResolver os) (demoPending "c" 1 true) (demoPackage "c") (afterD os)

/-- The visit of the package that requires `c`. -/
def demoVisit (os : String) : PendingDep × ResolveState := (demoPending "d" 1 false, afterA os)

theorem visitsOf_demo {os : String} (h : os = "linux" ∨ os = "win32") :
    visitsOf (demoResolver os) demoRoots noRows =
      [(demoPending "a" 0 false, startState), demoVisit os, (demoPending "c" 1 true, afterD os),
        (demoPending "c" 2 false, afterC os)] := by
  have hlevels : visitsOf (demoResolver os) demoRoots noRows =
      [(demoPending "a" 0 false, startState)] ++
        ([demoVisit os, (demoPending "c" 1 true, afterD os)] ++
          ([(demoPending "c" 2 false, afterC os)] ++
            visitsOfLevels (demoResolver os) 255 [] (afterC os))) := by
    rcases h with rfl | rfl <;> rfl
  rw [hlevels, visitsOfLevels_nil]
  rfl

theorem visitAll_demo {os : String} (h : os = "linux" ∨ os = "win32") :
    visitAll (demoResolver os) demoRoots noRows = .ok (afterC os) := by
  rcases h with rfl | rfl <;> rfl

theorem resolve_demo {os : String} (h : os = "linux" ∨ os = "win32") :
    resolve (demoResolver os) demoRoots noRows =
      .ok ⟨fixEdges (demoResolver os) (afterC os).nodes, (afterC os).roots⟩ :=
  Except.bind_eq_ok.mpr ⟨afterC os, visitAll_demo h, rfl⟩

theorem requiredEdge_demo {os : String} (h : os = "linux" ∨ os = "win32") :
    RequiredEdge (demoResolver os) demoRoots noRows (demoVisit os)
      (demoPackage "d") "c" "1.0.0" := by
  have hmem : (demoVisit os) ∈ visitsOf (demoResolver os) demoRoots noRows := by
    rw [visitsOf_demo h]
    exact List.mem_cons_of_mem _ List.mem_cons_self
  have hplaces : Places (demoResolver os) (demoVisit os) (demoPackage "d") := by
    rcases h with rfl | rfl <;> exact ⟨by decide, rfl, by decide, rfl⟩
  exact ⟨hmem, hplaces, List.mem_cons_self, by decide⟩

/-- The package `c` is for another platform. It is skipped where it is optional, and then it is
missing where it is required. -/
theorem required_edge_lost : ¬ ∀ (r : Resolver ℕ ℕ) (dependencies devDependencies : Rows String)
    (graph : DepGraph), resolve r dependencies devDependencies = .ok graph →
      ∀ visited package name spec,
        RequiredEdge r dependencies devDependencies visited package name spec →
          EdgeLeads r graph visited package name spec := by
  intro h
  have hlinux : "linux" = "linux" ∨ "linux" = "win32" := Or.inl rfl
  have hleads := h _ _ _ _ (resolve_demo hlinux) _ _ _ _ (requiredEdge_demo hlinux)
  have hnode : (afterC "linux").nodes.find? (packageKey (demoVisit "linux").1 (demoPackage "d")) =
      some (visitedNode (demoResolver "linux") (demoVisit "linux").1 (demoPackage "d")) :=
    find?_insertNode (s := afterA "linux") rfl
  have hrecorded : (nodeDeps (demoResolver "linux") (demoPackage "d")).find? "c" = some "1.0.0" :=
    rfl
  obtain ⟨top, hmem, -⟩ := (edgeLeads_fixEdges hnode hrecorded).mp hleads
  obtain ⟨node, hfind, hgoes, -⟩ := mem_candidates.mp hmem
  have hnodes : (afterC "linux").nodes = (OrderedMap.empty.insert "a@1.0.0"
      (visitedNode (demoResolver "linux") (demoPending "a" 0 false) (demoPackage "a"))).insert
        "d@1.0.0"
          (visitedNode (demoResolver "linux") (demoPending "d" 1 false) (demoPackage "d")) := rfl
  rw [hnodes, OrderedMap.find?_insert, OrderedMap.find?_insert, OrderedMap.find?_empty] at hfind
  split_ifs at hfind
  · obtain rfl := Option.some.inj hfind
    exact absurd hgoes (by decide)
  · obtain rfl := Option.some.inj hfind
    exact absurd hgoes (by decide)

theorem meetsPlace_demo : ∀ visited ∈ visitsOf (demoResolver "win32") demoRoots noRows,
    Needed visited.1 → MeetsPlace (demoResolver "win32") visited := by
  rw [visitsOf_demo (Or.inr rfl)]
  simp only [List.forall_mem_cons, List.not_mem_nil, false_imp_iff, implies_true, and_true]
  refine ⟨fun _ => ⟨by decide, fun package hfound htaken => ?_⟩,
    fun _ => ⟨by decide, fun package hfound htaken => ?_⟩, fun hneeded => ?_,
    fun _ => ⟨by decide, fun package hfound _ => ?_⟩⟩
  · cases htaken
  · have hpackage : findPackage (demoResolver "win32") (demoVisit "win32").1 =
        .ok (demoPackage "d") := rfl
    obtain rfl := Except.ok.inj (hpackage.symm.trans hfound)
    exact absurd htaken (by decide)
  · cases hneeded.1
  · have hpackage : findPackage (demoResolver "win32") (demoPending "c" 2 false) =
        .ok (demoPackage "c") := rfl
    obtain rfl := Except.ok.inj (hpackage.symm.trans hfound)
    exact ⟨_, find?_insertNode (s := afterD "win32") rfl, rfl, rfl, by decide⟩

theorem resolve_edges_demo :
    RequiredEdge (demoResolver "win32") demoRoots noRows (demoVisit "win32") (demoPackage "d") "c"
        "1.0.0" ∧
      ∃ s, visitAll (demoResolver "win32") demoRoots noRows = .ok s ∧
        ((∀ visited package name spec,
            RequiredEdge (demoResolver "win32") demoRoots noRows visited package name spec →
              EdgeLeads (demoResolver "win32")
                ⟨fixEdges (demoResolver "win32") (afterC "win32").nodes, (afterC "win32").roots⟩
                visited package name spec) ↔
          ∀ visited package name spec,
            RequiredEdge (demoResolver "win32") demoRoots noRows visited package name spec →
              ∃ recorded, (nodeDeps (demoResolver "win32") package).find? name = some recorded ∧
                HighestChosen (demoResolver "win32") s.nodes name spec recorded) :=
  ⟨requiredEdge_demo (Or.inr rfl), resolve_edges_iff (resolve_demo (Or.inr rfl)) meetsPlace_demo⟩

end Oath.Resolve
