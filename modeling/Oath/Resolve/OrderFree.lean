import Oath.Resolve.DevFlags

/-! What the former resolver finds does not depend on the order of its maps, where nothing in the
run is left to the first that comes. -/

namespace Oath.Resolve
open Registry

section Whole
variable {Version Range : Type} [LinearOrder Version] {r : Resolver Version Range}
  {order : IterationOrder} {dependencies devDependencies : Rows String}
  {graph found : DepGraph} {report : PeerReport}

/-- Another order of the maps gives the same nodes, the flags for development say what they should,
and the peers are in their ranges. -/
structure OrderFree (r : Resolver Version Range) (dependencies devDependencies : Rows String)
    (graph : DepGraph) (report : PeerReport) : Prop where
  same (r' : Resolver Version Range) (order' : IterationOrder)
    (dependencies' devDependencies' : Rows String) : r.Same r' →
      dependencies.rows.Perm dependencies'.rows → devDependencies.rows.Perm devDependencies'.rows →
        ∃ graph' report', resolveAll r' order' dependencies' devDependencies' =
          .ok (graph', report') ∧ SameUpToRoots graph graph'
  dev (key : String) (node : DepNode) : graph.nodes.find? key = some node →
    (node.dev = true ↔ ReachesKey r (developmentRoots r devDependencies) key ∧
      ¬ReachesKey r (productionRoots dependencies) key)
  reported : ∀ resolution ∈ report.satisfied, ∃ key peer found node range,
    resolution = .satisfied key peer found ∧ graph.nodes.find? key = some node ∧
      node.peerDependencies.find? peer = some range ∧ InRange r.semver graph found range
  kept (key : String) (node : DepNode) (peer found : String) :
    graph.nodes.find? key = some node → node.resolvedPeers.find? peer = some found →
      ∃ range, node.peerDependencies.find? peer = some range ∧ InRange r.semver graph found range

/-- Nothing in the run is left to the first that comes: not the choice between two versions, nor who
places a package, nor where a peer is found. -/
structure SteadyRun (r : Resolver Version Range) (order : IterationOrder)
    (dependencies devDependencies : Rows String) : Prop where
  versions : DistinctVersions r
  levels : ∀ reached ∈ levelsOf r dependencies devDependencies, LevelAgrees r reached.1 reached.2
  production : ProductionFirst r dependencies devDependencies
  peers (graph : DepGraph) : resolve r dependencies devDependencies = .ok graph →
    PeersAgree order graph ∧ KeysNamed graph

theorem resolveAll_eq_ok
    (h : resolveAll r order dependencies devDependencies = .ok (graph, report)) :
    ∃ found, resolve r dependencies devDependencies = .ok found ∧
      graph = ⟨withPeers r.semver order found, found.roots⟩ ∧
        report = peerReport r.semver order found := by
  obtain ⟨found, hfound, h⟩ := Except.bind_eq_ok.mp h
  obtain ⟨rfl, rfl⟩ := Prod.mk.inj (Except.ok.inj h)
  exact ⟨found, hfound, rfl, rfl⟩

omit [LinearOrder Version] in
theorem find?_withPeers {semver : Semver Version Range} {key : String} {node : DepNode}
    (h : (withPeers semver order found).find? key = some node) :
    ∃ before, found.nodes.find? key = some before ∧ node.dev = before.dev := by
  unfold withPeers at h
  rw [OrderedMap.find?_map] at h
  obtain ⟨before, hbefore, rfl⟩ := Option.map_eq_some_iff.mp h
  exact ⟨before, hbefore, rfl⟩

/-- Every edge leads to a node whose version was compared with that of the others. -/
theorem edgesVersioned_of_resolve (h : resolve r dependencies devDependencies = .ok found) :
    EdgesVersioned r.semver found := by
  obtain ⟨final, hvisits, hgraph⟩ := Except.bind_eq_ok.mp h
  obtain rfl := Except.ok.inj hgraph
  intro key node name leads hnode hedge
  dsimp only at hnode ⊢
  rw [find?_fixEdges] at hnode ⊢
  obtain ⟨before, -, rfl⟩ := Option.map_eq_some_iff.mp hnode
  dsimp only at hedge
  have hbind := OrderedMap.find?_ofList_filterMap before.dependencies
    (fun name spec => findMatchingKey r.semver final.nodes name spec) name
  rw [hbind] at hedge
  obtain ⟨spec, -, hmatching⟩ := Option.bind_eq_some_iff.mp hedge
  obtain ⟨top, hmem, rfl, -⟩ := findMatchingKey_eq_some.mp hmatching
  obtain ⟨target, htarget, -, hadmitted⟩ := mem_candidates.mp hmem
  obtain ⟨visited, -, package, -, hkey, rfl⟩ := places_of_node hvisits htarget
  rw [htarget]
  refine ⟨_, rfl, ?_, visited.1.installName, hkey⟩
  obtain ⟨hparsed, -⟩ := Option.filter_eq_some_iff.mp hadmitted
  exact Option.isSome_iff_exists.mpr ⟨_, hparsed⟩

theorem same_of_steady (hsteady : SteadyRun r order dependencies devDependencies)
    (hresolve : resolve r dependencies devDependencies = .ok found)
    {r' : Resolver Version Range} {order' : IterationOrder}
    {dependencies' devDependencies' : Rows String} (hsame : r.Same r')
    (hrows : dependencies.rows.Perm dependencies'.rows)
    (hdevRows : devDependencies.rows.Perm devDependencies'.rows) :
    ∃ graph' report', resolveAll r' order' dependencies' devDependencies' = .ok (graph', report') ∧
      SameUpToRoots ⟨withPeers r.semver order found, found.roots⟩ graph' := by
  obtain ⟨found', hresolve', hfound⟩ :=
    resolve_same hsame hsteady.versions hsteady.levels hrows hdevRows hresolve
  have hpeers : withPeers r.semver order' found' = withPeers r.semver order found :=
    withPeers_congr hfound (hsteady.peers found hresolve).1
  refine ⟨_, _, Except.bind_eq_ok.mpr ⟨found', hresolve', rfl⟩, ?_, hfound.roots⟩
  rw [hsame.semver]
  exact hpeers

/-- A run in which nothing is left to the first that comes gives a result that does not depend on
the order of the maps, with the right flags and peers. -/
theorem resolveAll_orderFree (hlaws : SemverLaws r.semver)
    (hsteady : SteadyRun r order dependencies devDependencies)
    (h : resolveAll r order dependencies devDependencies = .ok (graph, report)) :
    OrderFree r dependencies devDependencies graph report := by
  obtain ⟨found, hresolve, rfl, rfl⟩ := resolveAll_eq_ok h
  obtain ⟨final, hvisits, hfound⟩ := Except.bind_eq_ok.mp hresolve
  have hedges := edgesVersioned_of_resolve hresolve
  have hnamed := (hsteady.peers found hresolve).2
  constructor
  · intro r' order' dependencies' devDependencies' hsame hrows hdevRows
    exact same_of_steady hsteady hresolve hsame hrows hdevRows
  · intro key node hnode
    obtain ⟨before, hbefore, hdev⟩ := find?_withPeers hnode
    obtain rfl := Except.ok.inj hfound
    dsimp only at hbefore
    rw [find?_fixEdges] at hbefore
    obtain ⟨placed, hplaced, rfl⟩ := Option.map_eq_some_iff.mp hbefore
    have hflag := dev_iff hvisits hsteady.production hplaced
    rw [hdev]
    exact hflag
  · intro resolution hmem
    obtain ⟨key, peer, leads, node, range, heq, hnode, hrange, hin⟩ :=
      satisfied_inRange hlaws hedges hnamed hmem
    have hkept : (withPeers r.semver order found).find? key =
        (found.nodes.find? key).map _ := OrderedMap.find?_map ..
    rw [hnode] at hkept
    exact ⟨key, peer, leads, _, range, heq, hkept, hrange, hin.withPeers⟩
  · intro key node peer leads hnode hpeer
    obtain ⟨range, hrange, hin⟩ := resolvedPeer_inRange hlaws hedges hnamed hnode hpeer
    exact ⟨range, hrange, hin.withPeers⟩

end Whole

/-! ## A peer that a development dependency provides -/

theorem levelsFrom_nil {Version Range : Type} [LinearOrder Version] {r : Resolver Version Range}
    {n : ℕ} {s : ResolveState} : ∀ reached ∈ levelsFrom r n [] s, reached.1 = [] := by
  induction n with
  | zero => exact fun _ hmem => absurd hmem List.not_mem_nil
  | succ n ih => exact List.forall_mem_cons.mpr ⟨rfl, ih⟩

theorem exactSemver_laws : SemverLaws exactSemver := by
  have honly (text : String) (version : ℕ) (h : exactSemver.parseVersion text = some version) :
      text = "1.0.0" := by
    by_contra hne
    simp [exactSemver, hne] at h
  constructor
  · intro text version h
    obtain rfl := honly text version h
    decide
  · intro text version h
    have hclean : cleanVersion "1.0.0" = "1.0.0" := by decide
    obtain rfl := honly text version h
    rw [hclean]
    exact h

def sortedOrder : IterationOrder where
  nodes map := map.rows
  peers _ map := map.rows
  nodes_perm _ := List.Perm.refl _
  peers_perm _ _ := List.Perm.refl _

def peeredInfo : VersionInfo := { demoInfo noRows noRows [] with
  peerDependencies := oneRow "p" "1.0.0" }

/-- The package `a` looks for its peer `p`. -/
def peeredResolver : Resolver ℕ ℕ where
  semver := exactSemver
  registry name := some ⟨name, noRows, oneRow "1.0.0"
    (if name = "a" then peeredInfo else demoInfo noRows noRows [])⟩
  git _ := none
  saveTarball _ := false
  platform := ⟨"linux", "x64"⟩
  options := ⟨true, true, 256⟩

def peeredPackage (name : String) : Package :=
  packageOf name "1.0.0" (if name = "a" then peeredInfo else demoInfo noRows noRows [])

def devPending (name : String) (depth : ℕ) : PendingDep := ⟨name, "1.0.0", depth, true, false, none⟩

def peeredA : ResolveState :=
  insertNode peeredResolver (demoPending "a" 0 false) (peeredPackage "a") startState

def peeredP : ResolveState :=
  insertNode peeredResolver (devPending "p" 0) (peeredPackage "p") peeredA

def peeredGraph : DepGraph := ⟨fixEdges peeredResolver peeredP.nodes, peeredP.roots⟩

theorem visitsOf_peered : visitsOf peeredResolver (oneRow "a" "1.0.0") (oneRow "p" "1.0.0") =
    [(demoPending "a" 0 false, startState), (devPending "p" 0, peeredA)] := by
  have hlevels : visitsOf peeredResolver (oneRow "a" "1.0.0") (oneRow "p" "1.0.0") =
      [(demoPending "a" 0 false, startState), (devPending "p" 0, peeredA)] ++
        visitsOfLevels peeredResolver 257 [] peeredP := rfl
  rw [hlevels, visitsOfLevels_nil, List.append_nil]

theorem resolve_peered : resolve peeredResolver (oneRow "a" "1.0.0") (oneRow "p" "1.0.0") =
    .ok peeredGraph := Except.bind_eq_ok.mpr ⟨peeredP, rfl, rfl⟩

theorem levelAgrees_peered :
    LevelAgrees peeredResolver [demoPending "a" 0 false, devPending "p" 0] startState := by
  intro key hfresh pending hmem other hother package package' htakes htakes' hdev
  have hsame : other = pending := by
    rcases List.mem_pair.mp hmem with rfl | rfl <;> rcases List.mem_pair.mp hother with rfl | rfl
    · rfl
    · cases hdev
    · cases hdev
    · rfl
  subst hsame
  exact ⟨Except.ok.inj (htakes'.found.symm.trans htakes.found), rfl, rfl, rfl⟩

theorem productionFirst_peered :
    ProductionFirst peeredResolver (oneRow "a" "1.0.0") (oneRow "p" "1.0.0") := by
  have honly : ∀ visited ∈ visitsOf peeredResolver (oneRow "a" "1.0.0") (oneRow "p" "1.0.0"),
      visited.1.dev = false → visited = (demoPending "a" 0 false, startState) := by
    rw [visitsOf_peered]
    intro visited hmem hdev
    rcases List.mem_pair.mp hmem with rfl | rfl
    · rfl
    · cases hdev
  constructor
  · intro visited hmem hdev
    rw [honly visited hmem hdev]
    exact ⟨by decide, fun _ _ _ htaken => absurd htaken List.not_mem_nil⟩
  · intro visited hmem other hother hdev hdev' package package' hfound hfound' hkey
    rw [honly visited hmem hdev] at hfound
    rw [honly other hother hdev'] at hfound'
    exact Except.ok.inj (hfound'.symm.trans hfound)

theorem node_of_peered {key : String} {node : DepNode}
    (h : peeredGraph.nodes.find? key = some node) :
    ∃ name, key = graphKey name "1.0.0" ∧ node.name = name ∧ node.aliasName = none ∧
      Pieces.front '@' key.toList ≠ [] ∧ ∀ peer, node.dependencies.find? peer = none := by
  unfold peeredGraph at h
  dsimp only at h
  rw [find?_fixEdges] at h
  obtain ⟨before, hbefore, rfl⟩ := Option.map_eq_some_iff.mp h
  have hnodes : peeredP.nodes = (OrderedMap.empty.insert "a@1.0.0"
      (visitedNode peeredResolver (demoPending "a" 0 false) (peeredPackage "a"))).insert
        "p@1.0.0" (visitedNode peeredResolver (devPending "p" 0) (peeredPackage "p")) := rfl
  rw [hnodes, OrderedMap.find?_insert, OrderedMap.find?_insert, OrderedMap.find?_empty] at hbefore
  split_ifs at hbefore with hp ha
  · obtain rfl := Option.some.inj hbefore
    exact ⟨"p", hp, rfl, rfl, by rw [hp]; decide, fun _ => rfl⟩
  · obtain rfl := Option.some.inj hbefore
    exact ⟨"a", ha, rfl, rfl, by rw [ha]; decide, fun _ => rfl⟩

theorem peersAgree_peered : PeersAgree sortedOrder peeredGraph := by
  have hnone (peer ancestor : String) : peerAmong peeredGraph peer ancestor = none := by
    unfold peerAmong
    cases hnode : peeredGraph.nodes.find? ancestor with
    | none => rfl
    | some node =>
      obtain ⟨-, -, -, -, -, hbare⟩ := node_of_peered hnode
      exact hbare peer
  have hgoes (root peer : String) (node : DepNode)
      (hnode : peeredGraph.nodes.find? root = some node) (hby : rootGoesBy peer node) :
      root = graphKey peer "1.0.0" := by
    obtain ⟨name, hkey, rfl, halias, -⟩ := node_of_peered hnode
    unfold rootGoesBy at hby
    rw [halias, Option.getD_none, or_self] at hby
    rw [hkey, hby]
  constructor
  · intro key peer node _ _ n _ a a' b b' _ _ hgoal
    rw [hnone] at hgoal
    cases hgoal
  · intro key peer node _ _ _ root _ root' _ other other' hother hother' hby hby'
    rw [hgoes root peer other hother hby, hgoes root' peer other' hother' hby']

theorem steadyRun_peered :
    SteadyRun peeredResolver sortedOrder (oneRow "a" "1.0.0") (oneRow "p" "1.0.0") := by
  have hlevels : levelsOf peeredResolver (oneRow "a" "1.0.0") (oneRow "p" "1.0.0") =
      ([demoPending "a" 0 false, devPending "p" 0], startState) ::
        levelsFrom peeredResolver 257 [] peeredP := rfl
  constructor
  · intro name packument hpackument row hrow row' hrow' version _ _
    obtain rfl := Option.some.inj hpackument
    rw [List.mem_singleton.mp hrow, List.mem_singleton.mp hrow']
  · rw [hlevels, List.forall_mem_cons]
    refine ⟨levelAgrees_peered, fun reached hmem key _ pending hpending => ?_⟩
    rw [levelsFrom_nil reached hmem] at hpending
    cases hpending
  · exact productionFirst_peered
  · intro graph hgraph
    obtain rfl := Except.ok.inj (resolve_peered.symm.trans hgraph)
    refine ⟨peersAgree_peered, fun key hkey => ?_⟩
    obtain ⟨node, hnode⟩ := Option.isSome_iff_exists.mp (OrderedMap.mem_keys.mp hkey)
    obtain ⟨-, -, -, -, hname, -⟩ := node_of_peered hnode
    exact hname

def peeredResult : DepGraph × PeerReport := resolvePeers exactSemver sortedOrder peeredGraph

theorem resolveAll_orderFree_peered :
    peeredResult.2.satisfied = [.satisfied "a@1.0.0" "p" "p@1.0.0"] ∧
      OrderFree peeredResolver (oneRow "a" "1.0.0") (oneRow "p" "1.0.0") peeredResult.1
        peeredResult.2 :=
  ⟨by decide, resolveAll_orderFree exactSemver_laws steadyRun_peered
    (Except.bind_eq_ok.mpr ⟨peeredGraph, resolve_peered, rfl⟩)⟩

/-! ## A package that a development dependency brings first -/

/-- The package `a` leads to `c` by way of `b`, and `d` leads there at once. -/
def chainVersions : String → Rows String
  | "a" => oneRow "b" "1.0.0"
  | "b" => oneRow "c" "1.0.0"
  | "d" => oneRow "c" "1.0.0"
  | _ => noRows

def chainResolver : Resolver ℕ ℕ where
  semver := exactSemver
  registry name := some ⟨name, noRows, oneRow "1.0.0" (demoInfo (chainVersions name) noRows [])⟩
  git _ := none
  saveTarball _ := false
  platform := ⟨"linux", "x64"⟩
  options := ⟨true, true, 256⟩

def chainPackage (name : String) : Package :=
  packageOf name "1.0.0" (demoInfo (chainVersions name) noRows [])

def chainState : ResolveState :=
  insertNode chainResolver (devPending "c" 1) (chainPackage "c")
    (insertNode chainResolver (demoPending "b" 1 false) (chainPackage "b")
      (insertNode chainResolver (devPending "d" 0) (chainPackage "d")
        (insertNode chainResolver (demoPending "a" 0 false) (chainPackage "a") startState)))

theorem visitAll_chain : visitAll chainResolver (oneRow "a" "1.0.0") (oneRow "d" "1.0.0") =
    .ok chainState := rfl

theorem reached_chain : Reached chainResolver (productionRoots (oneRow "a" "1.0.0"))
    (demoPending "c" 2 false) (chainPackage "c") := by
  have ha : Reached chainResolver (productionRoots (oneRow "a" "1.0.0")) (demoPending "a" 0 false)
      (chainPackage "a") := .root List.mem_cons_self rfl rfl
  have hb : Reached chainResolver (productionRoots (oneRow "a" "1.0.0")) (demoPending "b" 1 false)
      (chainPackage "b") := .child ha List.mem_cons_self rfl rfl
  exact .child hb List.mem_cons_self rfl rfl

/-- The package that a development dependency brings first stays one for development, and a
dependency for production leads to it. -/
theorem dev_flag_stale : ¬ ∀ (r : Resolver ℕ ℕ) (order : IterationOrder)
    (dependencies devDependencies : Rows String) (graph : DepGraph) (report : PeerReport),
      SemverLaws r.semver →
        resolveAll r order dependencies devDependencies = .ok (graph, report) →
          OrderFree r dependencies devDependencies graph report := by
  intro h
  have hresolve : resolve chainResolver (oneRow "a" "1.0.0") (oneRow "d" "1.0.0") =
      .ok ⟨fixEdges chainResolver chainState.nodes, chainState.roots⟩ :=
    Except.bind_eq_ok.mpr ⟨chainState, visitAll_chain, rfl⟩
  have hfree := h chainResolver sortedOrder _ _ _ _ exactSemver_laws
    (Except.bind_eq_ok.mpr ⟨_, hresolve, rfl⟩)
  have hplaced : chainState.nodes.find? "c@1.0.0" =
      some (visitedNode chainResolver (devPending "c" 1) (chainPackage "c")) :=
    find?_insertNode rfl
  have hfixed : (fixEdges chainResolver chainState.nodes).find? "c@1.0.0" =
      (chainState.nodes.find? "c@1.0.0").map _ := find?_fixEdges ..
  rw [hplaced, Option.map_some] at hfixed
  have hnode : (withPeers exactSemver sortedOrder
      ⟨fixEdges chainResolver chainState.nodes, chainState.roots⟩).find? "c@1.0.0" =
        ((fixEdges chainResolver chainState.nodes).find? "c@1.0.0").map _ := OrderedMap.find?_map ..
  rw [hfixed, Option.map_some] at hnode
  have honly := (hfree.dev "c@1.0.0" _ hnode).mp rfl
  exact honly.2 ⟨_, _, reached_chain, rfl⟩

end Oath.Resolve
