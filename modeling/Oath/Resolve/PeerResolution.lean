import Oath.Library.LayeredSearch
import Oath.Resolve.RequiredEdges

/-! The peers of the packages that the former resolver has found. A peer is looked for among the
dependencies of those that depend on the package, those of the roots, and so on upwards. -/

namespace Oath.Resolve

/-! ## The orders of the maps -/

/-- How the program comes through the nodes of a graph, and through the peers of each of them. -/
structure IterationOrder where
  nodes : OrderedMap String DepNode → List (String × DepNode)
  peers : String → OrderedMap String String → List (String × String)
  nodes_perm (map : OrderedMap String DepNode) : (nodes map).Perm map.rows
  peers_perm (key : String) (map : OrderedMap String String) : (peers key map).Perm map.rows

/-! ## Versions -/

section Versions
variable {Version Range : Type} (semver : Semver Version Range)

def cleanVersion (version : String) : String :=
  String.ofList (version.toList.takeWhile (· ≠ '+'))

/-- What is no version or no range is taken to be right. -/
def semverSatisfies (version range : String) : Bool :=
  match semver.parseVersion (cleanVersion version) with
  | none => true
  | some version =>
    match semver.parseRange range with
    | none => true
    | some range => semver.satisfies range version

/-- What stands behind the last at sign that is not the first character. -/
def extractVersionFromKey (key : String) : String :=
  if '@' ∈ key.toList ∧ Pieces.front '@' key.toList ≠ [] then
    String.ofList (Pieces.lastPiece '@' key.toList)
  else key

end Versions

/-! ## The lookup -/

inductive PeerLookup
  | found (key : String)
  | conflict (version : String)
  | missing
deriving DecidableEq

section Lookup
variable {Version Range : Type} (semver : Semver Version Range) (order : IterationOrder)
  (graph : DepGraph)

/-- The parents of a key, as the parent map has them. -/
def parentsOf (key : String) : List String :=
  (order.nodes graph.nodes).flatMap fun parent =>
    (parent.2.dependencies.rows.filter fun dependency => dependency.2 = key).map fun _ => parent.1

/-- Where the walk goes from an ancestor. -/
def walkFrom (ancestor : String) : List String :=
  if (graph.nodes.find? ancestor).isSome then parentsOf order graph ancestor else []

def peerAmong (peer ancestor : String) : Option String :=
  (graph.nodes.find? ancestor).bind (·.dependencies.find? peer)

def peerStarts (key : String) : List (List String) := [parentsOf order graph key, graph.roots]

def rootGoesBy (peer : String) (node : DepNode) : Prop :=
  node.aliasName.getD node.name = peer ∨ node.name = peer

instance (peer : String) (node : DepNode) : Decidable (rootGoesBy peer node) :=
  inferInstanceAs (Decidable (_ ∨ _))

def rootPeer? (peer : String) : Option (String × String) :=
  graph.roots.findSome? fun root => (graph.nodes.find? root).bind fun node =>
    if rootGoesBy peer node then some (root, node.version) else none

def judgePeer (key version range : String) : PeerLookup :=
  if semverSatisfies semver version range then .found key else .conflict version

/-- The walk ends when the queue is empty, and the fuel is enough for that. -/
def ancestorPeer? (key peer : String) : Option String :=
  LayeredSearch.search (walkFrom order graph) (peerAmong graph peer)
    (LayeredSearch.enough (walkFrom order graph) (peerStarts order graph key) graph.nodes.keys)
    (peerStarts order graph key).flatten []

def findPeerInContext (key peer range : String) : PeerLookup :=
  match ancestorPeer? order graph key peer with
  | some dependency => judgePeer semver dependency (extractVersionFromKey dependency) range
  | none =>
    match rootPeer? graph peer with
    | some (root, version) => judgePeer semver root version range
    | none => .missing

end Lookup

/-! ## The pass -/

inductive PeerResolution
  | satisfied (requiredBy peerName peerKey : String)
  | missing (requiredBy peerName range : String)
  | conflict (requiredBy peerName range foundVersion : String)
deriving DecidableEq

structure PeerReport where
  satisfied : List PeerResolution
  missing : List PeerResolution
  conflicts : List PeerResolution
  optionalMissing : List String

structure PeerWork where
  key : String
  peer : String
  range : String
  optional : Bool

section Pass
variable {Version Range : Type} (semver : Semver Version Range) (order : IterationOrder)
  (graph : DepGraph)

def peerWork : List PeerWork :=
  (order.nodes graph.nodes).flatMap fun row =>
    (order.peers row.1 row.2.peerDependencies).map fun peer =>
      ⟨row.1, peer.1, peer.2, (row.2.optionalPeers.find? peer.1).isSome⟩

def lookUp (work : PeerWork) : PeerLookup :=
  findPeerInContext semver order graph work.key work.peer work.range

def peerKey? : PeerLookup → Option String
  | .found key => some key
  | _ => none

/-- The peers that have been found are not looked at by the later lookups. -/
def withPeers : OrderedMap String DepNode :=
  graph.nodes.map fun key node => { node with
    resolvedPeers := .ofList ((order.peers key node.peerDependencies).filterMap fun peer =>
      (peerKey? (findPeerInContext semver order graph key peer.1 peer.2)).map fun found =>
        (peer.1, found)) }

def peerReport : PeerReport where
  satisfied := (peerWork order graph).filterMap fun work =>
    match lookUp semver order graph work with
    | .found key => some (.satisfied work.key work.peer key)
    | _ => none
  missing := (peerWork order graph).filterMap fun work =>
    match lookUp semver order graph work with
    | .missing => if work.optional then none else some (.missing work.key work.peer work.range)
    | _ => none
  conflicts := (peerWork order graph).filterMap fun work =>
    match lookUp semver order graph work with
    | .conflict version => some (.conflict work.key work.peer work.range version)
    | _ => none
  optionalMissing := (peerWork order graph).filterMap fun work =>
    match lookUp semver order graph work with
    | .missing => if work.optional then some work.peer else none
    | _ => none

def resolvePeers : DepGraph × PeerReport :=
  (⟨withPeers semver order graph, graph.roots⟩, peerReport semver order graph)

end Pass

/-- The whole of `resolve`. -/
def resolveAll {Version Range : Type} [LinearOrder Version] (r : Resolver Version Range)
    (order : IterationOrder) (dependencies devDependencies : Rows String) :
    Except String (DepGraph × PeerReport) := do
  let graph ← resolve r dependencies devDependencies
  .ok (resolvePeers r.semver order graph)

/-! ## What the order can change -/

section Congr
variable {Version Range : Type} {semver : Semver Version Range} {order order' : IterationOrder}
  {graph graph' : DepGraph} {key parent peer : String}

theorem mem_parentsOf : parent ∈ parentsOf order graph key ↔ ∃ node,
    graph.nodes.find? parent = some node ∧ ∃ name, (name, key) ∈ node.dependencies.rows := by
  unfold parentsOf
  rw [List.mem_flatMap]
  constructor
  · rintro ⟨row, hrow, hmem⟩
    obtain ⟨dependency, hdependency, rfl⟩ := List.mem_map.mp hmem
    obtain ⟨hlisted, hkey⟩ := List.mem_filter.mp hdependency
    have hrow := (order.nodes_perm graph.nodes).mem_iff.mp hrow
    refine ⟨row.2, OrderedMap.find?_eq_some.mpr hrow, dependency.1, ?_⟩
    rw [← of_decide_eq_true hkey]
    exact hlisted
  · rintro ⟨node, hnode, name, hlisted⟩
    have hrow := OrderedMap.find?_eq_some.mp hnode
    refine ⟨(parent, node), (order.nodes_perm graph.nodes).mem_iff.mpr hrow, ?_⟩
    exact List.mem_map.mpr ⟨(name, key), List.mem_filter.mpr ⟨hlisted, decide_eq_true rfl⟩, rfl⟩

/-- Two graphs that differ in the order of their roots only. -/
structure SameUpToRoots (graph graph' : DepGraph) : Prop where
  nodes : graph'.nodes = graph.nodes
  roots (key : String) : key ∈ graph'.roots ↔ key ∈ graph.roots

theorem SameUpToRoots.parents (h : SameUpToRoots graph graph') :
    parent ∈ parentsOf order graph key ↔ parent ∈ parentsOf order' graph' key := by
  rw [mem_parentsOf, mem_parentsOf, h.nodes]

theorem SameUpToRoots.walk (h : SameUpToRoots graph graph') (ancestor next : String) :
    next ∈ walkFrom order graph ancestor ↔ next ∈ walkFrom order' graph' ancestor := by
  unfold walkFrom
  rw [h.nodes]
  split_ifs
  · exact h.parents
  · rfl

theorem walkFrom_of_notMem (h : key ∉ graph.nodes.keys) : walkFrom order graph key = [] := by
  unfold walkFrom
  rw [if_neg fun hthere => h (OrderedMap.mem_keys.mpr hthere)]

/-- For each peer, those in the nearest layer of ancestors that depend on something of its name
depend on the same, and where there are none, one root at most goes by its name. -/
structure PeersAgree (order : IterationOrder) (graph : DepGraph) : Prop where
  ancestors (key peer : String) (node : DepNode) : graph.nodes.find? key = some node →
    peer ∈ node.peerDependencies.keys →
      LayeredSearch.Agrees (walkFrom order graph) (peerAmong graph peer)
        (peerStarts order graph key)
  roots (key peer : String) (node : DepNode) : graph.nodes.find? key = some node →
    peer ∈ node.peerDependencies.keys →
      (∀ n ancestor, LayeredSearch.Layer (walkFrom order graph) (peerAmong graph peer)
        (peerStarts order graph key) n ancestor → peerAmong graph peer ancestor = none) →
      ∀ root ∈ graph.roots, ∀ root' ∈ graph.roots, ∀ node node',
        graph.nodes.find? root = some node → graph.nodes.find? root' = some node' →
          rootGoesBy peer node → rootGoesBy peer node' → root = root'

theorem ancestorPeer?_finds : LayeredSearch.Finds (walkFrom order graph) (peerAmong graph peer)
    (peerStarts order graph key) (ancestorPeer? order graph key peer) :=
  LayeredSearch.search_starts fun _ hnone => walkFrom_of_notMem hnone

theorem ancestorPeer?_congr (h : SameUpToRoots graph graph')
    (hagree : LayeredSearch.Agrees (walkFrom order graph) (peerAmong graph peer)
      (peerStarts order graph key)) :
    ancestorPeer? order' graph' key peer = ancestorPeer? order graph key peer := by
  have hgoal : peerAmong graph' peer = peerAmong graph peer := by
    funext ancestor
    unfold peerAmong
    rw [h.nodes]
  have hstarts : List.Forall₂ (fun as as' => ∀ a, a ∈ as ↔ a ∈ as')
      (peerStarts order graph key) (peerStarts order' graph' key) :=
    .cons (fun _ => h.parents) (.cons (fun root => (h.roots root).symm) .nil)
  unfold ancestorPeer?
  rw [hgoal]
  exact (LayeredSearch.search_congr hstarts h.walk (fun _ hnone => walkFrom_of_notMem hnone)
    (fun _ hnone => walkFrom_of_notMem hnone) hagree).symm

theorem rootPeer?_eq_some {found : String × String} (h : rootPeer? graph peer = some found) :
    found.1 ∈ graph.roots ∧ ∃ node, graph.nodes.find? found.1 = some node ∧
      rootGoesBy peer node ∧ node.version = found.2 := by
  obtain ⟨root, hroot, hfound⟩ := List.exists_of_findSome?_eq_some h
  obtain ⟨node, hnode, hgoes⟩ := Option.bind_eq_some_iff.mp hfound
  split_ifs at hgoes with hby
  obtain rfl := Option.some.inj hgoes
  exact ⟨hroot, node, hnode, hby, rfl⟩

theorem rootPeer?_eq_none (h : rootPeer? graph peer = none) {root : String} {node : DepNode}
    (hroot : root ∈ graph.roots) (hnode : graph.nodes.find? root = some node) :
    ¬rootGoesBy peer node := by
  have hnone := List.findSome?_eq_none_iff.mp h root hroot
  rw [hnode, Option.bind_some] at hnone
  intro hby
  rw [if_pos hby] at hnone
  cases hnone

theorem rootPeer?_congr (h : SameUpToRoots graph graph')
    (hone : ∀ root ∈ graph.roots, ∀ root' ∈ graph.roots, ∀ node node',
      graph.nodes.find? root = some node → graph.nodes.find? root' = some node' →
        rootGoesBy peer node → rootGoesBy peer node' → root = root') :
    rootPeer? graph' peer = rootPeer? graph peer := by
  cases hleft : rootPeer? graph peer with
  | none =>
    cases hright : rootPeer? graph' peer with
    | none => rfl
    | some found =>
      obtain ⟨hroot, node, hnode, hby, -⟩ := rootPeer?_eq_some hright
      rw [h.nodes] at hnode
      exact absurd hby (rootPeer?_eq_none hleft ((h.roots _).mp hroot) hnode)
  | some found =>
    obtain ⟨hroot, node, hnode, hby, hversion⟩ := rootPeer?_eq_some hleft
    cases hright : rootPeer? graph' peer with
    | none =>
      rw [← h.nodes] at hnode
      exact absurd hby (rootPeer?_eq_none hright ((h.roots _).mpr hroot) hnode)
    | some found' =>
      obtain ⟨hroot', node', hnode', hby', hversion'⟩ := rootPeer?_eq_some hright
      rw [h.nodes] at hnode'
      have hroots : found'.1 = found.1 :=
        hone _ ((h.roots _).mp hroot') _ hroot node' node hnode' hnode hby' hby
      rw [hroots, hnode] at hnode'
      obtain rfl := Option.some.inj hnode'
      exact congrArg some (Prod.ext hroots (hversion'.symm.trans hversion))

theorem findPeerInContext_congr (h : SameUpToRoots graph graph') (hagree : PeersAgree order graph)
    {node : DepNode} (hnode : graph.nodes.find? key = some node)
    (hpeer : peer ∈ node.peerDependencies.keys) (range : String) :
    findPeerInContext semver order' graph' key peer range =
      findPeerInContext semver order graph key peer range := by
  have hancestor : ancestorPeer? order' graph' key peer = ancestorPeer? order graph key peer :=
    ancestorPeer?_congr h (hagree.ancestors key peer node hnode hpeer)
  unfold findPeerInContext
  rw [hancestor]
  cases hfound : ancestorPeer? order graph key peer with
  | some dependency => rfl
  | none =>
    have hnone : LayeredSearch.Finds (walkFrom order graph) (peerAmong graph peer)
        (peerStarts order graph key) (ancestorPeer? order graph key peer) := ancestorPeer?_finds
    rw [hfound] at hnone
    rw [rootPeer?_congr h (hagree.roots key peer node hnode hpeer hnone)]

/-- The peers of the nodes do not depend on the order of the maps. -/
theorem withPeers_congr (h : SameUpToRoots graph graph') (hagree : PeersAgree order graph) :
    withPeers semver order' graph' = withPeers semver order graph := by
  apply OrderedMap.ext
  intro key
  unfold withPeers
  rw [OrderedMap.find?_map, OrderedMap.find?_map, h.nodes]
  cases hnode : graph.nodes.find? key with
  | none => rfl
  | some node =>
    have hkeys (order : IterationOrder) :
        ((order.peers key node.peerDependencies).map Prod.fst).Nodup :=
      ((order.peers_perm key node.peerDependencies).map Prod.fst).nodup_iff.mpr
        (OrderedMap.keys_nodup _)
    have hperm : (order'.peers key node.peerDependencies).Perm
        (order.peers key node.peerDependencies) :=
      (order'.peers_perm _ _).trans (order.peers_perm _ _).symm
    have hlookups : (order'.peers key node.peerDependencies).filterMap (fun peer =>
          (peerKey? (findPeerInContext semver order' graph' key peer.1 peer.2)).map fun found =>
            (peer.1, found)) =
        (order'.peers key node.peerDependencies).filterMap fun peer =>
          (peerKey? (findPeerInContext semver order graph key peer.1 peer.2)).map fun found =>
            (peer.1, found) := by
      refine List.filterMap_congr fun peer hpeer => ?_
      have hmem : peer.1 ∈ node.peerDependencies.keys :=
        List.mem_map_of_mem ((order'.peers_perm _ _).mem_iff.mp hpeer)
      rw [findPeerInContext_congr h hagree hnode hmem]
    have hmaps := OrderedMap.ofList_congr (OrderedMap.nodup_filterMap (fun peer =>
      peerKey? (findPeerInContext semver order graph key peer.1 peer.2)) (hkeys order'))
      (hperm.filterMap _)
    rw [Option.map_some, Option.map_some, hlookups, hmaps]

end Congr

/-! ## Peers in their range -/

section Ranges
variable {Version Range : Type} {semver : Semver Version Range} {order : IterationOrder}
  {graph : DepGraph} {key peer found : String}

/-- What `node_semver` takes for a version: there is no at sign in it, and what stands behind the
first plus sign does not count. -/
structure SemverLaws (semver : Semver Version Range) : Prop where
  atSign (text : String) (version : Version) : semver.parseVersion text = some version →
    '@' ∉ text.toList
  build (text : String) (version : Version) : semver.parseVersion text = some version →
    semver.parseVersion (cleanVersion text) = some version

/-- The edges lead to nodes whose versions are read, under the keys of these versions. -/
def EdgesVersioned (semver : Semver Version Range) (graph : DepGraph) : Prop :=
  ∀ key node name found, graph.nodes.find? key = some node →
    node.dependencies.find? name = some found →
      ∃ target, graph.nodes.find? found = some target ∧
        (semver.parseVersion target.version).isSome ∧
          ∃ installName, found = graphKey installName target.version

/-- No key is without a name. -/
def KeysNamed (graph : DepGraph) : Prop :=
  ∀ key ∈ graph.nodes.keys, Pieces.front '@' key.toList ≠ []

/-- The node has a version of the range. A text that is no range does not bound it, and a text that
is no version is within every range. -/
def InRange (semver : Semver Version Range) (graph : DepGraph) (found range : String) : Prop :=
  ∃ target, graph.nodes.find? found = some target ∧ ∀ version parsed,
    semver.parseVersion target.version = some version → semver.parseRange range = some parsed →
      semver.satisfies parsed version = true

theorem extractVersion_graphKey {name version : String} (hversion : '@' ∉ version.toList)
    (hname : Pieces.front '@' (graphKey name version).toList ≠ []) :
    extractVersionFromKey (graphKey name version) = version := by
  have htext : (graphKey name version).toList = name.toList ++ '@' :: version.toList := by
    simp [graphKey]
  unfold extractVersionFromKey
  have hmem : '@' ∈ (graphKey name version).toList := by
    rw [htext]
    exact List.mem_append_right _ List.mem_cons_self
  rw [if_pos ⟨hmem, hname⟩, htext, Pieces.lastPiece_append hversion, String.ofList_toList]

theorem inRange_of_satisfies (hlaws : SemverLaws semver) {target : DepNode} {range : String}
    (htarget : graph.nodes.find? found = some target)
    (h : semverSatisfies semver target.version range = true) :
    InRange semver graph found range := by
  refine ⟨target, htarget, fun version parsed hversion hrange => ?_⟩
  unfold semverSatisfies at h
  rw [hlaws.build _ _ hversion] at h
  dsimp only at h
  rw [hrange] at h
  exact h

theorem judgePeer_eq_found {version range : String}
    (h : judgePeer semver key version range = .found found) :
    key = found ∧ semverSatisfies semver version range = true := by
  unfold judgePeer at h
  split_ifs at h with hsatisfies
  exact ⟨PeerLookup.found.inj h, hsatisfies⟩

theorem inRange_of_found (hlaws : SemverLaws semver) (hedges : EdgesVersioned semver graph)
    (hnamed : KeysNamed graph) {range : String}
    (h : findPeerInContext semver order graph key peer range = .found found) :
    InRange semver graph found range := by
  unfold findPeerInContext at h
  have hfinds : LayeredSearch.Finds (walkFrom order graph) (peerAmong graph peer)
      (peerStarts order graph key) (ancestorPeer? order graph key peer) := ancestorPeer?_finds
  cases hancestor : ancestorPeer? order graph key peer with
  | some dependency =>
    rw [hancestor] at h hfinds
    obtain ⟨rfl, hsatisfies⟩ := judgePeer_eq_found h
    obtain ⟨-, ancestor, -, hgoal, -⟩ := hfinds
    obtain ⟨node, hnode, hdependency⟩ := Option.bind_eq_some_iff.mp hgoal
    obtain ⟨target, htarget, hversion, name, hkey⟩ :=
      hedges ancestor node peer dependency hnode hdependency
    obtain ⟨version, hparsed⟩ := Option.isSome_iff_exists.mp hversion
    have hmem : dependency ∈ graph.nodes.keys :=
      OrderedMap.mem_keys.mpr (Option.isSome_iff_exists.mpr ⟨target, htarget⟩)
    have hname := hnamed dependency hmem
    rw [hkey] at hname
    rw [hkey, extractVersion_graphKey (hlaws.atSign _ _ hparsed) hname] at hsatisfies
    exact inRange_of_satisfies hlaws htarget hsatisfies
  | none =>
    rw [hancestor] at h
    dsimp only at h
    cases hroot : rootPeer? graph peer with
    | none =>
      rw [hroot] at h
      cases h
    | some root =>
      rw [hroot] at h
      obtain ⟨rfl, hsatisfies⟩ := judgePeer_eq_found h
      obtain ⟨hmem, node, hnode, -, hversion⟩ := rootPeer?_eq_some hroot
      rw [← hversion] at hsatisfies
      exact inRange_of_satisfies hlaws hnode hsatisfies

/-- A peer that is reported as found is in the range for which it was looked for. -/
theorem satisfied_inRange (hlaws : SemverLaws semver) (hedges : EdgesVersioned semver graph)
    (hnamed : KeysNamed graph) {resolution : PeerResolution}
    (h : resolution ∈ (peerReport semver order graph).satisfied) :
    ∃ key peer found node range, resolution = .satisfied key peer found ∧
      graph.nodes.find? key = some node ∧ node.peerDependencies.find? peer = some range ∧
        InRange semver graph found range := by
  obtain ⟨work, hwork, hlookup⟩ := List.mem_filterMap.mp h
  obtain ⟨row, hrow, hpeer⟩ := List.mem_flatMap.mp hwork
  obtain ⟨listed, hlisted, rfl⟩ := List.mem_map.mp hpeer
  have hnode := OrderedMap.find?_eq_some.mpr ((order.nodes_perm _).mem_iff.mp hrow)
  have hmem := (order.peers_perm _ _).mem_iff.mp hlisted
  split at hlookup
  · next found hfound =>
    obtain rfl := Option.some.inj hlookup
    exact ⟨row.1, listed.1, found, row.2, listed.2, rfl, hnode, OrderedMap.find?_eq_some.mpr hmem,
      inRange_of_found hlaws hedges hnamed hfound⟩
  · cases hlookup

/-- The node keeps no other peers. -/
theorem resolvedPeer_inRange (hlaws : SemverLaws semver) (hedges : EdgesVersioned semver graph)
    (hnamed : KeysNamed graph) {node : DepNode}
    (hnode : (withPeers semver order graph).find? key = some node)
    (hpeer : node.resolvedPeers.find? peer = some found) :
    ∃ range, node.peerDependencies.find? peer = some range ∧
      InRange semver graph found range := by
  unfold withPeers at hnode
  rw [OrderedMap.find?_map] at hnode
  obtain ⟨before, -, rfl⟩ := Option.map_eq_some_iff.mp hnode
  obtain ⟨listed, hlisted, hlookup⟩ :=
    List.mem_filterMap.mp (OrderedMap.mem_of_find?_ofList hpeer)
  obtain ⟨key', hkey, heq⟩ := Option.map_eq_some_iff.mp hlookup
  obtain ⟨rfl, rfl⟩ := Prod.mk.inj heq
  have hmem := (order.peers_perm _ _).mem_iff.mp hlisted
  refine ⟨listed.2, OrderedMap.find?_eq_some.mpr hmem, ?_⟩
  unfold peerKey? at hkey
  split at hkey
  · next found hfound =>
    obtain rfl := Option.some.inj hkey
    exact inRange_of_found hlaws hedges hnamed hfound
  · cases hkey

theorem InRange.withPeers {range : String} (h : InRange semver graph found range) :
    InRange semver ⟨withPeers semver order graph, graph.roots⟩ found range := by
  obtain ⟨target, htarget, hsatisfies⟩ := h
  unfold InRange Resolve.withPeers
  rw [OrderedMap.find?_map, htarget]
  exact ⟨_, rfl, hsatisfies⟩

end Ranges

end Oath.Resolve
