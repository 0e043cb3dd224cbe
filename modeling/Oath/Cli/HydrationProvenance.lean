import Oath.Cli.ExecBinding

/-! Where the URL and the integrity of a planned node come from. Each is filled in on its own, so
that they need not be the ones of one source. -/

namespace Oath.Cli
open Contracts Registry Resolve

structure Source where
  resolved : Option String
  integrity : Option String
deriving DecidableEq, Repr

def nodeSource (node : PlacementNode) : Source := ⟨node.resolved, node.integrity⟩

def infoSource (info : DistInfo) : Source := ⟨some info.tarball, info.integrity⟩

/-- The last persisted node of the location, when it is the same package. -/
def persistedNode? (previous : Except String PlacementPlan) (node : PlacementNode) :
    Option PlacementNode := do
  let previous ← previous.toOption
  let old ← previous.nodes.reverse.find? fun old => old.location = node.location
  if old.name ≠ node.name ∨ old.version ≠ node.version then none else some old

/-- Neither the planner nor the persisted plan gives a URL. -/
def LacksUrl (previous : Except String PlacementPlan) (node : PlacementNode) : Prop :=
  node.link = false ∧ node.resolved = none ∧
    (persistedNode? previous node).bind PlacementNode.resolved = none

instance (previous : Except String PlacementPlan) (node : PlacementNode) :
    Decidable (LacksUrl previous node) := inferInstanceAs (Decidable (_ ∧ _))

section Sources
variable {Text : Type} (env : Environment Text) (previous : Except String PlacementPlan)
  (plan : PlacementPlan)

/-- The registry's entry of the name and version, when a node of them makes it needed. -/
def registryInfo? (node : PlacementNode) : Option DistInfo :=
  if ∃ other ∈ plan.nodes, LacksUrl previous other ∧ other.name = node.name ∧
      other.version = node.version then
    (env.fetchPackument node.name).toOption.bind (·.find? node.version)
  else none

/-- What may fill a node, in the order in which it is asked. -/
def sources (node : PlacementNode) : List Source :=
  nodeSource node :: ((persistedNode? previous node).map nodeSource).toList ++
    ((registryInfo? env previous plan node).map infoSource).toList

end Sources

/-- A field is missing, or it is the one of the source. -/
def Source.Gives (source found : Source) : Prop :=
  (found.resolved = none ∨ found.resolved = source.resolved) ∧
    (found.integrity = none ∨ found.integrity = source.integrity)

instance (source found : Source) : Decidable (source.Gives found) :=
  inferInstanceAs (Decidable (_ ∧ _))

def FromOneSource (sources : List Source) (node : PlacementNode) : Prop :=
  ∃ source ∈ sources, source.Gives (nodeSource node)

instance (sources : List Source) (node : PlacementNode) : Decidable (FromOneSource sources node) :=
  inferInstanceAs (Decidable (∃ source ∈ sources, _))

/-- The first source that has a field has both, or what it lacks is in none of the others, or one of
the others has what it has and what is missing first. -/
def Settled : List Source → Prop
  | [] => True
  | ⟨none, none⟩ :: rest => Settled rest
  | ⟨some _, some _⟩ :: _ => True
  | ⟨some url, none⟩ :: rest => ∀ integrity, rest.findSome? Source.integrity = some integrity →
      ⟨some url, some integrity⟩ ∈ rest
  | ⟨none, some integrity⟩ :: rest => ∀ url, rest.findSome? Source.resolved = some url →
      ⟨some url, some integrity⟩ ∈ rest

/-- Every field from the first source that has it. -/
def firstOf (sources : List Source) : Source :=
  ⟨sources.findSome? Source.resolved, sources.findSome? Source.integrity⟩

theorem gives_iff_eq {source : Source} {url integrity : String} :
    source.Gives ⟨some url, some integrity⟩ ↔ source = ⟨some url, some integrity⟩ := by
  obtain ⟨resolved, integrity'⟩ := source
  unfold Source.Gives
  simp only [reduceCtorEq, false_or, Source.mk.injEq]
  exact and_congr eq_comm eq_comm

theorem gives_none {source : Source} : source.Gives ⟨none, none⟩ := ⟨Or.inl rfl, Or.inl rfl⟩

/-- A source that lacks one of two fields is not the one that both are taken from. -/
theorem exists_gives_iff {first : Source} {rest : List Source} {url integrity : String}
    (h : first ≠ ⟨some url, some integrity⟩) :
    (∃ source ∈ first :: rest, source.Gives ⟨some url, some integrity⟩) ↔
      ⟨some url, some integrity⟩ ∈ rest := by
  constructor
  · intro hsome
    obtain ⟨source, hmem, hgives⟩ := hsome
    obtain rfl := gives_iff_eq.mp hgives
    exact (List.mem_cons.mp hmem).resolve_left (Ne.symm h)
  · intro hmem
    exact ⟨_, List.mem_cons_of_mem first hmem, gives_iff_eq.mpr rfl⟩

/-- When the fields that are found first are those of one source. -/
theorem settled_iff {sources : List Source} (hne : sources ≠ []) :
    (∃ source ∈ sources, source.Gives (firstOf sources)) ↔ Settled sources := by
  induction sources with
  | nil => exact absurd rfl hne
  | cons source rest ih =>
    obtain ⟨resolved, integrity⟩ := source
    cases resolved with
    | none =>
      cases integrity with
      | none =>
        have hfirst : firstOf (⟨none, none⟩ :: rest) = firstOf rest := rfl
        rw [hfirst, Settled]
        cases rest with
        | nil => exact iff_of_true ⟨_, List.mem_cons_self, gives_none⟩ trivial
        | cons next rest =>
          rw [← ih (List.cons_ne_nil next rest), List.exists_mem_cons_iff]
          refine ⟨fun h => h.elim (fun hgives => ?_) id, Or.inr⟩
          have hnone : firstOf (next :: rest) = ⟨none, none⟩ := by
            obtain ⟨hresolved, hintegrity⟩ := hgives
            exact congrArg₂ Source.mk (or_self_iff.mp hresolved) (or_self_iff.mp hintegrity)
          rw [hnone]
          exact ⟨next, List.mem_cons_self, gives_none⟩
      | some integrity =>
        have hfirst : firstOf (⟨none, some integrity⟩ :: rest) =
            ⟨rest.findSome? Source.resolved, some integrity⟩ := rfl
        rw [hfirst, Settled]
        cases rest.findSome? Source.resolved with
        | none =>
          have hhead : Source.Gives ⟨none, some integrity⟩ ⟨none, some integrity⟩ :=
            ⟨Or.inl rfl, Or.inr rfl⟩
          exact iff_of_true ⟨_, List.mem_cons_self, hhead⟩ fun url h => by cases h
        | some url =>
          rw [exists_gives_iff fun h => by cases h]
          exact ⟨fun hmem other h => Option.some.inj h ▸ hmem, fun h => h url rfl⟩
    | some url =>
      cases integrity with
      | none =>
        have hfirst : firstOf (⟨some url, none⟩ :: rest) =
            ⟨some url, rest.findSome? Source.integrity⟩ := rfl
        rw [hfirst, Settled]
        cases rest.findSome? Source.integrity with
        | none =>
          have hhead : Source.Gives ⟨some url, none⟩ ⟨some url, none⟩ :=
            ⟨Or.inr rfl, Or.inl rfl⟩
          exact iff_of_true ⟨_, List.mem_cons_self, hhead⟩ fun integrity h => by cases h
        | some integrity =>
          rw [exists_gives_iff fun h => by cases h]
          exact ⟨fun hmem other h => Option.some.inj h ▸ hmem, fun h => h integrity rfl⟩
      | some integrity =>
        exact iff_of_true ⟨_, List.mem_cons_self, gives_iff_eq.mpr rfl⟩ trivial

/-! ## Both passes -/

section Passes
variable {Text : Type} {env : Environment Text} {previous : Except String PlacementPlan}
  {plan : PlacementPlan}

/-- A node with the fields of the source where it has none. -/
def fillFrom (source? : Option Source) (node : PlacementNode) : PlacementNode :=
  { node with
    resolved := node.resolved.or (source?.bind Source.resolved)
    integrity := node.integrity.or (source?.bind Source.integrity) }

theorem fillFrom_none (node : PlacementNode) : fillFrom none node = node := by
  unfold fillFrom
  rw [Option.bind_none, Option.bind_none, Option.or_none, Option.or_none]

theorem hydrateNode_eq (old : PlacementPlan) (node : PlacementNode) :
    hydrateNode old node = fillFrom ((persistedNode? (.ok old) node).map nodeSource) node := by
  have hfind : (OrderedMap.ofList (old.nodes.map fun old => (old.location, old))).find?
      node.location = old.nodes.reverse.find? fun old => old.location = node.location := by
    rw [OrderedMap.find?_ofList, ← List.map_reverse, List.find?_map, Option.map_map]
    exact congrFun Option.map_id _
  have hpersisted : persistedNode? (.ok old) node =
      (old.nodes.reverse.find? fun old => old.location = node.location).bind fun old =>
        if old.name ≠ node.name ∨ old.version ≠ node.version then none else some old := rfl
  rw [hydrateNode, hfind, hpersisted]
  cases old.nodes.reverse.find? fun old => old.location = node.location with
  | none => exact (fillFrom_none node).symm
  | some found =>
    dsimp only
    rw [Option.bind_some]
    split_ifs with hother
    · exact (fillFrom_none node).symm
    · rfl

theorem hydrateFromPersistedPlan_nodes :
    (hydrateFromPersistedPlan previous plan).nodes =
      plan.nodes.map fun node => fillFrom ((persistedNode? previous node).map nodeSource) node := by
  cases previous with
  | error message =>
    have hnone : ∀ node : PlacementNode,
        fillFrom ((persistedNode? (.error message) node).map nodeSource) node = node :=
      fillFrom_none
    rw [funext hnone, List.map_id']
    rfl
  | ok old => exact congrArg (plan.nodes.map ·) (funext (hydrateNode_eq old))

theorem mem_missingMetadata {nodes : List PlacementNode} {key : Lex (String × String)} :
    key ∈ missingMetadata nodes ↔ ∃ node ∈ nodes, node.link = false ∧ node.resolved = none ∧
      toLex (node.name, node.version) = key := by
  rw [missingMetadata, OrderedMap.mem_keys, OrderedMap.find?_ofList, Option.isSome_map,
    List.find?_isSome]
  simp only [List.mem_reverse, List.mem_map, List.mem_filter, Bool.and_eq_true,
    Bool.not_eq_true', Option.isNone_iff_eq_none, decide_eq_true_eq, and_assoc]
  constructor
  · rintro ⟨_, ⟨node, hmem, hlink, hresolved, rfl⟩, hkey⟩
    exact ⟨node, hmem, hlink, hresolved, hkey⟩
  · rintro ⟨node, hmem, hlink, hresolved, hkey⟩
    exact ⟨_, ⟨node, hmem, hlink, hresolved, rfl⟩, hkey⟩

/-- The nodes that the registry is asked for. -/
theorem mem_missing_iff {node : PlacementNode} :
    toLex (node.name, node.version) ∈
        missingMetadata (hydrateFromPersistedPlan previous plan).nodes ↔
      ∃ other ∈ plan.nodes, LacksUrl previous other ∧ other.name = node.name ∧
        other.version = node.version := by
  have hlacks (other : PlacementNode) : LacksUrl previous other ↔ other.link = false ∧
      (fillFrom ((persistedNode? previous other).map nodeSource) other).resolved = none := by
    have hresolved : (fillFrom ((persistedNode? previous other).map nodeSource) other).resolved =
        other.resolved.or ((persistedNode? previous other).bind PlacementNode.resolved) := by
      rw [fillFrom, Option.bind_map]
      rfl
    rw [hresolved, Option.or_eq_none_iff]
    exact Iff.rfl
  rw [mem_missingMetadata, hydrateFromPersistedPlan_nodes]
  simp only [List.mem_map, exists_exists_and_eq_and]
  refine exists_congr fun other => and_congr_right fun _ => ?_
  rw [hlacks, and_assoc]
  refine and_congr_right fun _ => and_congr_right fun _ => ?_
  exact toLex_inj.trans Prod.mk_inj

theorem hydrateEntry_eq {entries : List (Lex (String × String) × DistInfo)}
    {filled : PlacementNode} (node : PlacementNode)
    (h : (missingMetadata (hydrateFromPersistedPlan previous plan).nodes).mapM
      (registryEntry env) = .ok entries)
    (hname : filled.name = node.name) (hversion : filled.version = node.version) :
    hydrateEntry entries filled =
      fillFrom ((registryInfo? env previous plan node).map infoSource) filled := by
  have hlookup := lookup_registryEntry h (toLex (node.name, node.version))
  rw [ofLex_toLex] at hlookup
  have hinfo : entries.lookup (toLex (filled.name, filled.version)) =
      registryInfo? env previous plan node := by
    rw [hname, hversion, hlookup, registryInfo?]
    exact if_congr mem_missing_iff rfl rfl
  rw [hydrateEntry, hinfo]
  cases registryInfo? env previous plan node with
  | none => exact (fillFrom_none filled).symm
  | some info => rfl

theorem findSome?_toList {α β : Type} (found : Option α) (field : α → Option β) :
    found.toList.findSome? field = found.bind field := by
  cases found with
  | none => rfl
  | some a => exact List.findSome?_singleton

theorem nodeSource_fillFrom (first second : Option Source) (node : PlacementNode) :
    nodeSource (fillFrom second (fillFrom first node)) =
      firstOf (nodeSource node :: first.toList ++ second.toList) := by
  have hfirst (field : Source → Option String) : ((field (nodeSource node)).or
      (first.bind field)).or (second.bind field) =
        (nodeSource node :: first.toList ++ second.toList).findSome? field := by
    have hnode : [nodeSource node].findSome? field = field (nodeSource node) :=
      List.findSome?_singleton
    rw [List.findSome?_append, findSome?_toList, ← List.singleton_append,
      List.findSome?_append, findSome?_toList, hnode]
  exact congrArg₂ Source.mk (hfirst Source.resolved) (hfirst Source.integrity)

/-- Both passes take every field from the first source that has it. -/
theorem hydrated_source {after : PlacementPlan}
    (h : hydrateMissingRegistryMetadata env (hydrateFromPersistedPlan previous plan) = .ok after) :
    ∃ f, after.nodes = plan.nodes.map f ∧
      ∀ node, nodeSource (f node) = firstOf (sources env previous plan node) := by
  obtain ⟨entries, hentries, hplan⟩ := Except.bind_eq_ok.mp h
  obtain rfl := Except.ok.inj hplan
  refine ⟨fun node => hydrateEntry entries
    (fillFrom ((persistedNode? previous node).map nodeSource) node), ?_, fun node => ?_⟩
  · dsimp only
    rw [hydrateFromPersistedPlan_nodes, List.map_map]
    rfl
  · let filled := fillFrom ((persistedNode? previous node).map nodeSource) node
    have hentry : hydrateEntry entries filled =
        fillFrom ((registryInfo? env previous plan node).map infoSource) filled :=
      hydrateEntry_eq node hentries rfl rfl
    exact (congrArg nodeSource hentry).trans (nodeSource_fillFrom _ _ node)

/-- The fields of a node come from one source exactly where its sources settle them. -/
theorem hydrated_fromOneSource_iff {after : PlacementPlan}
    (h : hydrateMissingRegistryMetadata env (hydrateFromPersistedPlan previous plan) = .ok after) :
    List.Forall₂ (fun node hydrated => FromOneSource (sources env previous plan node) hydrated)
        plan.nodes after.nodes ↔
      ∀ node ∈ plan.nodes, Settled (sources env previous plan node) := by
  obtain ⟨f, hnodes, hsource⟩ := hydrated_source h
  rw [hnodes, List.forall₂_map_right_iff, List.forall₂_same]
  refine forall₂_congr fun node _ => ?_
  rw [FromOneSource, hsource]
  exact settled_iff (List.cons_ne_nil _ _)

end Passes

/-! ## A pair of two sources -/

/-- The node as an earlier install has stored it, from another registry. -/
def storedNode : PlacementNode :=
  { demoNode with resolved := some "https://mirror.example/typescript-5.4.5.tgz"
                  integrity := some "sha512-mirror" }

/-- The planner gives the URL, and the persisted plan the integrity of another one. -/
theorem hydrated_mixed : ∃ after, hydrateMissingRegistryMetadata (demoEnvironment [])
      (hydrateFromPersistedPlan (.ok (demoPlan [storedNode])) (demoPlan [demoNode])) = .ok after ∧
    ¬List.Forall₂ (fun node hydrated => FromOneSource
      (sources (demoEnvironment []) (.ok (demoPlan [storedNode])) (demoPlan [demoNode]) node)
        hydrated) (demoPlan [demoNode]).nodes after.nodes := by
  refine ⟨demoPlan [{ demoNode with integrity := some "sha512-mirror" }], rfl, fun hall => ?_⟩
  have hone := (List.forall₂_cons.mp hall).1
  exact absurd hone (by decide)

/-- What the planner has left out comes from the persisted plan as a pair. -/
theorem hydrated_fromOneSource_stored :
    List.Forall₂ (fun node hydrated => FromOneSource (sources (demoEnvironment [])
      (.ok (demoPlan [storedNode])) (demoPlan [{ demoNode with resolved := none }]) node) hydrated)
        [{ demoNode with resolved := none }] [storedNode] := by
  have hrun : hydrateMissingRegistryMetadata (demoEnvironment [])
      (hydrateFromPersistedPlan (.ok (demoPlan [storedNode]))
        (demoPlan [{ demoNode with resolved := none }])) = .ok (demoPlan [storedNode]) := rfl
  refine (hydrated_fromOneSource_iff hrun).mpr fun node hnode => ?_
  obtain rfl := List.mem_singleton.mp hnode
  trivial

end Oath.Cli
