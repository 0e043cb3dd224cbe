import Oath.Store.GraphTree

/-! The phases of the link of a package graph, and what the stage holds after the last of them. -/

namespace Oath.Store
open Contracts Registry Resolve Unix

/-! ## Graphs that name what they lead to -/

/-- The edges of a graph lead to its nodes, each under the name that the node is installed with, and
no package leads to another one of its own name. -/
structure Consistent (graph : DepGraph) : Prop where
  keys : ¬("" ∈ graph.nodes.keys ∧ "_" ∈ graph.nodes.keys)
  keyModules : "node_modules" ∉ graph.nodes.keys
  modules (row : String × DepNode) : row ∈ graph.nodes.rows → nodeModules ∉ pathOf row.2
  executables (row : String × DepNode) : row ∈ graph.nodes.rows → installNameOf row.2 ≠ ".bin"
  dependencies (row : String × DepNode) (dependency : String × String) :
    row ∈ graph.nodes.rows → dependency ∈ row.2.dependencies.rows →
      ∃ child, graph.nodes.find? dependency.2 = some child ∧ installNameOf child = dependency.1 ∧
        (installNameOf child = installNameOf row.2 → dependency.2 = row.1)

/-- The edges of a graph lead to its nodes, under whatever names. -/
structure Linkable (graph : DepGraph) : Prop where
  keys : ¬("" ∈ graph.nodes.keys ∧ "_" ∈ graph.nodes.keys)
  modules (row : String × DepNode) : row ∈ graph.nodes.rows → nodeModules ∉ pathOf row.2
  executables (row : String × DepNode) : row ∈ graph.nodes.rows → installNameOf row.2 ≠ ".bin"
  dependencies (row : String × DepNode) (dependency : String × String) :
    row ∈ graph.nodes.rows → dependency ∈ row.2.dependencies.rows →
      ∃ child, graph.nodes.find? dependency.2 = some child

section Names
variable {graph : DepGraph} {order : GraphOrder graph}

theorem Consistent.linkable (h : Consistent graph) : Linkable graph where
  keys := h.keys
  modules := h.modules
  executables := h.executables
  dependencies := by
    intro row dependency hrow hdependency
    obtain ⟨child, hfind, -⟩ := h.dependencies row dependency hrow hdependency
    exact ⟨child, hfind⟩

theorem mem_keys_of_row {row : String × DepNode} (hrow : row ∈ graph.nodes.rows) :
    row.1 ∈ graph.nodes.keys := List.mem_map_of_mem hrow

theorem checkGraphNames_eq_ok {k k' : Kernel} :
    checkGraphNames order k = .ok () k' ↔ validateGraphPathNames order = .ok () ∧ k' = k := by
  unfold checkGraphNames
  cases validateGraphPathNames order with
  | ok u =>
    refine ⟨fun h => ⟨rfl, (EStateM.pure_eq_ok.mp h).2⟩, fun ⟨_, h⟩ => ?_⟩
    exact EStateM.pure_eq_ok.mpr ⟨rfl, h⟩
  | error message =>
    refine ⟨fun h => absurd h EStateM.throw_ne_ok, fun ⟨h, _⟩ => ?_⟩
    cases h

theorem named_of_validated (hlinkable : Linkable graph)
    (hvalid : validateGraphPathNames order = .ok ()) : Named graph where
  valid := by
    intro row hrow
    have hrow' := order.nodes_perm.mem_iff.mpr hrow
    obtain ⟨_, hname, -⟩ := Except.bind_eq_ok.mp (forM_ok hvalid row hrow')
    exact hname
  keys := by
    intro row row' hrow hrow' heq
    apply eq_of_key hrow hrow'
    have hcanonical := safePathComponent_eq_iff.mp heq
    have hkey := mem_keys_of_row hrow
    have hkey' := mem_keys_of_row hrow'
    unfold canonical at hcanonical
    split_ifs at hcanonical with hempty hempty' hempty'
    · rw [hempty, hempty']
    · rw [hempty] at hkey
      rw [← hcanonical] at hkey'
      exact absurd ⟨hkey, hkey'⟩ hlinkable.keys
    · rw [hempty'] at hkey'
      rw [hcanonical] at hkey
      exact absurd ⟨hkey', hkey⟩ hlinkable.keys
    · exact hcanonical
  modules := hlinkable.modules
  executables := by
    intro row hrow hpath
    have hbin : nameParts ".bin" = [binName] := by decide
    exact hlinkable.executables row hrow (nameParts_injective (hpath.trans hbin.symm))

/-- A key other than `node_modules` has a directory of another name. -/
theorem virtualKey_ne {row : String × DepNode} (hconsistent : Consistent graph)
    (hrow : row ∈ graph.nodes.rows) : asBytes (virtualKeyComponent row.1) ≠ nodeModules := by
  intro heq
  have hmodules : virtualKeyComponent "node_modules" = "node_modules" := by decide
  have hkey : virtualKeyComponent row.1 = virtualKeyComponent "node_modules" := by
    rw [hmodules]
    exact asBytes_injective heq
  have hcanonical := safePathComponent_eq_iff.mp hkey
  have hother : canonical "node_modules" = "node_modules" := by decide
  rw [hother] at hcanonical
  have hrowKey : row.1 = "node_modules" := by
    unfold canonical at hcanonical
    split_ifs at hcanonical with hempty
    · exact absurd hcanonical (by decide)
    · exact hcanonical
  exact hconsistent.keyModules (hrowKey ▸ mem_keys_of_row hrow)

theorem edge_of_dependency {row : String × DepNode} {dependency : String × String}
    (hconsistent : Consistent graph) (hrow : row ∈ graph.nodes.rows)
    (hdependency : dependency ∈ row.2.dependencies.rows) :
    ∃ child, Edge graph row (dependency.2, child) ∧ installNameOf child = dependency.1 ∧
      depInstallName graph dependency = installNameOf child := by
  obtain ⟨child, hfind, hname, -⟩ := hconsistent.dependencies row dependency hrow hdependency
  refine ⟨child, ⟨hrow, OrderedMap.find?_eq_some.mp hfind, ?_⟩, hname, ?_⟩
  · rw [hname]
    exact hdependency
  · unfold depInstallName
    rw [hfind]

/-- An edge as the linker has it. -/
def Carries (graph : DepGraph) (row child : String × DepNode) (edge : String × String × String) :
    Prop :=
  edge.1 = row.1 ∧ edge.2.2 = child.1 ∧ depInstallName graph edge.2 = installNameOf child.2

theorem Linkable.carries (hlinkable : Linkable graph) {edge : String × String × String}
    (h : edge ∈ dependencyEdges order) :
    ∃ row child, row ∈ graph.nodes.rows ∧ child ∈ graph.nodes.rows ∧
      Carries graph row child edge := by
  obtain ⟨row, hrow, hedge⟩ := List.mem_flatMap.mp h
  obtain ⟨dependency, hdependency, rfl⟩ := List.mem_map.mp hedge
  have hrow := order.nodes_perm.mem_iff.mp hrow
  have hdependency := (order.dependencies_perm row.2).mem_iff.mp hdependency
  obtain ⟨child, hfind⟩ := hlinkable.dependencies row dependency hrow hdependency
  refine ⟨row, (dependency.2, child), hrow, OrderedMap.find?_eq_some.mp hfind, rfl, rfl, ?_⟩
  unfold depInstallName
  rw [hfind]

theorem carries_of_mem (hconsistent : Consistent graph) {edge : String × String × String}
    (h : edge ∈ dependencyEdges order) :
    ∃ row child, Edge graph row child ∧ Carries graph row child edge := by
  obtain ⟨row, hrow, hedge⟩ := List.mem_flatMap.mp h
  obtain ⟨dependency, hdependency, rfl⟩ := List.mem_map.mp hedge
  have hrow := order.nodes_perm.mem_iff.mp hrow
  have hdependency := (order.dependencies_perm row.2).mem_iff.mp hdependency
  obtain ⟨child, hchild, -, hname⟩ := edge_of_dependency hconsistent hrow hdependency
  exact ⟨row, (dependency.2, child), hchild, rfl, rfl, hname⟩

theorem Edge.mem_dependencyEdges {row child : String × DepNode} (h : Edge graph row child) :
    ∃ edge ∈ dependencyEdges order, Carries graph row child edge := by
  refine ⟨(row.1, installNameOf child.2, child.1), ?_, rfl, rfl, ?_⟩
  · refine List.mem_flatMap.mpr ⟨row, order.nodes_perm.mem_iff.mpr h.mem_row, ?_⟩
    exact List.mem_map_of_mem ((order.dependencies_perm row.2).mem_iff.mpr h.depends)
  · unfold depInstallName
    rw [OrderedMap.find?_eq_some.mpr h.mem_child]

/-- A nested edge is one of a dependency, under the name that the linker has for it. -/
theorem source_of_nested {edge : String × String × String} (h : edge ∈ (buildPlan order).nested) :
    ∃ source ∈ dependencyEdges order, ∀ row child, Carries graph row child source →
      edge = (row.1, installNameOf child.2, child.1) := by
  obtain ⟨source, hsource, hnested⟩ := List.mem_filterMap.mp (List.mem_mergeSort.mp h)
  unfold nestedEdge? at hnested
  dsimp only at hnested
  split_ifs at hnested
  obtain rfl := Option.some.inj hnested
  refine ⟨source, hsource, fun row child ⟨hrow, hchild, hname⟩ => ?_⟩
  rw [hrow, hchild, hname]

theorem carries_of_nested (hconsistent : Consistent graph) {edge : String × String × String}
    (h : edge ∈ (buildPlan order).nested) :
    ∃ row child, Edge graph row child ∧ edge = (row.1, installNameOf child.2, child.1) := by
  obtain ⟨source, hsource, hedge⟩ := source_of_nested h
  obtain ⟨row, child, hrow, hcarries⟩ := carries_of_mem hconsistent hsource
  exact ⟨row, child, hrow, hedge row child hcarries⟩

theorem row_of_peerEdge {edge : String × String} (h : edge ∈ peerEdges order) :
    ∃ row ∈ graph.nodes.rows, edge.1 = row.1 := by
  obtain ⟨row, hrow, hpeer⟩ := List.mem_flatMap.mp h
  obtain ⟨peer, -, rfl⟩ := List.mem_map.mp hpeer
  exact ⟨row, order.nodes_perm.mem_iff.mp hrow, rfl⟩

theorem installed_of_group {rows : List (String × DepNode)}
    {groups : OrderedMap String (List String)} {name : String}
    (h : ((rows.foldl addToGroup groups).find? name).isSome) :
    (groups.find? name).isSome ∨ ∃ row ∈ rows, installNameOf row.2 = name := by
  induction rows generalizing groups with
  | nil => exact Or.inl h
  | cons row rest ih =>
    rcases ih h with hgroup | ⟨row', hrow', hname⟩
    · rw [addToGroup, OrderedMap.find?_insert] at hgroup
      split_ifs at hgroup with heq
      · exact Or.inr ⟨row, List.mem_cons_self, heq.symm⟩
      · exact Or.inl hgroup
    · exact Or.inr ⟨row', List.mem_cons_of_mem _ hrow', hname⟩

theorem installed_of_hoisted {hoisted : String × String}
    (h : hoisted ∈ (buildPlan order).hoisted.rows) :
    ∃ row ∈ graph.nodes.rows, hoisted.1 = installNameOf row.2 := by
  have hfind := OrderedMap.find?_eq_some.mpr (show (hoisted.1, hoisted.2) ∈ _ from h)
  have hgroup : ((byInstallName order).find? hoisted.1).isSome := by
    rw [buildPlan, hoistedOf, OrderedMap.find?_map] at hfind
    obtain ⟨keys, hkeys, -⟩ := Option.map_eq_some_iff.mp hfind
    rw [hkeys]
    rfl
  rcases installed_of_group hgroup with hnone | ⟨row, hrow, hname⟩
  · cases hnone
  · exact ⟨row, order.nodes_perm.mem_iff.mp hrow, hname.symm⟩

end Names

/-! ## The packages -/

section Phases
variable {graph : DepGraph} {order : GraphOrder graph} {env : LinkEnvironment}
  {first : LinkedFiles} {k k' : Kernel} {result result' : LinkResult}
  {done : Set ((String × DepNode) × (String × DepNode))}

/-- Below the directory of a key there is only its package. -/
theorem Housing.below {housed : List (String × DepNode)} {fs : LinkedFiles} {names : List Name}
    {row : String × DepNode} (h : Housing env first housed fs) (hnamed : Named graph)
    (hall : ∀ row, row ∈ housed ↔ row ∈ graph.nodes.rows) (hrow : row ∈ graph.nodes.rows)
    (hne : names ≠ [])
    (hthere : fs.content? (env.staged (modulePlace (virtualPlace row.1) names)) ≠ none) :
    names <+: pathOf row.2 ∨ pathOf row.2 <+: names := by
  rcases h.others _ (fun hnone => hthere (content?_eq_none.mpr hnone)) with
    hshort | ⟨row', hrow', hcommon⟩
  · have hle := hshort.length_le
    rw [beside_eq] at hle
    simp only [List.length_cons, List.length_nil] at hle
    omega
  · have hmem := (hall row').mp hrow'
    rcases hcommon with habove | hunder
    · obtain ⟨rfl, hstarts⟩ := hnamed.same_row hrow hmem habove
      exact Or.inl hstarts
    · obtain ⟨rfl, hstarts⟩ := hnamed.same_row hmem hrow hunder
      exact Or.inr hstarts

theorem Housing.grown {housed : List (String × DepNode)} {fs : LinkedFiles}
    (h : Housing env first housed fs) (hnamed : Named graph)
    (hall : ∀ row, row ∈ housed ↔ row ∈ graph.nodes.rows)
    (hstored : ∀ row ∈ graph.nodes.rows, Provided env row.2 first) : Grown graph env first fs where
  rooted := h.rooted
  links := by
    intro relative hlink
    exact (h.links relative hlink).elim
  homes := by
    intro row hrow
    have hheld := h.held row ((hall row).mpr hrow) []
    rw [List.append_nil, List.append_nil] at hheld
    rw [← content?_eq_directory, hheld, content?_eq_directory]
    exact (hstored row hrow).there
  gaps := by
    intro row init hrow hinit hproper
    by_contra hthere
    have hmem : nodeModules ∈ init ++ [nodeModules] := List.mem_append_right _ List.mem_cons_self
    have hne : init ++ [nodeModules] ≠ [] :=
      List.append_ne_nil_of_right_ne_nil _ (List.cons_ne_nil _ _)
    rcases h.below hnamed hall hrow hne hthere with habove | hunder
    · exact hnamed.modules row hrow (habove.subset hmem)
    · have hlength : (init ++ [nodeModules]).length ≤ (pathOf row.2).length := by
        have hlt : init.length < (pathOf row.2).length :=
          lt_of_le_of_ne hinit.length_le fun heq => hproper (hinit.eq_of_length heq)
        rwa [List.length_append, List.length_singleton]
      rw [← hunder.eq_of_length_le hlength] at hmem
      exact hnamed.modules row hrow hmem
  held := by
    intro row rest hrow _
    exact h.held row ((hall row).mpr hrow) rest

/-- The manifest has not been written when the packages are at their places. -/
theorem Housing.record {housed : List (String × DepNode)} {fs : LinkedFiles}
    (h : Housing env first housed fs) (hgrown : Grown graph env first fs)
    (hall : ∀ row, row ∈ housed ↔ row ∈ graph.nodes.rows) :
    ¬IsFile fs (env.staged [oathName, LinkEnvironment.manifestName]) := by
  rintro ⟨inode, hfile⟩
  have hthere : fs.entryAt? (env.staged [oathName, LinkEnvironment.manifestName]) ≠ none := by
    rw [hfile]
    exact Option.some_ne_none _
  rcases h.others _ hthere with hshort | ⟨row, hrow, habove | hunder⟩
  · have hle := hshort.length_le
    simp at hle
  · have hopen : Open fs env.project (stageName :: homeOf row) :=
      open_of_directory h.rooted (hgrown.homes row ((hall row).mp hrow))
    have hdir : fs.entryAt? (env.staged [oathName, LinkEnvironment.manifestName]) =
        some .directory :=
      hopen _ (List.cons_ne_nil _ _) (List.cons_prefix_cons.mpr ⟨rfl, habove⟩)
    rw [hfile] at hdir
    cases hdir
  · have hle := hunder.length_le
    have hlength := homeOf_length row
    simp only [List.length_cons, List.length_nil] at hle
    omega

/-- What holds before the first link is made. -/
theorem Housing.building {housed : List (String × DepNode)} {fs : LinkedFiles}
    (h : Housing env first housed fs) (hnamed : Named graph)
    (hall : ∀ row, row ∈ housed ↔ row ∈ graph.nodes.rows)
    (hstored : ∀ row ∈ graph.nodes.rows, InStore env row.2 first) :
    Building graph env first ∅ fs := by
  have hgrown := h.grown hnamed hall fun row hrow => (hstored row hrow).provided
  refine ⟨hgrown, h.record hgrown hall, ?_, ?_, ?_⟩
  · intro row child hedge
    have hheld := h.held row ((hall row).mpr hedge.mem_row) (nodeModules :: pathOf child.2)
    refine Or.inl (hheld.trans ?_)
    exact (hstored row hedge.mem_row).bundles _ hedge.depends
  · intro row child hedge hother
    refine Or.inl ?_
    by_contra hthere
    have hpath := hnamed.path hedge.mem_child
    have hown := hnamed.path hedge.mem_row
    rcases h.below hnamed hall hedge.mem_row hpath.ne_nil hthere with habove | hunder
    · exact hother (hpath.eq_of_starts hown habove)
    · exact hother (hown.eq_of_starts hpath hunder).symm
  · intro row child _ _ hnone
    exact hnone.elim

/-! ## The links -/

theorem linkEach_building {α : Type} {P : α → Prop} {f : α → LinkResult → Link LinkResult}
    {items : List α} (hitems : ∀ item ∈ items, P item)
    (hstep : ∀ item result result' k k', P item → Building graph env first done k.files →
      f item result k = .ok result' k' → Building graph env first done k'.files)
    (hstart : Building graph env first done k.files)
    (h : linkEach f items result k = .ok result' k') :
    Building graph env first done k'.files :=
  linkEach_files (I := Building graph env first done) hitems hstep hstart h

theorem hoistedPlace {hoisted : String × String} {row : String × DepNode}
    (hrow : row ∈ graph.nodes.rows) (hinstall : hoisted.1 = installNameOf row.2) :
    LinkPlace graph (nameParts hoisted.1) := .hoisted _ ⟨row, hrow, congrArg nameParts hinstall⟩

theorem makes_linkHoisted (hnamed : Named graph) {hoisted : String × String}
    {row : String × DepNode} (hrow : row ∈ graph.nodes.rows)
    (hinstall : hoisted.1 = installNameOf row.2) (h : Grown graph env first k.files) :
    Makes (Within (entryLimits env (nameParts hoisted.1)))
      (linkHoisted env graph hoisted result) k := by
  obtain ⟨hparts, hpath⟩ := validateInstallName_ok (hnamed.valid row hrow)
  rw [← hinstall] at hparts hpath
  have hfree := h.way hnamed (hoistedPlace hrow hinstall)
  unfold linkHoisted
  split_ifs
  · exact makes_pure _
  · have hscope : Makes (Within (entryLimits env (nameParts hoisted.1)))
        (makeScope env (.ofNames env.project (stageName :: [])) hoisted.1) k :=
      makes_makeScope hpath hfree
    have hjoin : Path.joinText (.ofNames env.project (stageName :: [])) hoisted.1 =
        .ofNames env.project (stageName :: ([] ++ nameParts hoisted.1)) := joinText_eq env hparts
    have hlink : Path.joinText env.stage hoisted.1 =
        .ofNames env.project (stageName :: nameParts hoisted.1) := hjoin
    refine makes_bind hscope fun _ k₁ hmade => ?_
    rw [hlink]
    refine makes_bind (makes_withErrors (makes_placeLink ?_)) fun _ _ _ => makes_pure _
    exact linkFree_next hfree hscope hmade

theorem linkHoisted_building (hnamed : Named graph) {hoisted : String × String}
    (hname : ∃ row ∈ graph.nodes.rows, hoisted.1 = installNameOf row.2)
    (h : Building graph env first done k.files)
    (hrun : linkHoisted env graph hoisted result k = .ok result' k') :
    Building graph env first done k'.files := by
  obtain ⟨row, hrow, hinstall⟩ := hname
  have hpath := (validateInstallName_ok (hnamed.valid row hrow)).2
  rw [← hinstall] at hpath
  have hmakes : Makes (Within (entryLimits env (nameParts hoisted.1)))
      (linkHoisted env graph hoisted result) k := makes_linkHoisted hnamed hrow hinstall h.grown
  exact h.next_short hnamed (hoistedPlace hrow hinstall) hpath.length_le hmakes hrun

theorem inside_ne_beside {row row' child : String × DepNode} {names : List Name}
    (hnamed : Named graph) (hrow : row ∈ graph.nodes.rows) (hrow' : row' ∈ graph.nodes.rows)
    (hnames : Installed graph names) :
    insideOf row child ≠ modulePlace (virtualPlace row'.1) names := by
  intro heq
  unfold insideOf at heq
  rw [inside_eq] at heq
  obtain ⟨rfl, rfl⟩ := hnamed.same_of_eq hrow hrow' heq
  have hown := (hnamed.path hrow).eq_of_starts (hnamed.installed hnames).1 (List.prefix_append _ _)
  have hlength := congrArg List.length hown
  rw [List.length_append, List.length_cons] at hlength
  omega

theorem Edge.inside_inj {row child row' child' : String × DepNode} (hnamed : Named graph)
    (h : Edge graph row child) (h' : Edge graph row' child')
    (heq : insideOf row child = insideOf row' child') : row = row' ∧ child = child' := by
  unfold insideOf at heq
  rw [inside_eq, inside_eq] at heq
  obtain ⟨rfl, hnames⟩ := hnamed.same_of_eq h.mem_row h'.mem_row heq
  have hpaths := (List.cons.inj (List.append_cancel_left hnames)).2
  exact ⟨rfl, h.eq_of_path h' hpaths⟩

theorem Edge.beside_inj {row child row' child' : String × DepNode} (hnamed : Named graph)
    (h : Edge graph row child) (h' : Edge graph row' child')
    (heq : besideOf row child = besideOf row' child') : row = row' ∧ child = child' := by
  unfold besideOf at heq
  obtain ⟨rfl, hpaths⟩ := hnamed.same_of_eq h.mem_row h'.mem_row heq
  exact ⟨rfl, h.eq_of_path h' hpaths⟩

theorem linkNested_eq (hnamed : Named graph) {row child : String × DepNode}
    (hrow : row ∈ graph.nodes.rows) (hchild : child ∈ graph.nodes.rows) :
    linkNested env graph (row.1, installNameOf child.2, child.1) result = (do
      if ← read (·.pathExists (env.virtualDir row.1 (installNameOf row.2))) then
        linkInside env (.ofNames env.project (stageName :: (homeOf row ++ [nodeModules])))
          (installNameOf child.2) (.ofNames env.project (stageName :: homeOf child)) result
      else pure result) := by
  have hparts := (validateInstallName_ok (hnamed.valid child hchild)).1
  have hown := (validateInstallName_ok (hnamed.valid row hrow)).1
  have hmodules : (env.virtualDir row.1 (installNameOf row.2)).join nodeModules =
      .ofNames env.project (stageName :: (homeOf row ++ [nodeModules])) := by
    rw [virtualDir_eq env row.1 hown, Path.join_ofNames]
    rfl
  have hsource : env.virtualDir child.1 (installNameOf child.2) =
      .ofNames env.project (stageName :: homeOf child) := virtualDir_eq env child.1 hparts
  unfold linkNested
  simp only [OrderedMap.find?_eq_some.mpr hrow, OrderedMap.find?_eq_some.mpr hchild,
    Option.isNone_some, Bool.false_eq_true, if_false, hmodules, hsource]

theorem makes_linkNested (hnamed : Named graph) {row child : String × DepNode}
    (hrow : row ∈ graph.nodes.rows) (hchild : child ∈ graph.nodes.rows)
    (h : Grown graph env first k.files) :
    Makes (Within (entryLimits env (insideOf row child)))
      (linkNested env graph (row.1, installNameOf child.2, child.1) result) k := by
  obtain ⟨hparts, hpath⟩ := validateInstallName_ok (hnamed.valid child hchild)
  have hplace : homeOf row ++ [nodeModules] ++ nameParts (installNameOf child.2) =
      insideOf row child := List.append_assoc _ _ _
  have hfree := h.way hnamed (.inside row _ hrow ⟨child, hchild, rfl⟩)
  rw [linkNested_eq hnamed hrow hchild]
  refine makes_bind (makes_read _) fun there k₁ hread => ?_
  obtain ⟨-, rfl⟩ := read_eq_ok.mp hread
  split_ifs
  · rw [← hplace]
    refine makes_linkInside hpath hparts ?_
    rw [hplace]
    exact hfree
  · exact makes_pure _

theorem linkNested_building (hnamed : Named graph) {edge : String × String × String}
    (hedge : ∃ row child, Edge graph row child ∧ edge = (row.1, installNameOf child.2, child.1))
    (h : Building graph env first done k.files)
    (hrun : linkNested env graph edge result k = .ok result' k') :
    Building graph env first done k'.files := by
  obtain ⟨row, child, hedge, rfl⟩ := hedge
  obtain ⟨hparts, hpath⟩ := validateInstallName_ok (hnamed.valid child hedge.mem_child)
  have hmakes : Makes (Within (entryLimits env (insideOf row child)))
      (linkNested env graph (row.1, installNameOf child.2, child.1) result) k :=
    makes_linkNested hnamed hedge.mem_row hedge.mem_child h.grown
  refine h.next hnamed hedge.insidePlace hmakes hrun ?_ ?_
  · intro row' child' hedge' heq
    obtain ⟨rfl, rfl⟩ := hedge.inside_inj hnamed hedge' heq
    rw [linkNested_eq hnamed hedge.mem_row hedge.mem_child] at hrun
    obtain ⟨there, k₁, hread, h1⟩ := EStateM.bind_eq_ok.mp hrun
    obtain ⟨-, rfl⟩ := read_eq_ok.mp hread
    split_ifs at h1
    · have hplace : homeOf row ++ [nodeModules] ++ nameParts (installNameOf child.2) =
          insideOf row child := List.append_assoc _ _ _
      have hfree := h.grown.way hnamed hedge.insidePlace
      have hnone := h.inside row child hedge
      rw [← hplace] at hfree hnone ⊢
      exact linkInside_noneOr hpath hparts hfree h1 hnone
    · obtain ⟨-, rfl⟩ := EStateM.pure_eq_ok.mp h1
      exact h.inside row child hedge
  · intro row' child' hedge' _ heq
    exact absurd heq (inside_ne_beside hnamed hedge.mem_row hedge'.mem_row hedge'.installed)

theorem makes_linkDependency (hnamed : Named graph) {row child : String × DepNode}
    {edge : String × String × String} (hrow : row ∈ graph.nodes.rows)
    (hchild : child ∈ graph.nodes.rows) (hcarries : Carries graph row child edge)
    (h : Grown graph env first k.files) :
    Makes (Within (entryLimits env (besideOf row child))) (linkDependency env graph edge result)
      k := by
  obtain ⟨hkey, hother, hname⟩ := hcarries
  obtain ⟨hparts, hpath⟩ := validateInstallName_ok (hnamed.valid child hchild)
  unfold linkDependency
  rw [hkey, hother, hname]
  exact makes_linkBeside hpath hparts (h.way hnamed (.beside row _ hrow ⟨child, hchild, rfl⟩))

/-- The link of an edge beside its package. -/
theorem linkDependency_building (hnamed : Named graph) {row child : String × DepNode}
    {edge : String × String × String} (hedge : Edge graph row child)
    (hcarries : Carries graph row child edge) (h : Building graph env first done k.files)
    (hrun : linkDependency env graph edge result k = .ok result' k') :
    Building graph env first (insert (row, child) done) k'.files := by
  have hmakes : Makes (Within (entryLimits env (besideOf row child)))
      (linkDependency env graph edge result) k :=
    makes_linkDependency hnamed hedge.mem_row hedge.mem_child hcarries h.grown
  have hbeside := hrun
  obtain ⟨hrow, hchild, hname⟩ := hcarries
  obtain ⟨hparts, hpath⟩ := validateInstallName_ok (hnamed.valid child hedge.mem_child)
  unfold linkDependency at hbeside
  rw [hrow, hchild, hname] at hbeside
  have hfree := h.grown.way hnamed hedge.besidePlace
  have hsource := h.grown.exists hnamed hedge.mem_child
  have hlinked : pathOf child.2 ≠ pathOf row.2 →
      LinkedTo env k'.files (besideOf row child) (homeOf child) := fun hother =>
    linkBeside_linked hpath hparts hfree hsource hbeside (h.beside row child hedge hother)
  have hnext : Building graph env first done k'.files := by
    refine h.next hnamed hedge.besidePlace hmakes hrun ?_ ?_
    · intro row' child' hedge' heq
      exact absurd heq.symm
        (inside_ne_beside hnamed hedge'.mem_row hedge.mem_row hedge.installed)
    · intro row' child' hedge' hother heq
      obtain ⟨rfl, rfl⟩ := hedge.beside_inj hnamed hedge' heq
      exact Or.inr (hlinked hother)
  refine ⟨hnext.grown, hnext.record, hnext.inside, hnext.beside, ?_⟩
  intro row' child' hedge' hother hdone
  rcases Set.mem_insert_iff.mp hdone with heq | hbefore
  · obtain ⟨rfl, rfl⟩ := Prod.mk.inj heq
    exact hlinked hother
  · exact hnext.linked row' child' hedge' hother hbefore

theorem linkDependencies_building (hconsistent : Consistent graph) (hnamed : Named graph)
    (h : Building graph env first done k.files)
    (hrun : linkEach (linkDependency env graph) (dependencyEdges order) result k =
      .ok result' k') : Building graph env first Set.univ k'.files := by
  have hend := linkEach_inv (J := fun remaining k =>
    (∀ edge ∈ remaining, ∃ row child, Edge graph row child ∧ Carries graph row child edge) ∧
      ∃ done, (∀ row child, Edge graph row child → (row, child) ∈ done ∨
        ∃ edge ∈ remaining, Carries graph row child edge) ∧
          Building graph env first done k.files) ?_ ?_ hrun
  · obtain ⟨-, done, hdone, hbuilding⟩ := hend
    refine ⟨hbuilding.grown, hbuilding.record, hbuilding.inside, hbuilding.beside, ?_⟩
    intro row child hedge hother _
    rcases hdone row child hedge with hmem | ⟨edge, hnone, -⟩
    · exact hbuilding.linked row child hedge hother hmem
    · exact absurd hnone List.not_mem_nil
  · refine ⟨fun edge hmem => carries_of_mem hconsistent hmem, done, fun row child hedge => ?_, h⟩
    exact Or.inr hedge.mem_dependencyEdges
  · intro edge rest result result' k k' ⟨hall, done, hdone, hbuilding⟩ hstep
    obtain ⟨row, child, hedge, hcarries⟩ := hall edge List.mem_cons_self
    refine ⟨fun other hother => hall other (List.mem_cons_of_mem _ hother),
      insert (row, child) done, ?_, linkDependency_building hnamed hedge hcarries hbuilding hstep⟩
    intro row' child' hedge'
    rcases hdone row' child' hedge' with hmem | ⟨other, hother, hother'⟩
    · exact Or.inl (Set.mem_insert_of_mem _ hmem)
    · rcases List.mem_cons.mp hother with rfl | hlater
      · obtain rfl := eq_of_key hedge.mem_row hedge'.mem_row (hcarries.1.symm.trans hother'.1)
        obtain rfl := eq_of_key hedge.mem_child hedge'.mem_child
          (hcarries.2.1.symm.trans hother'.2.1)
        exact Or.inl (Set.mem_insert _ _)
      · exact Or.inr ⟨other, hlater, hother'⟩

/-- A peer that the graph does not have is passed over. -/
theorem makes_linkPeer (hnamed : Named graph) {row : String × DepNode} {edge : String × String}
    (hrow : row ∈ graph.nodes.rows) (hkey : edge.1 = row.1) (h : Grown graph env first k.files)
    (result : LinkResult) :
    linkPeer env graph edge result = pure result ∨ ∃ names, Installed graph names ∧
      Makes (Within (entryLimits env (modulePlace (virtualPlace row.1) names)))
        (linkPeer env graph edge result) k := by
  unfold linkPeer
  cases hpeer : graph.nodes.find? edge.2 with
  | none => exact Or.inl rfl
  | some peer =>
    have hmem : (edge.2, peer) ∈ graph.nodes.rows := OrderedMap.find?_eq_some.mp hpeer
    obtain ⟨hparts, hpath⟩ := validateInstallName_ok (hnamed.valid _ hmem)
    have hinstalled : Installed graph (pathOf peer) := ⟨(edge.2, peer), hmem, rfl⟩
    refine Or.inr ⟨pathOf peer, hinstalled, ?_⟩
    rw [hkey]
    exact makes_linkBeside hpath hparts (h.way hnamed (.beside row _ hrow hinstalled))

theorem linkPeer_building (hnamed : Named graph) {edge : String × String}
    (hedge : ∃ row ∈ graph.nodes.rows, edge.1 = row.1)
    (h : Building graph env first Set.univ k.files)
    (hrun : linkPeer env graph edge result k = .ok result' k') :
    Building graph env first Set.univ k'.files := by
  obtain ⟨row, hrow, hkey⟩ := hedge
  rcases makes_linkPeer hnamed hrow hkey h.grown result with hnone | ⟨names, hinstalled, hmakes⟩
  · rw [hnone] at hrun
    obtain ⟨-, rfl⟩ := EStateM.pure_eq_ok.mp hrun
    exact h
  · refine h.next hnamed (.beside row _ hrow hinstalled) hmakes hrun ?_ ?_
    · intro row' child' hedge' heq
      exact absurd heq.symm (inside_ne_beside hnamed hedge'.mem_row hrow hinstalled)
    · intro row' child' hedge' hother heq
      -- the dependency has the place already
      have hlinked := h.linked row' child' hedge' hother (Set.mem_univ _)
      rw [heq]
      exact Or.inr (hlinked.next hmakes hrun)

/-! ## Executables -/

theorem makes_linkHoistedBin (hnamed : Named graph) {name : String}
    {bin : String × List Name} (h : Grown graph env first k.files) :
    Makes (Within (entryLimits env [binName, asBytes bin.1]))
      (linkHoistedBin env name bin result) k := by
  have hfree := h.way hnamed (.bin (asBytes bin.1))
  refine makes_bind (makes_read _) fun there k₁ hread => ?_
  obtain ⟨-, rfl⟩ := read_eq_ok.mp hread
  split_ifs
  · refine makes_bind (makes_withErrors (makes_placeLink hfree)) fun _ _ _ => makes_pure _
  · exact makes_pure _

theorem linkHoistedBin_building (hnamed : Named graph) {name : String}
    {bin : String × List Name} (h : Building graph env first done k.files)
    (hrun : linkHoistedBin env name bin result k = .ok result' k') :
    Building graph env first done k'.files :=
  h.next_short hnamed (.bin _) le_rfl (makes_linkHoistedBin hnamed h.grown) hrun

theorem linkHoistedBins_building (hnamed : Named graph) {hoisted : String × String}
    (h : Building graph env first done k.files)
    (hrun : linkHoistedBins env graph hoisted result k = .ok result' k') :
    Building graph env first done k'.files := by
  unfold linkHoistedBins at hrun
  split_ifs at hrun
  · obtain ⟨-, rfl⟩ := EStateM.pure_eq_ok.mp hrun
    exact h
  · obtain ⟨bins, k₁, hread, hloop⟩ := EStateM.bind_eq_ok.mp hrun
    obtain ⟨-, rfl⟩ := read_eq_ok.mp hread
    exact linkEach_building (P := fun _ => True) (fun _ _ => trivial)
      (fun bin result result' k k' _ hbuilding hstep =>
        linkHoistedBin_building hnamed hbuilding hstep) h hloop

theorem makes_binDir (hnamed : Named graph) (h : Grown graph env first k.files) :
    Makes (Within (entryLimits env [binName, []]))
      (orText (createDirAll env.faults (env.stage.join binName))) k :=
  makes_withErrors (makes_placeDir (List.cons_ne_nil _ _) (h.way hnamed (.bin [])))

theorem binDir_building (hnamed : Named graph) (h : Building graph env first done k.files)
    (hrun : orText (createDirAll env.faults (env.stage.join binName)) k = .ok () k') :
    Building graph env first done k'.files :=
  h.next_short hnamed (.bin []) le_rfl (makes_binDir hnamed h.grown) hrun

end Phases

end Oath.Store
