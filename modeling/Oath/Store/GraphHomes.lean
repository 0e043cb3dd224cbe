import Oath.Store.GraphPlaces
import Oath.Store.Materialization

/-! The directories of the packages of a graph: each is a copy of the package in the store, and
nothing else is in the stage when all have been made. -/

namespace Oath.Store
open Contracts Registry Resolve Unix

/-- The package of a node is in the store. -/
structure Provided (env : LinkEnvironment) (node : DepNode) (fs : LinkedFiles) : Prop where
  apart : KeptApart env (env.graphSource node) fs
  there : fs.entryAt? (placeOf (env.graphSource node)) = some .directory

/-- The package of a node is in the store, without a dependency of the node in it. -/
structure InStore (env : LinkEnvironment) (node : DepNode) (fs : LinkedFiles) : Prop where
  apart : KeptApart env (env.graphSource node) fs
  there : fs.entryAt? (placeOf (env.graphSource node)) = some .directory
  bundles (dependency : String × String) : dependency ∈ node.dependencies.rows →
    fs.content? (placeOf (env.graphSource node) ++ modulePlace [] (nameParts dependency.1)) = none

section Store
variable {env : LinkEnvironment} {node : DepNode} {fs fs' : LinkedFiles}

theorem InStore.provided (h : InStore env node fs) : Provided env node fs := ⟨h.apart, h.there⟩

theorem Provided.kept (h : Provided env node fs) (hsame : Unchanged env fs fs') :
    Provided env node fs' where
  apart := h.apart.kept hsame
  there := by
    have hout := h.apart.apart []
    rw [List.append_nil] at hout
    rw [← content?_eq_directory, hsame _ hout, content?_eq_directory]
    exact h.there

theorem InStore.kept (h : InStore env node fs) (hsame : Unchanged env fs fs') :
    InStore env node fs' where
  apart := h.apart.kept hsame
  there := (h.provided.kept hsame).there
  bundles := by
    intro dependency hdependency
    rw [hsame _ (h.apart.apart _)]
    exact h.bundles dependency hdependency

end Store

def LinkEnvironment.storedAt (env : LinkEnvironment) (row : String × DepNode) : Location :=
  placeOf (env.graphSource row.2)

/-! ## Paths -/

section Paths
variable (env : LinkEnvironment)

theorem virtualModules_eq (key : String) : env.virtualModules key =
    .ofNames env.project (stageName :: modulePlace (virtualPlace key) []) := rfl

theorem joinText_eq {place : List Name} {name : String}
    (h : components (asBytes name) = (nameParts name).map .normal) :
    Path.joinText (.ofNames env.project (stageName :: place)) name =
      .ofNames env.project (stageName :: (place ++ nameParts name)) := by
  unfold Path.joinText Path.ofNames
  rw [h, ← List.map_append]
  rfl

theorem virtualDir_eq (key : String) {name : String}
    (h : components (asBytes name) = (nameParts name).map .normal) :
    env.virtualDir key name =
      .ofNames env.project (stageName :: modulePlace (virtualPlace key) (nameParts name)) := by
  unfold LinkEnvironment.virtualDir
  rw [virtualModules_eq, joinText_eq env h]
  rfl

end Paths

/-! ## One package after another -/

section Homes
variable {graph : DepGraph} {env : LinkEnvironment} {first : LinkedFiles} {k k' : Kernel}
  {done : List (String × DepNode)} {row : String × DepNode}

/-- The packages that have been copied, and nothing else in the stage. -/
structure Housing (env : LinkEnvironment) (first : LinkedFiles) (done : List (String × DepNode))
    (fs : LinkedFiles) : Prop where
  rooted : Rooted fs
  links : LinksAt env ∅ fs
  unchanged : Unchanged env first fs
  others (relative : List Name) : fs.entryAt? (env.staged relative) ≠ none →
    relative <+: [oathName] ∨ ∃ row ∈ done, relative <+: homeOf row ∨ homeOf row <+: relative
  held (row : String × DepNode) : row ∈ done → ∀ rest,
    fs.content? (env.staged (homeOf row ++ rest)) = first.content? (env.storedAt row ++ rest)

theorem homeOf_length (row : String × DepNode) : 3 ≤ (homeOf row).length := by
  unfold homeOf
  rw [beside_eq]
  simp only [List.length_cons]
  omega

/-- Packages of two keys have no place in common. -/
theorem Named.apart (hnamed : Named graph) {row row' : String × DepNode} {rest : List Name}
    (hrow : row ∈ graph.nodes.rows) (hrow' : row' ∈ graph.nodes.rows) (hne : row ≠ row')
    (h : homeOf row ++ rest <+: homeOf row' ∨ homeOf row' <+: homeOf row ++ rest) : False := by
  have hplace : homeOf row ++ rest =
      modulePlace (virtualPlace row.1) (pathOf row.2 ++ rest) := rfl
  rw [hplace] at h
  rcases h with habove | hbelow
  · exact hne (hnamed.same_row hrow hrow' habove).1
  · exact hne (hnamed.same_row hrow' hrow hbelow).1.symm

theorem Housing.absent (h : Housing env first done k.files) (hnamed : Named graph)
    (hrow : row ∈ graph.nodes.rows) (hdone : ∀ row ∈ done, row ∈ graph.nodes.rows)
    (hnew : row ∉ done) (rest : List Name) :
    k.files.entryAt? (env.staged (homeOf row ++ rest)) = none := by
  by_contra hthere
  rcases h.others _ hthere with hshort | ⟨row', hrow', hcommon⟩
  · have hle := hshort.length_le
    have hlength := homeOf_length row
    rw [List.length_append, List.length_singleton] at hle
    omega
  · have hne : row ≠ row' := fun heq => hnew (heq ▸ hrow')
    exact hnamed.apart hrow (hdone row' hrow') hne hcommon

theorem mem_treeLimits {names place : List Name} {dirs files : Set (List Name)}
    (h : env.staged place ∈ (treeLimits env names dirs files).all) :
    place <+: names ∨ names <+: place := by
  rcases h with ((hdirs | hfiles) | hlinks) | hremoved
  · rcases hdirs with ⟨init, hinit, heq⟩ | ⟨rest, -, heq⟩
    · exact Or.inl (staged_injective env heq ▸ hinit)
    · exact Or.inr ⟨rest, (staged_injective env heq).symm⟩
  · obtain ⟨rest, -, heq⟩ := hfiles
    exact Or.inr ⟨rest, (staged_injective env heq).symm⟩
  · exact hlinks.elim
  · exact Or.inr (staged_prefix_iff.mp hremoved)

theorem treeLimits_trees {names : List Name} {dirs files : Set (List Name)} :
    (treeLimits env names dirs files).all ⊆ env.trees := by
  rintro loc (((hdirs | hfiles) | hlinks) | hremoved)
  · rcases hdirs with ⟨init, -, rfl⟩ | ⟨rest, -, rfl⟩
    · exact staged_mem_trees env init
    · exact staged_mem_trees env _
  · obtain ⟨rest, -, rfl⟩ := hfiles
    exact staged_mem_trees env _
  · exact hlinks.elim
  · exact below_tree (by simp) names hremoved

/-- A package that is in the store is seen there. -/
theorem Provided.exists (hstored : Provided env row.2 first) (h : Housing env first done k.files) :
    k.files.pathExists (env.graphSource row.2) = true := by
  obtain ⟨names, hne, hnames⟩ :=
    packageDirFor_eq env.store row.2.name row.2.version (some row.2.resolved) row.2.integrity
  have hsource : env.graphSource row.2 = .ofNames env.store.root names := hnames
  have hplace : placeOf (env.graphSource row.2) = env.store.root ++ names := by
    rw [hsource, placeOf_ofNames]
  have hout : env.store.root ++ names ∉ env.trees := by
    have hapart := hstored.apart.apart []
    rwa [List.append_nil, hplace] at hapart
  have hdir : k.files.entryAt? (env.store.root ++ names) = some .directory := by
    rw [← content?_eq_directory, h.unchanged _ hout, content?_eq_directory, ← hplace]
    exact hstored.there
  rw [hsource]
  exact pathExists_open (open_of_directory h.rooted hdir) hne

theorem Housing.next (h : Housing env first done k.files) (hnamed : Named graph)
    (hrow : row ∈ graph.nodes.rows) (hdone : ∀ row ∈ done, row ∈ graph.nodes.rows)
    (hnew : row ∉ done) (hstored : Provided env row.2 first) {result result' : LinkResult}
    (hrun : linkVirtual env row result k = .ok result' k') :
    Housing env first (row :: done) k'.files := by
  obtain ⟨there, k₁, hread, h1⟩ := EStateM.bind_eq_ok.mp hrun
  obtain ⟨rfl, rfl⟩ := read_eq_ok.mp hread
  rw [if_pos (hstored.exists h)] at h1
  obtain ⟨_, k₂, hcopy, hpure⟩ := EStateM.bind_eq_ok.mp h1
  obtain ⟨-, rfl⟩ := EStateM.pure_eq_ok.mp hpure
  have hvalid := validateInstallName_ok (hnamed.valid row hrow)
  have hdest : env.virtualDir row.1 (installNameOf row.2) =
      env.inStage ((homeOf row).map .normal) := by
    rw [inStage_eq]
    exact virtualDir_eq env row.1 hvalid.1
  rw [hdest] at hcopy
  have hne : homeOf row ≠ [] := List.cons_ne_nil _ _
  have hready : Ready (fun _ => True) env (homeOf row) k₁.files :=
    ⟨h.rooted, trivial, h.links.way fun _ _ _ => Set.notMem_empty _⟩
  have hnone : k₁.files.entryAt? (env.staged (homeOf row)) = none := by
    have hgone := h.absent hnamed hrow hdone hnew []
    rwa [List.append_nil] at hgone
  have hmakes : Makes (Within (treeLimits env (homeOf row) Set.univ Set.univ))
      (copyTree env (env.graphSource row.2) (env.inStage ((homeOf row).map .normal))) k₁ :=
    makes_linkTree hne (fun _ _ _ _ => trivial)
      (fun _ _ _ _ _ _ _ => ⟨fun _ => trivial, fun _ => trivial⟩) hready hnone
  have hsame : Unchanged env k₁.files k'.files := Unchanged.of_ok hmakes hcopy treeLimits_trees
  refine ⟨rooted_kept hmakes hcopy h.rooted, ?_, h.unchanged.trans hsame, ?_, ?_⟩
  · apply hmakes.inv_ok hcopy (fun fs effect hbefore hwithin => ?_) h.links
    exact linksAt_of_within hbefore hwithin (fun _ hnone => hnone.elim) le_rfl
  · -- what is new is on the way to the package or in it
    have hothers : ∀ relative, k'.files.content? (env.staged relative) ≠ none →
        k₁.files.content? (env.staged relative) ≠ none ∨ relative <+: homeOf row ∨
          homeOf row <+: relative := by
      intro relative hthere
      by_cases hmem : env.staged relative ∈ (treeLimits env (homeOf row) Set.univ Set.univ).all
      · exact Or.inr (mem_treeLimits hmem)
      · rw [hmakes.content?_eq hcopy hmem] at hthere
        exact Or.inl hthere
    intro relative hthere
    rcases hothers relative (fun hnone => hthere (content?_eq_none.mp hnone)) with hold | hnew
    · rcases h.others relative (fun hnone => hold (content?_eq_none.mpr hnone)) with
        hshort | ⟨row', hrow', hcommon⟩
      · exact Or.inl hshort
      · exact Or.inr ⟨row', List.mem_cons_of_mem _ hrow', hcommon⟩
    · exact Or.inr ⟨row, List.mem_cons_self, hnew⟩
  · intro row' hrow' rest
    rcases List.mem_cons.mp hrow' with rfl | hbefore
    · have happart := hstored.apart.kept h.unchanged
      have hcopies :=
        linkTree_copies hne hready hnone happart (packageDirFor_eq _ _ _ _ _) hcopy rest
      rw [hcopies]
      exact h.unchanged _ (hstored.apart.apart rest)
    · rw [← h.held row' hbefore rest]
      apply hmakes.content?_eq hcopy
      intro hmem
      have hother : row' ≠ row := fun heq => hnew (heq ▸ hbefore)
      exact hnamed.apart (hdone row' hbefore) hrow hother (mem_treeLimits hmem)

end Homes

/-! ## Loops -/

theorem linkEach_inv {α : Type} {f : α → LinkResult → Link LinkResult}
    {J : List α → Kernel → Prop} {items : List α} {result result' : LinkResult} {k k' : Kernel}
    (hJ : J items k)
    (hstep : ∀ item rest result result' k k', J (item :: rest) k →
      f item result k = .ok result' k' → J rest k')
    (h : linkEach f items result k = .ok result' k') : J [] k' := by
  induction items generalizing result k with
  | nil =>
    obtain ⟨-, rfl⟩ := EStateM.pure_eq_ok.mp h
    exact hJ
  | cons item rest ih =>
    obtain ⟨next, k₁, hitem, hrest⟩ := EStateM.bind_eq_ok.mp h
    exact ih (hstep item rest result next k k₁ hJ hitem) hrest

theorem linkEach_files {α : Type} {P : α → Prop} {I : LinkedFiles → Prop}
    {f : α → LinkResult → Link LinkResult} {items : List α} {result result' : LinkResult}
    {k k' : Kernel} (hitems : ∀ item ∈ items, P item)
    (hstep : ∀ item result result' k k', P item → I k.files → f item result k = .ok result' k' →
      I k'.files)
    (hstart : I k.files) (h : linkEach f items result k = .ok result' k') : I k'.files := by
  have hend := linkEach_inv (J := fun remaining k => (∀ item ∈ remaining, P item) ∧ I k.files)
    ⟨hitems, hstart⟩ ?_ h
  · exact hend.2
  · intro item rest result result' k k' ⟨hall, hinv⟩ hrun
    refine ⟨fun other hother => hall other (List.mem_cons_of_mem _ hother), ?_⟩
    exact hstep item result result' k k' (hall item List.mem_cons_self) hinv hrun

section All
variable {graph : DepGraph} {env : LinkEnvironment} {first : LinkedFiles} {k k' : Kernel}
  {order : GraphOrder graph} {result result' : LinkResult}

theorem nodup_nodes (order : GraphOrder graph) : order.nodes.Nodup := by
  have hrows : graph.nodes.rows.Nodup :=
    List.Nodup.of_map Prod.fst (graph.nodes.sorted.imp fun hlt => ne_of_lt hlt)
  exact order.nodes_perm.nodup_iff.mpr hrows

theorem linkVirtuals_house (hnamed : Named graph)
    (hstored : ∀ row ∈ graph.nodes.rows, Provided env row.2 first)
    (hstart : Housing env first [] k.files)
    (h : linkEach (linkVirtual env) order.nodes result k = .ok result' k') :
    ∃ done, (∀ row, row ∈ done ↔ row ∈ graph.nodes.rows) ∧ Housing env first done k'.files := by
  have hmem : ∀ row, row ∈ order.nodes ↔ row ∈ graph.nodes.rows := fun _ =>
    order.nodes_perm.mem_iff
  have hdone := linkEach_inv (J := fun remaining k => remaining.Nodup ∧
    (∀ row ∈ remaining, row ∈ graph.nodes.rows) ∧ ∃ done,
      (∀ row, row ∈ graph.nodes.rows → row ∈ done ∨ row ∈ remaining) ∧
      (∀ row ∈ done, row ∈ graph.nodes.rows ∧ row ∉ remaining) ∧
        Housing env first done k.files) ?_ ?_ h
  · obtain ⟨-, -, done, hall, hrows, hhousing⟩ := hdone
    refine ⟨done, fun row => ⟨fun hrow => (hrows row hrow).1, fun hrow => ?_⟩, hhousing⟩
    rcases hall row hrow with hyes | hnone
    · exact hyes
    · exact absurd hnone List.not_mem_nil
  · exact ⟨nodup_nodes order, fun row hrow => (hmem row).mp hrow, [],
      fun row hrow => Or.inr ((hmem row).mpr hrow), fun row hnone => absurd hnone List.not_mem_nil,
      hstart⟩
  · intro row rest result result' k k' ⟨hnodup, hremaining, done, hall, hrows, hhousing⟩ hrun
    obtain ⟨hother, hrest⟩ := List.nodup_cons.mp hnodup
    have hrow := hremaining row List.mem_cons_self
    have hnew : row ∉ done := fun hyes => (hrows row hyes).2 List.mem_cons_self
    refine ⟨hrest, fun row' hmem => hremaining row' (List.mem_cons_of_mem _ hmem), row :: done,
      ?_, ?_, ?_⟩
    · intro row' hrow'
      rcases hall row' hrow' with hyes | hleft
      · exact Or.inl (List.mem_cons_of_mem _ hyes)
      · rcases List.mem_cons.mp hleft with rfl | hlater
        · exact Or.inl List.mem_cons_self
        · exact Or.inr hlater
    · intro row' hrow'
      rcases List.mem_cons.mp hrow' with rfl | hbefore
      · exact ⟨hrow, hother⟩
      · refine ⟨(hrows row' hbefore).1, fun hlater => ?_⟩
        exact (hrows row' hbefore).2 (List.mem_cons_of_mem _ hlater)
    · exact hhousing.next hnamed hrow (fun row' hbefore => (hrows row' hbefore).1) hnew
        (hstored row hrow) hrun

end All

end Oath.Store
