import Oath.Resolve.LegacyResolver

/-! Where the edges of the former resolver lead: to the version that was chosen for them, as long as
its node is there and nothing above it goes by its name. -/

namespace Oath.Resolve

variable {Version Range : Type} [LinearOrder Version] {r : Resolver Version Range}

/-! ## The run -/

section Run
variable (r)

/-- The visits of a level, each with the state before it. -/
def visitsOfLevel : List PendingDep → ResolveState → List (PendingDep × ResolveState)
  | [], _ => []
  | pending :: level, s => (pending, s) :: match visit r pending s with
    | .ok (s', _) => visitsOfLevel level s'
    | .error _ => []

def visitsOfLevels : ℕ → List PendingDep → ResolveState → List (PendingDep × ResolveState)
  | 0, _, _ => []
  | depths + 1, level, s => visitsOfLevel r level s ++ match visitLevel r level s with
    | .ok (s', next) => visitsOfLevels depths next s'
    | .error _ => []

def visitsOf (dependencies devDependencies : Rows String) : List (PendingDep × ResolveState) :=
  visitsOfLevels r (r.options.maxDepth + 2) (rootLevel r dependencies devDependencies) startState

/-- The visit puts a node for the package into the graph. -/
structure Places (visited : PendingDep × ResolveState) (package : Package) : Prop where
  depth : visited.1.depth ≤ r.options.maxDepth
  found : findPackage r visited.1 = .ok package
  fresh : packageKey visited.1 package ∉ visited.2.resolved
  kept : isSkipped r visited.1 package = false

/-- The node at the key is one of this package, under this name. -/
def Stands (nodes : OrderedMap String DepNode) (pending : PendingDep) (package : Package) : Prop :=
  ∃ node, nodes.find? (packageKey pending package) = some node ∧ node.name = package.name ∧
    node.version = package.version ∧ goesBy node pending.installName

/-- A dependency that the package cannot do without, from the registry. -/
def Needed (pending : PendingDep) : Prop :=
  pending.optional = false ∧ isGitSpec pending.specifier = false

/-- The dependency is not too deep, and its key does not stand for another package or for one that
was skipped. -/
structure MeetsPlace (visited : PendingDep × ResolveState) : Prop where
  depth : visited.1.depth ≤ r.options.maxDepth
  taken (package : Package) : findPackage r visited.1 = .ok package →
    packageKey visited.1 package ∈ visited.2.resolved →
      Stands visited.2.nodes visited.1 package

end Run

/-! ## One visit -/

section Visit
variable {pending : PendingDep} {s s' : ResolveState} {next : List PendingDep}

/-- What a visit that does not fail does. -/
inductive VisitStep (r : Resolver Version Range) (pending : PendingDep) (s : ResolveState) :
    ResolveState → List PendingDep → Prop
  | passed (hwhy : r.options.maxDepth < pending.depth ∨
      (pending.optional ∧ ∃ message, findPackage r pending = .error message) ∨
      ∃ package, findPackage r pending = .ok package ∧ packageKey pending package ∈ s.resolved) :
      VisitStep r pending s s []
  | inserted (package : Package) (hdepth : pending.depth ≤ r.options.maxDepth)
      (hfound : findPackage r pending = .ok package)
      (hfresh : packageKey pending package ∉ s.resolved) :
      VisitStep r pending s (insertNode r pending package s)
        (if isSkipped r pending package then [] else childrenOf r pending package)

theorem visit_ok (h : visit r pending s = .ok (s', next)) : VisitStep r pending s s' next := by
  unfold visit at h
  by_cases hdeep : r.options.maxDepth < pending.depth
  · rw [if_pos hdeep] at h
    obtain ⟨rfl, rfl⟩ := Prod.mk.inj (Except.ok.inj h)
    exact .passed (Or.inl hdeep)
  rw [if_neg hdeep] at h
  cases hfound : findPackage r pending with
  | error message =>
    rw [hfound] at h
    dsimp only at h
    split_ifs at h with hoptional
    obtain ⟨rfl, rfl⟩ := Prod.mk.inj (Except.ok.inj h)
    exact .passed (Or.inr (Or.inl ⟨hoptional, message, hfound⟩))
  | ok package =>
    rw [hfound] at h
    dsimp only at h
    have hstep (hfresh : packageKey pending package ∉ s.resolved) :=
      VisitStep.inserted (s := s) package (not_lt.mp hdeep) hfound hfresh
    split_ifs at h with htaken hskipped hunsaved
    · obtain ⟨rfl, rfl⟩ := Prod.mk.inj (Except.ok.inj h)
      exact .passed (Or.inr (Or.inr ⟨package, hfound, htaken⟩))
    · obtain ⟨rfl, rfl⟩ := Prod.mk.inj (Except.ok.inj h)
      have hinserted := hstep htaken
      rwa [if_pos hskipped] at hinserted
    · obtain ⟨rfl, rfl⟩ := Prod.mk.inj (Except.ok.inj h)
      have hinserted := hstep htaken
      rwa [if_neg hskipped] at hinserted

/-- Every node is known by its key. -/
def Keyed (s : ResolveState) : Prop :=
  ∀ key node, s.nodes.find? key = some node → key ∈ s.resolved

/-- Nodes stay, and there are no others without keys. -/
structure Extends (s s' : ResolveState) : Prop where
  keyed : Keyed s'
  stays (key : String) (node : DepNode) : s.nodes.find? key = some node →
    s'.nodes.find? key = some node

theorem Extends.refl (h : Keyed s) : Extends s s := ⟨h, fun _ _ hnode => hnode⟩

theorem Extends.trans {s'' : ResolveState} (h : Extends s s') (h' : Extends s' s'') :
    Extends s s'' := ⟨h'.keyed, fun key node hnode => h'.stays key node (h.stays key node hnode)⟩

omit [LinearOrder Version] in
theorem extends_insertNode (hkeyed : Keyed s) {package : Package}
    (hfresh : packageKey pending package ∉ s.resolved) :
    Extends s (insertNode r pending package s) := by
  unfold insertNode
  cases isSkipped r pending package with
  | true =>
    exact ⟨fun key node hnode => List.mem_cons_of_mem _ (hkeyed key node hnode), fun _ _ h => h⟩
  | false =>
    constructor
    · intro key node hnode
      dsimp only at hnode
      rw [if_neg Bool.false_ne_true, OrderedMap.find?_insert] at hnode
      split_ifs at hnode with hsame
      · exact hsame ▸ List.mem_cons_self
      · exact List.mem_cons_of_mem _ (hkeyed key node hnode)
    · intro key node hnode
      have hne : key ≠ packageKey pending package := fun heq => hfresh (heq ▸ hkeyed key node hnode)
      dsimp only
      rw [if_neg Bool.false_ne_true, OrderedMap.find?_insert, if_neg hne]
      exact hnode

theorem extends_visit (hkeyed : Keyed s) (h : visit r pending s = .ok (s', next)) :
    Extends s s' := by
  cases visit_ok h with
  | passed => exact .refl hkeyed
  | inserted package _ _ hfresh => exact extends_insertNode hkeyed hfresh

omit [LinearOrder Version] in
theorem find?_insertNode {package : Package} (hkept : isSkipped r pending package = false) :
    (insertNode r pending package s).nodes.find? (packageKey pending package) =
      some (visitedNode r pending package) := by
  unfold insertNode
  rw [hkept]
  dsimp only
  rw [if_neg Bool.false_ne_true, OrderedMap.find?_insert, if_pos rfl]

theorem findPackage_name (hgit : isGitSpec pending.specifier = false) {package : Package}
    (h : findPackage r pending = .ok package) : package.name = pending.name := by
  unfold findPackage at h
  rw [hgit, if_neg Bool.false_ne_true] at h
  split at h
  · cases h
  · split at h
    · cases h
    · rw [← Except.ok.inj h]
      rfl

/-- After the visit of a needed dependency its package stands in the graph. -/
theorem stands_visit (hneeded : Needed pending) (hmeets : MeetsPlace r (pending, s))
    (h : visit r pending s = .ok (s', next)) :
    ∃ package, findPackage r pending = .ok package ∧ Stands s'.nodes pending package := by
  obtain ⟨hrequired, hgit⟩ := hneeded
  cases visit_ok h with
  | passed hwhy =>
    rcases hwhy with hdeep | ⟨hoptional, -⟩ | ⟨package, hfound, htaken⟩
    · exact absurd hmeets.depth (not_le.mpr hdeep)
    · exact absurd (hrequired.symm.trans hoptional) Bool.false_ne_true
    · exact ⟨package, hfound, hmeets.taken package hfound htaken⟩
  | inserted package _ hfound _ =>
    have hkept : isSkipped r pending package = false := by
      unfold isSkipped
      rw [hrequired, Bool.false_and, Bool.false_and]
    refine ⟨package, hfound, _, find?_insertNode hkept, rfl, rfl, ?_⟩
    unfold goesBy PendingDep.installName visitedNode
    cases halias : pending.aliasName with
    | some name => simp
    | none => simp [findPackage_name hgit hfound]

/-- A visit that places a node adds all children of its package. -/
theorem Places.visit_ok {visited : PendingDep × ResolveState} {package : Package}
    (hplaces : Places r visited package) (h : visit r visited.1 visited.2 = .ok (s', next)) :
    s'.nodes.find? (packageKey visited.1 package) = some (visitedNode r visited.1 package) ∧
      next = childrenOf r visited.1 package := by
  obtain ⟨hdepth, hfound, hfresh, hkept⟩ := hplaces
  cases Resolve.visit_ok h with
  | passed hwhy =>
    rcases hwhy with hdeep | ⟨-, message, herror⟩ | ⟨other, hother, htaken⟩
    · exact absurd hdepth (not_le.mpr hdeep)
    · cases hfound.symm.trans herror
    · cases hfound.symm.trans hother
      exact absurd htaken hfresh
  | inserted other _ hother _ =>
    cases hfound.symm.trans hother
    refine ⟨find?_insertNode hkept, ?_⟩
    rw [hkept]
    rfl

theorem exists_places_visit (h : visit r pending s = .ok (s', next)) {key : String}
    {node : DepNode} (hnode : s'.nodes.find? key = some node) :
    s.nodes.find? key = some node ∨ ∃ package, Places r (pending, s) package ∧
      key = packageKey pending package ∧ node = visitedNode r pending package := by
  cases visit_ok h with
  | passed => exact Or.inl hnode
  | inserted package hdepth hfound hfresh =>
    unfold insertNode at hnode
    cases hskipped : isSkipped r pending package with
    | true =>
      rw [hskipped] at hnode
      exact Or.inl hnode
    | false =>
      rw [hskipped] at hnode
      dsimp only at hnode
      rw [if_neg Bool.false_ne_true, OrderedMap.find?_insert] at hnode
      split_ifs at hnode with hkey
      · exact Or.inr ⟨package, ⟨hdepth, hfound, hfresh, hskipped⟩, hkey,
          (Option.some.inj hnode).symm⟩
      · exact Or.inl hnode

end Visit

/-! ## Levels -/

section Levels
variable {pending : PendingDep} {level next : List PendingDep} {s s' : ResolveState}

theorem visitLevel_cons (h : visitLevel r (pending :: level) s = .ok (s', next)) :
    ∃ middle children later, visit r pending s = .ok (middle, children) ∧
      visitLevel r level middle = .ok (s', later) ∧ next = children ++ later := by
  obtain ⟨⟨middle, children⟩, hvisit, h⟩ := Except.bind_eq_ok.mp h
  obtain ⟨⟨final, later⟩, hlevel, h⟩ := Except.bind_eq_ok.mp h
  obtain ⟨rfl, rfl⟩ := Prod.mk.inj (Except.ok.inj h)
  exact ⟨middle, children, later, hvisit, hlevel, rfl⟩

theorem extends_visitLevel (hkeyed : Keyed s) (h : visitLevel r level s = .ok (s', next)) :
    Extends s s' := by
  induction level generalizing s next with
  | nil =>
    obtain ⟨rfl, rfl⟩ := Prod.mk.inj (Except.ok.inj h)
    exact .refl hkeyed
  | cons pending level ih =>
    obtain ⟨middle, children, later, hvisit, hlevel, rfl⟩ := visitLevel_cons h
    have hmiddle := extends_visit hkeyed hvisit
    exact hmiddle.trans (ih hmiddle.keyed hlevel)

/-- What a visit of a level that did not fail has left. -/
theorem visited_of_mem (hkeyed : Keyed s) (h : visitLevel r level s = .ok (s', next))
    {visited : PendingDep × ResolveState} (hmem : visited ∈ visitsOfLevel r level s) :
    ∃ after children, visit r visited.1 visited.2 = .ok (after, children) ∧ Keyed visited.2 ∧
      Extends after s' ∧ children ⊆ next := by
  induction level generalizing s next with
  | nil => cases hmem
  | cons pending level ih =>
    obtain ⟨middle, children, later, hvisit, hlevel, rfl⟩ := visitLevel_cons h
    have hmiddle := extends_visit hkeyed hvisit
    unfold visitsOfLevel at hmem
    rw [hvisit] at hmem
    rcases List.mem_cons.mp hmem with rfl | hmem
    · exact ⟨middle, children, hvisit, hkeyed, extends_visitLevel hmiddle.keyed hlevel,
        List.subset_append_left _ _⟩
    · obtain ⟨after, added, hafter, hbefore, hextends, hsubset⟩ := ih hmiddle.keyed hlevel hmem
      exact ⟨after, added, hafter, hbefore, hextends,
        List.Subset.trans hsubset (List.subset_append_right _ _)⟩

theorem mem_level {visited : PendingDep × ResolveState}
    (hmem : visited ∈ visitsOfLevel r level s) : visited.1 ∈ level := by
  induction level generalizing s with
  | nil => cases hmem
  | cons pending level ih =>
    rcases List.mem_cons.mp hmem with rfl | hmem
    · exact List.mem_cons_self
    · cases hvisit : visit r pending s with
      | error => simp [hvisit] at hmem
      | ok after =>
        rw [hvisit] at hmem
        exact List.mem_cons_of_mem _ (ih hmem)

/-- No dependency of a level is left out. -/
theorem exists_visit (h : visitLevel r level s = .ok (s', next)) (hmem : pending ∈ level) :
    ∃ before, (pending, before) ∈ visitsOfLevel r level s := by
  induction level generalizing s next with
  | nil => cases hmem
  | cons first level ih =>
    obtain ⟨middle, children, later, hvisit, hlevel, rfl⟩ := visitLevel_cons h
    unfold visitsOfLevel
    rw [hvisit]
    rcases List.mem_cons.mp hmem with rfl | hmem
    · exact ⟨s, List.mem_cons_self⟩
    · obtain ⟨before, hbefore⟩ := ih hlevel hmem
      exact ⟨before, List.mem_cons_of_mem _ hbefore⟩

/-- A level of the next one comes from a visit of this one. -/
theorem exists_parent (h : visitLevel r level s = .ok (s', next)) (hmem : pending ∈ next) :
    ∃ parent ∈ level, ∃ before after children, visit r parent before = .ok (after, children) ∧
      pending ∈ children := by
  induction level generalizing s next with
  | nil =>
    obtain ⟨rfl, rfl⟩ := Prod.mk.inj (Except.ok.inj h)
    cases hmem
  | cons first level ih =>
    obtain ⟨middle, children, later, hvisit, hlevel, rfl⟩ := visitLevel_cons h
    rcases List.mem_append.mp hmem with hmem | hmem
    · exact ⟨first, List.mem_cons_self, s, middle, children, hvisit, hmem⟩
    · obtain ⟨parent, hparent, hrest⟩ := ih hlevel hmem
      exact ⟨parent, List.mem_cons_of_mem _ hparent, hrest⟩

end Levels

section Levels
variable {n : ℕ} {level next : List PendingDep} {s s' final : ResolveState}

/-- The depth of a level goes with the rounds that are left. -/
def Levelled (r : Resolver Version Range) (n : ℕ) (level : List PendingDep) : Prop :=
  ∀ pending ∈ level, pending.depth ≤ r.options.maxDepth + 1 ∧
    pending.depth + n = r.options.maxDepth + 2

theorem pendingOf_depth (name spec : String) (depth : ℕ) (dev optional : Bool) :
    (pendingOf name spec depth dev optional).depth = depth := by
  unfold pendingOf
  split <;> rfl

theorem pendingOf_dev (name spec : String) (depth : ℕ) (dev optional : Bool) :
    (pendingOf name spec depth dev optional).dev = dev := by
  unfold pendingOf
  split <;> rfl

omit [LinearOrder Version] in
theorem mem_childrenOf_depth {pending child : PendingDep} {package : Package}
    (h : child ∈ childrenOf r pending package) : child.depth = pending.depth + 1 := by
  rcases List.mem_append.mp h with hmem | hmem
  · obtain ⟨row, -, rfl⟩ := List.mem_map.mp hmem
    exact pendingOf_depth ..
  · split_ifs at hmem
    · obtain ⟨row, -, rfl⟩ := List.mem_map.mp hmem
      exact pendingOf_depth ..
    · cases hmem

theorem levelled_next (hlevel : Levelled r (n + 1) level)
    (h : visitLevel r level s = .ok (s', next)) : Levelled r n next := by
  intro pending hmem
  obtain ⟨parent, hparent, before, after, children, hvisit, hchild⟩ := exists_parent h hmem
  obtain ⟨-, hrounds⟩ := hlevel parent hparent
  cases visit_ok hvisit with
  | passed => cases hchild
  | inserted package hdepth _ _ =>
    split_ifs at hchild with hskipped
    · cases hchild
    · have hdeeper := mem_childrenOf_depth hchild
      omega

omit [LinearOrder Version] in
theorem levelled_rootLevel (dependencies devDependencies : Rows String) :
    Levelled r (r.options.maxDepth + 2) (rootLevel r dependencies devDependencies) := by
  intro pending hmem
  have hroot : pending.depth = 0 := by
    rcases List.mem_append.mp hmem with hmem | hmem
    · obtain ⟨row, -, rfl⟩ := List.mem_map.mp hmem
      exact pendingOf_depth ..
    · split_ifs at hmem
      · obtain ⟨row, -, rfl⟩ := List.mem_map.mp hmem
        exact pendingOf_depth ..
      · cases hmem
  omega

/-- Further rounds would find no dependency any more. -/
theorem visitLevels_enough (hlevel : Levelled r n level) (more : ℕ) :
    visitLevels r (n + more) level s = visitLevels r n level s := by
  induction n generalizing level s with
  | zero =>
    have hnone : level = [] := by
      refine List.eq_nil_iff_forall_not_mem.mpr fun pending hmem => ?_
      have hdepth := hlevel pending hmem
      omega
    subst hnone
    cases more <;> rfl
  | succ n ih =>
    rw [Nat.succ_add]
    unfold visitLevels
    split_ifs with hempty
    · rfl
    cases hvisit : visitLevel r level s with
    | error => rfl
    | ok after =>
      obtain ⟨s', next⟩ := after
      exact ih (levelled_next hlevel hvisit)

/-- The resolver goes on until a level is empty. -/
theorem visitAll_enough (dependencies devDependencies : Rows String) (more : ℕ) :
    visitLevels r (r.options.maxDepth + 2 + more) (rootLevel r dependencies devDependencies)
      startState = visitAll r dependencies devDependencies :=
  visitLevels_enough (levelled_rootLevel dependencies devDependencies) more

theorem visitsOfLevels_nil : visitsOfLevels r n [] s = [] := by
  induction n with
  | zero => rfl
  | succ n ih => exact ih

theorem visitLevels_succ (h : visitLevels r (n + 1) level s = .ok final) :
    ∃ middle next, visitLevel r level s = .ok (middle, next) ∧
      visitLevels r n next middle = .ok final ∧
      visitsOfLevels r (n + 1) level s =
        visitsOfLevel r level s ++ visitsOfLevels r n next middle := by
  unfold visitLevels at h
  split_ifs at h with hempty
  · rw [List.isEmpty_iff.mp hempty]
    refine ⟨s, [], rfl, ?_, rfl⟩
    cases n <;> exact h
  · obtain ⟨⟨middle, next⟩, hlevel, hrest⟩ := Except.bind_eq_ok.mp h
    refine ⟨middle, next, hlevel, hrest, ?_⟩
    conv_lhs => unfold visitsOfLevels
    rw [hlevel]

theorem extends_visitLevels (hkeyed : Keyed s) (h : visitLevels r n level s = .ok final) :
    Extends s final := by
  induction n generalizing level s with
  | zero => exact Except.ok.inj h ▸ .refl hkeyed
  | succ n ih =>
    obtain ⟨middle, next, hlevel, hrest, -⟩ := visitLevels_succ h
    have hmiddle := extends_visitLevel hkeyed hlevel
    exact hmiddle.trans (ih hmiddle.keyed hrest)

omit [LinearOrder Version] in
theorem Stands.mono {pending : PendingDep} {package : Package}
    (h : Stands s.nodes pending package) (hextends : Extends s s') :
    Stands s'.nodes pending package := by
  obtain ⟨node, hnode, hsame⟩ := h
  exact ⟨node, hextends.stays _ _ hnode, hsame⟩

/-- The needed dependencies of a level stand in the graph at the end. -/
theorem stands_of_level (hkeyed : Keyed s) (h : visitLevels r (n + 1) level s = .ok final)
    (hmeets : ∀ visited ∈ visitsOfLevels r (n + 1) level s, Needed visited.1 →
      MeetsPlace r visited) {pending : PendingDep} (hmem : pending ∈ level)
    (hneeded : Needed pending) :
    ∃ package, findPackage r pending = .ok package ∧ Stands final.nodes pending package := by
  obtain ⟨middle, next, hlevel, hrest, hvisits⟩ := visitLevels_succ h
  obtain ⟨before, hvisited⟩ := exists_visit hlevel hmem
  obtain ⟨after, children, hvisit, -, hextends, -⟩ := visited_of_mem hkeyed hlevel hvisited
  have hplace : MeetsPlace r (pending, before) :=
    hmeets _ (hvisits ▸ List.mem_append_left _ hvisited) hneeded
  obtain ⟨package, hfound, hstands⟩ := stands_visit hneeded hplace hvisit
  have hmiddle := (extends_visitLevel hkeyed hlevel).keyed
  exact ⟨package, hfound, hstands.mono (hextends.trans (extends_visitLevels hmiddle hrest))⟩

/-- The children of a node of the graph are visited, one level deeper. -/
theorem stands_of_visit (hkeyed : Keyed s) (hlevelled : Levelled r n level)
    (h : visitLevels r n level s = .ok final)
    (hmeets : ∀ visited ∈ visitsOfLevels r n level s, Needed visited.1 → MeetsPlace r visited)
    {visited : PendingDep × ResolveState} (hmem : visited ∈ visitsOfLevels r n level s)
    {package : Package} (hplaces : Places r visited package) :
    final.nodes.find? (packageKey visited.1 package) = some (visitedNode r visited.1 package) ∧
      ∀ child ∈ childrenOf r visited.1 package, Needed child →
        ∃ found, findPackage r child = .ok found ∧ Stands final.nodes child found := by
  induction n generalizing level s with
  | zero => cases hmem
  | succ n ih =>
    obtain ⟨middle, next, hlevel, hrest, hvisits⟩ := visitLevels_succ h
    have hmiddle := (extends_visitLevel hkeyed hlevel).keyed
    have hmeets' : ∀ visited ∈ visitsOfLevels r n next middle, Needed visited.1 →
        MeetsPlace r visited := fun visited hvisited =>
      hmeets visited (hvisits ▸ List.mem_append_right _ hvisited)
    rw [hvisits] at hmem
    rcases List.mem_append.mp hmem with hmem | hmem
    · obtain ⟨after, children, hvisit, -, hextends, hsubset⟩ := visited_of_mem hkeyed hlevel hmem
      obtain ⟨hnode, rfl⟩ := hplaces.visit_ok hvisit
      have hfinal := hextends.trans (extends_visitLevels hmiddle hrest)
      refine ⟨hfinal.stays _ _ hnode, fun child hchild hneeded => ?_⟩
      -- A visit that places a node is not on the last level.
      obtain ⟨-, hrounds⟩ := hlevelled visited.1 (mem_level hmem)
      have hdepth := hplaces.depth
      cases n with
      | zero => omega
      | succ n => exact stands_of_level hmiddle hrest hmeets' (hsubset hchild) hneeded
    · exact ih hmiddle (levelled_next hlevelled hlevel) hrest hmeets' hmem

theorem exists_places_level (h : visitLevel r level s = .ok (s', next)) {key : String}
    {node : DepNode} (hnode : s'.nodes.find? key = some node) :
    s.nodes.find? key = some node ∨ ∃ visited ∈ visitsOfLevel r level s, ∃ package,
      Places r visited package ∧ key = packageKey visited.1 package ∧
        node = visitedNode r visited.1 package := by
  induction level generalizing s next with
  | nil =>
    obtain ⟨rfl, rfl⟩ := Prod.mk.inj (Except.ok.inj h)
    exact Or.inl hnode
  | cons pending level ih =>
    obtain ⟨middle, children, later, hvisit, hlevel, rfl⟩ := visitLevel_cons h
    unfold visitsOfLevel
    rw [hvisit]
    rcases ih hlevel with hmiddle | ⟨visited, hmem, hplaced⟩
    · rcases exists_places_visit hvisit hmiddle with hbefore | ⟨package, hplaced⟩
      · exact Or.inl hbefore
      · exact Or.inr ⟨(pending, s), List.mem_cons_self, package, hplaced⟩
    · exact Or.inr ⟨visited, List.mem_cons_of_mem _ hmem, hplaced⟩

/-- Every node of the graph is one that a visit placed. -/
theorem exists_places (h : visitLevels r n level s = .ok final) {key : String} {node : DepNode}
    (hnode : final.nodes.find? key = some node) :
    s.nodes.find? key = some node ∨ ∃ visited ∈ visitsOfLevels r n level s, ∃ package,
      Places r visited package ∧ key = packageKey visited.1 package ∧
        node = visitedNode r visited.1 package := by
  induction n generalizing level s with
  | zero =>
    obtain rfl := Except.ok.inj h
    exact Or.inl hnode
  | succ n ih =>
    obtain ⟨middle, next, hlevel, hrest, hvisits⟩ := visitLevels_succ h
    rw [hvisits]
    rcases ih hrest with hmiddle | ⟨visited, hmem, hplaced⟩
    · rcases exists_places_level hlevel hmiddle with hbefore | ⟨visited, hmem, hplaced⟩
      · exact Or.inl hbefore
      · exact Or.inr ⟨visited, List.mem_append_left _ hmem, hplaced⟩
    · exact Or.inr ⟨visited, List.mem_append_right _ hmem, hplaced⟩

end Levels

end Oath.Resolve
