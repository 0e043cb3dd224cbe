import Oath.Resolve.ResolverLevels

/-! The flags for development of the former resolver. A node has that of the visit that placed it,
and where every visit for production finds its key new or held for production, the nodes that are
for development are those that only the development dependencies lead to. -/

namespace Oath.Resolve

variable {Version Range : Type} [LinearOrder Version] {r : Resolver Version Range}

/-! ## What the dependencies lead to -/

section Reach
variable (r)

/-- What the dependencies lead to, however deep that is. -/
inductive Reached (roots : List PendingDep) : PendingDep → Package → Prop
  | root {pending : PendingDep} {package : Package} (hmem : pending ∈ roots)
      (hfound : findPackage r pending = .ok package)
      (hkept : isSkipped r pending package = false) : Reached roots pending package
  | child {pending child : PendingDep} {package found : Package}
      (hreached : Reached roots pending package) (hmem : child ∈ childrenOf r pending package)
      (hfound : findPackage r child = .ok found) (hkept : isSkipped r child found = false) :
      Reached roots child found

def ReachesKey (roots : List PendingDep) (key : String) : Prop :=
  ∃ pending package, Reached r roots pending package ∧ packageKey pending package = key

/-- A dependency that the roots ask for, whether or not something is found for it. -/
def Due (roots : List PendingDep) (pending : PendingDep) : Prop :=
  pending ∈ roots ∨ ∃ parent package, Reached r roots parent package ∧
    pending ∈ childrenOf r parent package

/-- A visit for production is not too deep, and its key is new or that of a node for production. -/
structure ProductionVisit (visited : PendingDep × ResolveState) : Prop where
  depth : visited.1.depth ≤ r.options.maxDepth
  taken (package : Package) : findPackage r visited.1 = .ok package →
    isSkipped r visited.1 package = false → packageKey visited.1 package ∈ visited.2.resolved →
      ∃ node, visited.2.nodes.find? (packageKey visited.1 package) = some node ∧ node.dev = false

/-- The visits for production come first where it matters, and no key stands for two packages. -/
structure ProductionFirst (dependencies devDependencies : Rows String) : Prop where
  visits : ∀ visited ∈ visitsOf r dependencies devDependencies, visited.1.dev = false →
    ProductionVisit r visited
  packages : ∀ visited ∈ visitsOf r dependencies devDependencies,
    ∀ other ∈ visitsOf r dependencies devDependencies, visited.1.dev = false →
      other.1.dev = false → ∀ package package', findPackage r visited.1 = .ok package →
        findPackage r other.1 = .ok package' →
          packageKey visited.1 package = packageKey other.1 package' → package' = package

end Reach

/-! ## Nothing else is visited -/

section Sound
variable {n : ℕ} {dev : Bool} {level next roots : List PendingDep} {s s' : ResolveState}
  {pending : PendingDep} {package : Package} {dependencies devDependencies : Rows String}

theorem Due.reached (h : Due r roots pending) (hfound : findPackage r pending = .ok package)
    (hkept : isSkipped r pending package = false) : Reached r roots pending package := by
  rcases h with hroot | ⟨parent, found, hreached, hchild⟩
  · exact .root hroot hfound hkept
  · exact .child hreached hchild hfound hkept

/-- The roots of the dependencies with this flag. -/
def rootsFor (r : Resolver Version Range) (dependencies devDependencies : Rows String)
    (dev : Bool) : List PendingDep :=
  if dev then developmentRoots r devDependencies else productionRoots dependencies

theorem due_rootLevel (hmem : pending ∈ rootLevel r dependencies devDependencies) :
    Due r (rootsFor r dependencies devDependencies pending.dev) pending := by
  rw [rootLevel_eq] at hmem
  rcases List.mem_append.mp hmem with hproduction | hdevelopment
  · rw [(mem_productionRoots hproduction).2]
    exact Or.inl hproduction
  · rw [(mem_developmentRoots hdevelopment).2]
    exact Or.inl hdevelopment

theorem due_next {rootsOf : Bool → List PendingDep}
    (hdue : ∀ pending ∈ level, Due r (rootsOf pending.dev) pending)
    (h : visitLevel r level s = .ok (s', next)) :
    ∀ child ∈ next, Due r (rootsOf child.dev) child := by
  intro child hmem
  obtain ⟨parent, hparent, before, after, children, hvisit, hchild⟩ := exists_parent h hmem
  cases visit_ok hvisit with
  | passed => cases hchild
  | inserted package hdepth hfound hfresh =>
    split_ifs at hchild with hskipped
    · cases hchild
    · have hkept : isSkipped r parent package = false := by simpa using hskipped
      rw [mem_childrenOf_dev hchild]
      exact Or.inr ⟨parent, package, (hdue parent hparent).reached hfound hkept, hchild⟩

/-- What a run places is led to by the dependencies that have its flag. -/
theorem reached_of_visits {rootsOf : Bool → List PendingDep}
    (hdue : ∀ pending ∈ level, Due r (rootsOf pending.dev) pending)
    {visited : PendingDep × ResolveState} (hmem : visited ∈ visitsOfLevels r n level s)
    (hplaces : Places r visited package) :
    Reached r (rootsOf visited.1.dev) visited.1 package := by
  induction n generalizing level s with
  | zero => cases hmem
  | succ n ih =>
    unfold visitsOfLevels at hmem
    rcases List.mem_append.mp hmem with hhere | hdeeper
    · exact (hdue _ (mem_level hhere)).reached hplaces.found hplaces.kept
    · cases hlevel : visitLevel r level s with
      | error message =>
        rw [hlevel] at hdeeper
        cases hdeeper
      | ok out =>
        rw [hlevel] at hdeeper
        exact ih (due_next hdue hlevel) hdeeper

theorem reached_of_places {visited : PendingDep × ResolveState}
    (hmem : visited ∈ visitsOf r dependencies devDependencies)
    (hplaces : Places r visited package) :
    Reached r (rootsFor r dependencies devDependencies visited.1.dev) visited.1 package :=
  reached_of_visits (fun _ => due_rootLevel) hmem hplaces

end Sound

/-! ## Nothing is left out -/

section Complete
variable {n : ℕ} {level : List PendingDep} {s final : ResolveState}
  {pending child other : PendingDep} {package : Package} {visited : PendingDep × ResolveState}
  {dependencies devDependencies : Rows String}

theorem extends_of_visits (hkeyed : Keyed s) (h : visitLevels r n level s = .ok final)
    (hmem : visited ∈ visitsOfLevels r n level s) :
    Extends visited.2 final ∧ ∃ after children,
      visit r visited.1 visited.2 = .ok (after, children) ∧ Extends after final := by
  induction n generalizing level s with
  | zero => cases hmem
  | succ n ih =>
    obtain ⟨middle, next, hlevel, hrest, hvisits⟩ := visitLevels_succ h
    have hmiddle := (extends_visitLevel hkeyed hlevel).keyed
    rw [hvisits] at hmem
    rcases List.mem_append.mp hmem with hhere | hdeeper
    · obtain ⟨after, children, hvisit, hbefore, hextends, -⟩ := visited_of_mem hkeyed hlevel hhere
      have hafter := hextends.trans (extends_visitLevels hmiddle hrest)
      exact ⟨(extends_visit hbefore hvisit).trans hafter, after, children, hvisit, hafter⟩
    · exact ih hmiddle hrest hdeeper

/-- The children of a package that was placed are visited. -/
theorem exists_visit_child (hkeyed : Keyed s) (hlevelled : Levelled r n level)
    (h : visitLevels r n level s = .ok final) (hmem : visited ∈ visitsOfLevels r n level s)
    (hplaces : Places r visited package) (hchild : child ∈ childrenOf r visited.1 package) :
    ∃ before, (child, before) ∈ visitsOfLevels r n level s := by
  induction n generalizing level s with
  | zero => cases hmem
  | succ n ih =>
    obtain ⟨middle, next, hlevel, hrest, hvisits⟩ := visitLevels_succ h
    have hmiddle := (extends_visitLevel hkeyed hlevel).keyed
    rw [hvisits] at hmem ⊢
    rcases List.mem_append.mp hmem with hhere | hdeeper
    · obtain ⟨after, children, hvisit, -, -, hsubset⟩ := visited_of_mem hkeyed hlevel hhere
      obtain ⟨-, rfl⟩ := hplaces.visit_ok hvisit
      -- A visit that places a node is not on the last level.
      obtain ⟨-, hrounds⟩ := hlevelled visited.1 (mem_level hhere)
      have hdepth := hplaces.depth
      cases n with
      | zero => omega
      | succ n =>
        obtain ⟨later, following, hnext, -, hlater⟩ := visitLevels_succ hrest
        obtain ⟨before, hvisited⟩ := exists_visit hnext (hsubset hchild)
        rw [hlater]
        exact ⟨before, List.mem_append_right _ (List.mem_append_left _ hvisited)⟩
    · obtain ⟨before, hvisited⟩ := ih hmiddle (levelled_next hlevelled hlevel) hrest hdeeper
      exact ⟨before, List.mem_append_right _ hvisited⟩

def PendingDep.atDepth (pending : PendingDep) (depth : ℕ) : PendingDep := { pending with depth }

theorem pendingOf_atDepth (name spec : String) (depth depth' : ℕ) (dev optional : Bool) :
    pendingOf name spec depth dev optional =
      (pendingOf name spec depth' dev optional).atDepth depth := by
  unfold pendingOf
  split <;> rfl

omit [LinearOrder Version] in
/-- How deep a dependency is makes no difference for what its package asks for. -/
theorem childrenOf_atDepth (hdev : other.dev = pending.dev)
    (h : child ∈ childrenOf r pending package) :
    child.atDepth (other.depth + 1) ∈ childrenOf r other package := by
  unfold childrenOf at h ⊢
  rcases List.mem_append.mp h with hmem | hmem
  · obtain ⟨row, hrow, rfl⟩ := List.mem_map.mp hmem
    refine List.mem_append_left _ (List.mem_map.mpr ⟨row, hrow, ?_⟩)
    rw [hdev]
    exact pendingOf_atDepth ..
  · refine List.mem_append_right _ ?_
    split_ifs at hmem ⊢
    · obtain ⟨row, hrow, rfl⟩ := List.mem_map.mp hmem
      refine List.mem_map.mpr ⟨row, hrow, ?_⟩
      rw [hdev]
      exact pendingOf_atDepth ..
    · cases hmem

theorem reached_dev {roots : List PendingDep} {dev : Bool} (hroots : ∀ root ∈ roots, root.dev = dev)
    (h : Reached r roots pending package) : pending.dev = dev := by
  induction h with
  | root hmem _ _ => exact hroots _ hmem
  | child _ hmem _ _ ih => rw [mem_childrenOf_dev hmem, ih]

theorem Reached.found {roots : List PendingDep} (h : Reached r roots pending package) :
    findPackage r pending = .ok package ∧ isSkipped r pending package = false := by
  cases h with
  | root _ hfound hkept => exact ⟨hfound, hkept⟩
  | child _ _ hfound hkept => exact ⟨hfound, hkept⟩

/-- What a visit for production finds is placed for production. -/
theorem exists_production (h : visitAll r dependencies devDependencies = .ok final)
    (hfirst : ProductionFirst r dependencies devDependencies)
    (hmem : visited ∈ visitsOf r dependencies devDependencies) (hdev : visited.1.dev = false)
    (hfound : findPackage r visited.1 = .ok package)
    (hkept : isSkipped r visited.1 package = false) :
    ∃ placed ∈ visitsOf r dependencies devDependencies, Places r placed package ∧
      placed.1.dev = false ∧ packageKey placed.1 package = packageKey visited.1 package := by
  obtain ⟨hdepth, htaken⟩ := hfirst.visits visited hmem hdev
  by_cases hfresh : packageKey visited.1 package ∈ visited.2.resolved
  · obtain ⟨node, hnode, hnodeDev⟩ := htaken package hfound hkept hfresh
    obtain ⟨hextends, -⟩ := extends_of_visits keyed_startState h hmem
    obtain ⟨placed, hplaced, package', hplaces, hkey, rfl⟩ :=
      places_of_node h (hextends.stays _ _ hnode)
    obtain rfl := hfirst.packages visited hmem placed hplaced hdev hnodeDev package package' hfound
      hplaces.found hkey
    exact ⟨placed, hplaced, hplaces, hnodeDev, hkey.symm⟩
  · exact ⟨visited, hmem, ⟨hdepth, hfound, hfresh, hkept⟩, hdev, rfl⟩

theorem visit_of_reached (h : visitAll r dependencies devDependencies = .ok final)
    (hfirst : ProductionFirst r dependencies devDependencies)
    (hreached : Reached r (productionRoots dependencies) pending package) :
    ∃ visited ∈ visitsOf r dependencies devDependencies,
      visited.1 = pending.atDepth visited.1.depth := by
  induction hreached with
  | root hmem hfound hkept =>
    obtain ⟨middle, next, hlevel, -, hvisits⟩ := visitLevels_succ h
    have hroot := List.mem_append_left (developmentRoots r devDependencies) hmem
    obtain ⟨before, hvisited⟩ := exists_visit hlevel hroot
    exact ⟨_, hvisits ▸ List.mem_append_left _ hvisited, rfl⟩
  | child hparent hmem _ _ ih =>
    obtain ⟨visited, hvisited, hsame⟩ := ih
    obtain ⟨hfound, hkept⟩ := hparent.found
    have hdev := reached_dev (fun _ hroot => (mem_productionRoots hroot).2) hparent
    obtain ⟨placed, hplaced, hplaces, hplacedDev, -⟩ := exists_production h hfirst hvisited
      (by rw [hsame]; exact hdev) (by rw [hsame]; exact hfound) (by rw [hsame]; exact hkept)
    have hchild := childrenOf_atDepth (hplacedDev.trans hdev.symm) hmem
    obtain ⟨before, hbefore⟩ := exists_visit_child keyed_startState
      (levelled_rootLevel dependencies devDependencies) h hplaced hplaces hchild
    exact ⟨_, hbefore, rfl⟩

/-- What the dependencies for production lead to has a node for production. -/
theorem production_of_reached (h : visitAll r dependencies devDependencies = .ok final)
    (hfirst : ProductionFirst r dependencies devDependencies)
    (hreached : Reached r (productionRoots dependencies) pending package) :
    ∃ node, final.nodes.find? (packageKey pending package) = some node ∧ node.dev = false := by
  obtain ⟨visited, hvisited, hsame⟩ := visit_of_reached h hfirst hreached
  obtain ⟨hfound, hkept⟩ := hreached.found
  have hdev := reached_dev (fun _ hroot => (mem_productionRoots hroot).2) hreached
  have hkey : packageKey visited.1 package = packageKey pending package := by
    rw [hsame]
    rfl
  obtain ⟨placed, hplaced, hplaces, hplacedDev, hplacedKey⟩ := exists_production h hfirst hvisited
    (by rw [hsame]; exact hdev) (by rw [hsame]; exact hfound) (by rw [hsame]; exact hkept)
  obtain ⟨-, after, children, hvisit, hextends⟩ := extends_of_visits keyed_startState h hplaced
  refine ⟨visitedNode r placed.1 package, ?_, hplacedDev⟩
  rw [← hkey, ← hplacedKey]
  exact hextends.stays _ _ (hplaces.visit_ok hvisit).1

/-- A node is for development just when the development dependencies alone lead to it. -/
theorem dev_iff (h : visitAll r dependencies devDependencies = .ok final)
    (hfirst : ProductionFirst r dependencies devDependencies) {key : String} {node : DepNode}
    (hnode : final.nodes.find? key = some node) :
    node.dev = true ↔ ReachesKey r (developmentRoots r devDependencies) key ∧
      ¬ReachesKey r (productionRoots dependencies) key := by
  obtain ⟨visited, hmem, package, hplaces, rfl, rfl⟩ := places_of_node h hnode
  have hreached := reached_of_places hmem hplaces
  constructor
  · intro hdev
    rw [show visited.1.dev = true from hdev] at hreached
    refine ⟨⟨visited.1, package, hreached, rfl⟩, ?_⟩
    rintro ⟨pending, found, hproduction, hkey⟩
    obtain ⟨node, hother, hnot⟩ := production_of_reached h hfirst hproduction
    rw [hkey, hnode] at hother
    obtain rfl := Option.some.inj hother
    rw [hdev] at hnot
    cases hnot
  · rintro ⟨-, hnone⟩
    by_contra hdev
    rw [show visited.1.dev = false from eq_false_of_ne_true hdev] at hreached
    exact hnone ⟨visited.1, package, hreached, rfl⟩

end Complete

end Oath.Resolve
