import Oath.Resolve.ResolverOrders

/-! Two runs of the former resolver over one registry, whose maps come in two orders. What a level
does is told by the first of those that find a key, and where those that could be the first agree,
the two runs do the same. -/

namespace Oath.Resolve

/-! ## What a level does -/

section Levels
variable {Version Range : Type} [LinearOrder Version] (r : Resolver Version Range)

/-- The dependency finds a package of the key. -/
structure Takes (key : String) (pending : PendingDep) (package : Package) : Prop where
  depth : pending.depth ≤ r.options.maxDepth
  found : findPackage r pending = .ok package
  key : packageKey pending package = key

def takes? (key : String) (pending : PendingDep) : Option (PendingDep × Package) :=
  if r.options.maxDepth < pending.depth then none
  else match findPackage r pending with
    | .error _ => none
    | .ok package => if packageKey pending package = key then some (pending, package) else none

/-- The first dependency of a level that finds a package of the key. -/
def taker? (level : List PendingDep) (key : String) : Option (PendingDep × Package) :=
  level.findSome? (takes? r key)

/-- A git package that is needed can be kept. -/
def Kept (pending : PendingDep) (package : Package) : Prop :=
  isSkipped r pending package = true ∨
    (isGitSpec pending.specifier && !r.saveTarball package && !pending.optional) = false

variable {r} {key : String} {pending : PendingDep} {level next : List PendingDep}
  {taker : PendingDep × Package} {s s' : ResolveState}

theorem takes?_eq_some :
    takes? r key pending = some taker ↔ Takes r key pending taker.2 ∧ taker.1 = pending := by
  unfold takes?
  constructor
  · intro h
    split_ifs at h with hdeep
    split at h
    · cases h
    · next package hfound =>
      split_ifs at h with hkey
      obtain rfl := Option.some.inj h
      exact ⟨⟨not_lt.mp hdeep, hfound, hkey⟩, rfl⟩
  · rintro ⟨⟨hdepth, hfound, hkey⟩, rfl⟩
    rw [if_neg (not_lt.mpr hdepth), hfound]
    dsimp only
    rw [if_pos hkey]

theorem taker?_cons : taker? r (pending :: level) key =
    (takes? r key pending).or (taker? r level key) := by
  unfold taker?
  rw [List.findSome?_cons]
  cases takes? r key pending <;> rfl

theorem taker?_mem (h : taker? r level key = some taker) :
    taker.1 ∈ level ∧ Takes r key taker.1 taker.2 := by
  obtain ⟨pending, hmem, htakes⟩ := List.exists_of_findSome?_eq_some h
  obtain ⟨hpackage, rfl⟩ := takes?_eq_some.mp htakes
  exact ⟨hmem, hpackage⟩

theorem exists_taker (hmem : pending ∈ level) {package : Package}
    (htakes : Takes r key pending package) : ∃ taker, taker? r level key = some taker := by
  cases htaker : taker? r level key with
  | some taker => exact ⟨taker, rfl⟩
  | none =>
    have hnone := List.findSome?_eq_none_iff.mp htaker pending hmem
    rw [takes?_eq_some.mpr (show Takes r key pending (pending, package).2 ∧ _ from ⟨htakes, rfl⟩)]
      at hnone
    cases hnone

/-- What the visits of a level leave. -/
structure LevelEffect (r : Resolver Version Range) (level : List PendingDep)
    (s s' : ResolveState) (next : List PendingDep) : Prop where
  resolved (key : String) :
    key ∈ s'.resolved ↔ key ∈ s.resolved ∨ ∃ taker, taker? r level key = some taker
  kept (key : String) : key ∈ s.resolved ∨ taker? r level key = none →
    s'.nodes.find? key = s.nodes.find? key
  placed (key : String) (taker : PendingDep × Package) : key ∉ s.resolved →
    taker? r level key = some taker → s'.nodes.find? key =
      if isSkipped r taker.1 taker.2 then s.nodes.find? key
      else some (visitedNode r taker.1 taker.2)
  roots (root : String) : root ∈ s'.roots ↔ root ∈ s.roots ∨ root ∉ s.resolved ∧
    ∃ taker, taker? r level root = some taker ∧ taker.1.depth = 0
  children (child : PendingDep) : child ∈ next ↔ ∃ key taker, key ∉ s.resolved ∧
    taker? r level key = some taker ∧ isSkipped r taker.1 taker.2 = false ∧
      child ∈ childrenOf r taker.1 taker.2

/-- What lets the visits of a level not fail. -/
structure Visitable (r : Resolver Version Range) (level : List PendingDep) (s : ResolveState) :
    Prop where
  found (pending : PendingDep) (message : String) : pending ∈ level →
    pending.depth ≤ r.options.maxDepth → findPackage r pending = .error message →
      pending.optional = true
  saved (key : String) (taker : PendingDep × Package) : key ∉ s.resolved →
    taker? r level key = some taker → Kept r taker.1 taker.2

/-! ### One visit -/

/-- A visit that is passed over takes no new key. -/
theorem takes?_of_passed (hwhy : r.options.maxDepth < pending.depth ∨
      (pending.optional ∧ ∃ message, findPackage r pending = .error message) ∨
      ∃ package, findPackage r pending = .ok package ∧ packageKey pending package ∈ s.resolved)
    (hfresh : key ∉ s.resolved) : takes? r key pending = none := by
  cases htakes : takes? r key pending with
  | none => rfl
  | some taker =>
    obtain ⟨⟨hdepth, hfound, hkey⟩, -⟩ := takes?_eq_some.mp htakes
    rcases hwhy with hdeep | ⟨-, message, herror⟩ | ⟨package, hpackage, htaken⟩
    · exact absurd hdepth (not_le.mpr hdeep)
    · cases hfound.symm.trans herror
    · obtain rfl := Except.ok.inj (hfound.symm.trans hpackage)
      exact absurd (hkey ▸ htaken) hfresh

theorem takes?_of_found {package : Package} (hdepth : pending.depth ≤ r.options.maxDepth)
    (hfound : findPackage r pending = .ok package) :
    takes? r key pending =
      if packageKey pending package = key then some (pending, package) else none := by
  unfold takes?
  rw [if_neg (not_lt.mpr hdepth), hfound]

theorem visit_kept (h : visit r pending s = .ok (s', next)) {package : Package}
    (htakes : Takes r key pending package) (hfresh : key ∉ s.resolved) :
    Kept r pending package := by
  unfold visit at h
  rw [if_neg (not_lt.mpr htakes.depth), htakes.found] at h
  dsimp only at h
  rw [if_neg (by rw [htakes.key]; exact hfresh)] at h
  split_ifs at h with hskipped hunsaved
  · exact Or.inl hskipped
  · exact Or.inr (by simpa using hunsaved)

theorem visit_isOk
    (hfound : ∀ message, pending.depth ≤ r.options.maxDepth →
      findPackage r pending = .error message → pending.optional = true)
    (hsaved : ∀ package, Takes r (packageKey pending package) pending package →
      packageKey pending package ∉ s.resolved → Kept r pending package) :
    ∃ out, visit r pending s = .ok out := by
  unfold visit
  by_cases hdeep : r.options.maxDepth < pending.depth
  · rw [if_pos hdeep]
    exact ⟨_, rfl⟩
  rw [if_neg hdeep]
  cases hpackage : findPackage r pending with
  | error message =>
    dsimp only
    rw [if_pos (hfound message (not_lt.mp hdeep) hpackage)]
    exact ⟨_, rfl⟩
  | ok package =>
    dsimp only
    split_ifs with htaken hskipped hunsaved
    · exact ⟨_, rfl⟩
    · exact ⟨_, rfl⟩
    · rcases hsaved package ⟨not_lt.mp hdeep, hpackage, rfl⟩ htaken with hskip | hkept
      · exact absurd hskip hskipped
      · rw [hunsaved] at hkept
        cases hkept
    · exact ⟨_, rfl⟩

/-! ### The visits of a level -/

theorem levelEffect_nil : LevelEffect r [] s s [] where
  resolved key := ⟨Or.inl, fun h => h.resolve_right fun ⟨_, hnone⟩ => by cases hnone⟩
  kept _ _ := rfl
  placed _ _ _ hnone := by cases hnone
  roots root := ⟨Or.inl, fun h => h.resolve_right fun ⟨_, _, hnone, _⟩ => by cases hnone⟩
  children child := ⟨fun hnone => absurd hnone List.not_mem_nil, fun ⟨_, _, _, hnone, _⟩ => by
    cases hnone⟩

/-- A visit that is passed over leaves the level to the others. -/
theorem LevelEffect.passed
    (hnone : ∀ key, key ∉ s.resolved → takes? r key pending = none)
    (h : LevelEffect r level s s' next) : LevelEffect r (pending :: level) s s' next := by
  have hsame : ∀ key, key ∉ s.resolved →
      taker? r (pending :: level) key = taker? r level key := by
    intro key hfresh
    rw [taker?_cons, hnone key hfresh, Option.none_or]
  constructor
  · intro key
    by_cases hold : key ∈ s.resolved
    · exact ⟨fun _ => Or.inl hold, fun _ => (h.resolved key).mpr (Or.inl hold)⟩
    · rw [hsame key hold]
      exact h.resolved key
  · intro key hwhy
    by_cases hold : key ∈ s.resolved
    · exact h.kept key (Or.inl hold)
    · rw [hsame key hold] at hwhy
      exact h.kept key hwhy
  · intro key taker hfresh htaker
    rw [hsame key hfresh] at htaker
    exact h.placed key taker hfresh htaker
  · intro root
    rw [h.roots root]
    refine or_congr_right (and_congr_right fun hfresh => ?_)
    rw [hsame root hfresh]
  · intro child
    rw [h.children child]
    refine exists_congr fun key => exists_congr fun taker => and_congr_right fun hfresh => ?_
    rw [hsame key hfresh]

/-- The first visit takes its key, and the others find it taken. -/
theorem LevelEffect.inserted {package : Package} (hdepth : pending.depth ≤ r.options.maxDepth)
    (hfound : findPackage r pending = .ok package)
    (hfresh : packageKey pending package ∉ s.resolved)
    (h : LevelEffect r level (insertNode r pending package s) s' next) :
    LevelEffect r (pending :: level) s s'
      ((if isSkipped r pending package then [] else childrenOf r pending package) ++ next) := by
  have hown : taker? r (pending :: level) (packageKey pending package) =
      some (pending, package) := by
    rw [taker?_cons, takes?_of_found hdepth hfound, if_pos rfl, Option.some_or]
  have hother : ∀ key, packageKey pending package ≠ key →
      taker? r (pending :: level) key = taker? r level key := by
    intro key hne
    rw [taker?_cons, takes?_of_found hdepth hfound, if_neg hne, Option.none_or]
  have hresolved : ∀ key, key ∈ (insertNode r pending package s).resolved ↔
      key = packageKey pending package ∨ key ∈ s.resolved := fun _ => List.mem_cons
  have hnodes : ∀ key, packageKey pending package ≠ key →
      (insertNode r pending package s).nodes.find? key = s.nodes.find? key := by
    intro key hne
    unfold insertNode
    dsimp only
    split_ifs
    · rfl
    · rw [OrderedMap.find?_insert, if_neg (Ne.symm hne)]
  have hplaced : s'.nodes.find? (packageKey pending package) =
      if isSkipped r pending package then s.nodes.find? (packageKey pending package)
      else some (visitedNode r pending package) := by
    rw [h.kept _ (Or.inl ((hresolved _).mpr (Or.inl rfl)))]
    unfold insertNode
    dsimp only
    split_ifs
    · rfl
    · rw [OrderedMap.find?_insert, if_pos rfl]
  constructor
  · intro key
    rw [h.resolved key, hresolved key]
    by_cases hkey : packageKey pending package = key
    · subst hkey
      exact ⟨fun _ => Or.inr ⟨_, hown⟩, fun _ => Or.inl (Or.inl rfl)⟩
    · rw [hother key hkey]
      exact or_congr_left (or_iff_right (Ne.symm hkey))
  · intro key hwhy
    by_cases hkey : packageKey pending package = key
    · subst hkey
      rcases hwhy with hold | hnone
      · exact absurd hold hfresh
      · cases hown.symm.trans hnone
    · rw [hother key hkey] at hwhy
      rw [h.kept key (hwhy.imp_left fun hold => (hresolved key).mpr (Or.inr hold)), hnodes key hkey]
  · intro key taker hnew htaker
    by_cases hkey : packageKey pending package = key
    · subst hkey
      obtain rfl := Option.some.inj (hown.symm.trans htaker)
      exact hplaced
    · rw [hother key hkey] at htaker
      have hstill : key ∉ (insertNode r pending package s).resolved := fun hmem =>
        ((hresolved key).mp hmem).elim (fun heq => hkey heq.symm) hnew
      rw [h.placed key taker hstill htaker, hnodes key hkey]
  · intro root
    rw [h.roots root]
    have hmem : root ∈ (insertNode r pending package s).roots ↔
        root ∈ s.roots ∨ pending.depth = 0 ∧ root = packageKey pending package := by
      unfold insertNode
      dsimp only
      split_ifs with hzero
      · rw [List.mem_append, List.mem_singleton]
        exact or_congr_right ⟨fun heq => ⟨hzero, heq⟩, And.right⟩
      · exact ⟨Or.inl, fun hor => hor.resolve_right fun hand => hzero hand.1⟩
    rw [hmem]
    by_cases hkey : packageKey pending package = root
    · subst hkey
      rw [hown]
      constructor
      · rintro ((hold | ⟨hzero, -⟩) | ⟨hstill, -⟩)
        · exact Or.inl hold
        · exact Or.inr ⟨hfresh, _, rfl, hzero⟩
        · exact absurd ((hresolved _).mpr (Or.inl rfl)) hstill
      · rintro (hold | ⟨-, taker, htaker, hzero⟩)
        · exact Or.inl (Or.inl hold)
        · obtain rfl := Option.some.inj htaker
          exact Or.inl (Or.inr ⟨hzero, rfl⟩)
    · rw [hother root hkey, hresolved root]
      have hnone : ¬(pending.depth = 0 ∧ root = packageKey pending package) :=
        fun hand => hkey hand.2.symm
      have hneq : ¬(root = packageKey pending package ∨ root ∈ s.resolved) ↔
          root ∉ s.resolved := by
        rw [not_or]
        exact and_iff_right (Ne.symm hkey)
      rw [or_iff_left hnone, hneq]
  · intro child
    rw [List.mem_append, h.children child]
    constructor
    · rintro (hhere | ⟨key, taker, hstill, htaker, hnot, hchild⟩)
      · split_ifs at hhere with hskipped
        · cases hhere
        · exact ⟨_, _, hfresh, hown, by simpa using hskipped, hhere⟩
      · rw [hresolved, not_or] at hstill
        rw [← hother key (Ne.symm hstill.1)] at htaker
        exact ⟨key, taker, hstill.2, htaker, hnot, hchild⟩
    · rintro ⟨key, taker, hnew, htaker, hnot, hchild⟩
      by_cases hkey : packageKey pending package = key
      · subst hkey
        obtain rfl := Option.some.inj (hown.symm.trans htaker)
        dsimp only at hnot hchild
        rw [hnot]
        exact Or.inl hchild
      · rw [hother key hkey] at htaker
        have hstill : key ∉ (insertNode r pending package s).resolved := fun hmem =>
          ((hresolved key).mp hmem).elim (fun heq => hkey heq.symm) hnew
        exact Or.inr ⟨key, taker, hstill, htaker, hnot, hchild⟩

theorem levelEffect_of_ok (h : visitLevel r level s = .ok (s', next)) :
    LevelEffect r level s s' next := by
  induction level generalizing s next with
  | nil =>
    obtain ⟨rfl, rfl⟩ := Prod.mk.inj (Except.ok.inj h)
    exact levelEffect_nil
  | cons pending level ih =>
    obtain ⟨middle, children, later, hvisit, hlevel, rfl⟩ := visitLevel_cons h
    have heffect := ih hlevel
    cases visit_ok hvisit with
    | passed hwhy =>
      rw [List.nil_append]
      exact heffect.passed fun key hfresh => takes?_of_passed hwhy hfresh
    | inserted package hdepth hfound hfresh => exact heffect.inserted hdepth hfound hfresh

/-! ### Levels that do not fail -/

theorem visitable_of_ok (hkeyed : Keyed s) (h : visitLevel r level s = .ok (s', next)) :
    Visitable r level s := by
  constructor
  · intro pending message hmem hdepth herror
    obtain ⟨before, hvisited⟩ := exists_visit h hmem
    obtain ⟨after, children, hvisit, -⟩ := visited_of_mem hkeyed h hvisited
    cases visit_ok hvisit with
    | passed hwhy =>
      rcases hwhy with hdeep | ⟨hoptional, -⟩ | ⟨package, hfound, -⟩
      · exact absurd hdepth (not_le.mpr hdeep)
      · exact hoptional
      · cases herror.symm.trans hfound
    | inserted package _ hfound _ => cases herror.symm.trans hfound
  · intro key taker hfresh htaker
    induction level generalizing s next with
    | nil => cases htaker
    | cons pending level ih =>
      obtain ⟨middle, children, later, hvisit, hlevel, rfl⟩ := visitLevel_cons h
      rw [taker?_cons] at htaker
      cases hfirst : takes? r key pending with
      | some first =>
        rw [hfirst, Option.some_or] at htaker
        obtain rfl := Option.some.inj htaker
        obtain ⟨htakes, hpending⟩ := takes?_eq_some.mp hfirst
        rw [hpending]
        exact visit_kept hvisit htakes hfresh
      | none =>
        rw [hfirst, Option.none_or] at htaker
        refine ih (extends_visit hkeyed hvisit).keyed hlevel ?_ htaker
        cases visit_ok hvisit with
        | passed => exact hfresh
        | inserted package hdepth hfound _ =>
          rw [takes?_of_found hdepth hfound] at hfirst
          have hne : packageKey pending package ≠ key := fun heq => by
            rw [if_pos heq] at hfirst
            cases hfirst
          exact fun hmem => (List.mem_cons.mp hmem).elim (fun heq => hne heq.symm) hfresh

theorem visitLevel_isOk (h : Visitable r level s) : ∃ out, visitLevel r level s = .ok out := by
  induction level generalizing s with
  | nil => exact ⟨_, rfl⟩
  | cons pending level ih =>
    have hsaved : ∀ package, Takes r (packageKey pending package) pending package →
        packageKey pending package ∉ s.resolved → Kept r pending package := by
      intro package htakes hfresh
      refine h.saved _ (pending, package) hfresh ?_
      rw [taker?_cons, takes?_of_found htakes.depth htakes.found, if_pos rfl, Option.some_or]
    obtain ⟨⟨middle, children⟩, hvisit⟩ := visit_isOk
      (fun message hdepth => h.found pending message List.mem_cons_self hdepth) hsaved
    have hrest : Visitable r level middle := by
      constructor
      · exact fun other message hmem => h.found other message (List.mem_cons_of_mem _ hmem)
      · intro key taker hfresh htaker
        have hother : takes? r key pending = none ∧ key ∉ s.resolved := by
          cases visit_ok hvisit with
          | passed hwhy => exact ⟨takes?_of_passed hwhy hfresh, hfresh⟩
          | inserted package hdepth hfound _ =>
            obtain ⟨hne, hold⟩ := not_or.mp (List.mem_cons.not.mp hfresh)
            rw [takes?_of_found hdepth hfound, if_neg (Ne.symm hne)]
            exact ⟨rfl, hold⟩
        refine h.saved key taker hother.2 ?_
        rw [taker?_cons, hother.1, Option.none_or]
        exact htaker
    obtain ⟨⟨final, later⟩, hlevel⟩ := ih hrest
    refine ⟨(final, children ++ later), Except.bind_eq_ok.mpr ⟨_, hvisit, ?_⟩⟩
    exact Except.bind_eq_ok.mpr ⟨_, hlevel, rfl⟩

end Levels

/-! ## The shape of a level -/

section Shape
variable {Version Range : Type} [LinearOrder Version] {r : Resolver Version Range} {depth : ℕ}
  {level next : List PendingDep} {s s' : ResolveState} {key : String}

/-- A level has one depth, and what is for production comes first. -/
structure LevelShape (depth : ℕ) (level : List PendingDep) : Prop where
  depth (pending : PendingDep) : pending ∈ level → pending.depth = depth
  production : level.Pairwise fun pending later => pending.dev = true → later.dev = true

omit [LinearOrder Version] in
theorem mem_childrenOf_dev {pending child : PendingDep} {package : Package}
    (h : child ∈ childrenOf r pending package) : child.dev = pending.dev := by
  rcases List.mem_append.mp h with hmem | hmem
  · obtain ⟨row, -, rfl⟩ := List.mem_map.mp hmem
    exact pendingOf_dev ..
  · split_ifs at hmem
    · obtain ⟨row, -, rfl⟩ := List.mem_map.mp hmem
      exact pendingOf_dev ..
    · cases hmem

/-- The dependencies of a manifest that are for production. -/
def productionRoots (dependencies : Rows String) : List PendingDep :=
  dependencies.rows.map fun (name, spec) => pendingOf name spec 0 false false

def developmentRoots (r : Resolver Version Range) (devDependencies : Rows String) :
    List PendingDep :=
  if r.options.includeDev then
    devDependencies.rows.map fun (name, spec) => pendingOf name spec 0 true false
  else []

omit [LinearOrder Version] in
theorem rootLevel_eq (dependencies devDependencies : Rows String) :
    rootLevel r dependencies devDependencies =
      productionRoots dependencies ++ developmentRoots r devDependencies := rfl

theorem mem_productionRoots {dependencies : Rows String} {pending : PendingDep}
    (h : pending ∈ productionRoots dependencies) :
    pending.depth = 0 ∧ pending.dev = false := by
  obtain ⟨row, -, rfl⟩ := List.mem_map.mp h
  exact ⟨pendingOf_depth .., pendingOf_dev ..⟩

omit [LinearOrder Version] in
theorem mem_developmentRoots {devDependencies : Rows String} {pending : PendingDep}
    (h : pending ∈ developmentRoots r devDependencies) :
    pending.depth = 0 ∧ pending.dev = true := by
  unfold developmentRoots at h
  split_ifs at h
  · obtain ⟨row, -, rfl⟩ := List.mem_map.mp h
    exact ⟨pendingOf_depth .., pendingOf_dev ..⟩
  · cases h

omit [LinearOrder Version] in
theorem levelShape_rootLevel (dependencies devDependencies : Rows String) :
    LevelShape 0 (rootLevel r dependencies devDependencies) := by
  rw [rootLevel_eq]
  constructor
  · intro pending hmem
    rcases List.mem_append.mp hmem with hproduction | hdevelopment
    · exact (mem_productionRoots hproduction).1
    · exact (mem_developmentRoots hdevelopment).1
  · have hall : ∀ pending ∈ productionRoots dependencies, pending.dev = false :=
      fun _ hmem => (mem_productionRoots hmem).2
    have hdev : ∀ pending ∈ developmentRoots r devDependencies, pending.dev = true :=
      fun _ hmem => (mem_developmentRoots hmem).2
    refine List.pairwise_append.mpr ⟨?_, ?_, fun _ _ later hlater _ => hdev later hlater⟩
    · exact List.pairwise_of_forall_mem_list fun pending hmem _ _ hdev => by
        rw [hall pending hmem] at hdev
        cases hdev
    · exact List.pairwise_of_forall_mem_list fun _ _ later hmem _ => hdev later hmem

/-- A dependency of the next level has its flag from one of this level, which is no deeper. -/
theorem exists_parent_dev (h : visitLevel r level s = .ok (s', next)) {child : PendingDep}
    (hmem : child ∈ next) :
    ∃ parent ∈ level, child.depth = parent.depth + 1 ∧ child.dev = parent.dev := by
  obtain ⟨parent, hparent, before, after, children, hvisit, hchild⟩ := exists_parent h hmem
  cases visit_ok hvisit with
  | passed => cases hchild
  | inserted package hdepth _ _ =>
    split_ifs at hchild with hskipped
    · cases hchild
    · exact ⟨parent, hparent, mem_childrenOf_depth hchild, mem_childrenOf_dev hchild⟩

theorem LevelShape.below (hshape : LevelShape depth level)
    (h : visitLevel r level s = .ok (s', next)) : LevelShape (depth + 1) next := by
  constructor
  · intro child hmem
    obtain ⟨parent, hparent, hdepth, -⟩ := exists_parent_dev h hmem
    rw [hdepth, hshape.depth parent hparent]
  · have hproduction := hshape.production
    clear hshape
    induction level generalizing s next with
    | nil =>
      obtain ⟨rfl, rfl⟩ := Prod.mk.inj (Except.ok.inj h)
      exact List.Pairwise.nil
    | cons pending level ih =>
      obtain ⟨middle, children, later, hvisit, hlevel, rfl⟩ := visitLevel_cons h
      rw [List.pairwise_cons] at hproduction
      have hown : ∀ child ∈ children, child.dev = pending.dev := by
        intro child hmem
        cases visit_ok hvisit with
        | passed => cases hmem
        | inserted package hdepth _ _ =>
          split_ifs at hmem with hskipped
          · cases hmem
          · exact mem_childrenOf_dev hmem
      refine List.pairwise_append.mpr ⟨?_, ih hlevel hproduction.2, ?_⟩
      · refine List.pairwise_of_forall_mem_list fun child hchild other hother hdev => ?_
        rw [hown other hother, ← hown child hchild]
        exact hdev
      · intro child hchild other hother hdev
        obtain ⟨parent, hparent, -, hparentDev⟩ := exists_parent_dev hlevel hother
        rw [hparentDev]
        exact hproduction.1 parent hparent (hown child hchild ▸ hdev)

/-- The first to find a key is for production where any of them is. -/
theorem LevelShape.taker_dev (hshape : LevelShape depth level) {taker : PendingDep × Package}
    (htaker : taker? r level key = some taker) (hdev : taker.1.dev = true) {pending : PendingDep}
    (hmem : pending ∈ level) {package : Package} (htakes : Takes r key pending package) :
    pending.dev = true := by
  obtain ⟨front, first, back, rfl, hfirst, hnone⟩ := List.findSome?_eq_some_iff.mp htaker
  obtain ⟨-, rfl⟩ := takes?_eq_some.mp hfirst
  rcases List.mem_append.mp hmem with hfront | hback
  · have hsome : takes? r key pending = some (pending, package) :=
      takes?_eq_some.mpr ⟨htakes, rfl⟩
    rw [hnone pending hfront] at hsome
    cases hsome
  · rcases List.mem_cons.mp hback with rfl | hback
    · exact hdev
    · have hpairwise := (List.pairwise_append.mp hshape.production).2.1
      exact (List.pairwise_cons.mp hpairwise).1 pending hback hdev

end Shape

/-! ## Two runs -/

section TwoRuns
variable {Version Range : Type} [LinearOrder Version] {r r' : Resolver Version Range}
  {level level' next : List PendingDep} {s s' t : ResolveState} {key : String}
  {pending : PendingDep} {package package' : Package} {taker taker' : PendingDep × Package}

/-- The dependencies make the same node of a package. -/
structure PendingDep.Alike (pending other : PendingDep) : Prop where
  aliasName : other.aliasName = pending.aliasName
  optional : other.optional = pending.optional
  git : isGitSpec other.specifier = isGitSpec pending.specifier

/-- Those of a level that find one new key, and are both for production or both not, find the same
package in the same way. -/
def LevelAgrees (r : Resolver Version Range) (level : List PendingDep) (s : ResolveState) : Prop :=
  ∀ key, key ∉ s.resolved → ∀ pending ∈ level, ∀ other ∈ level, ∀ package package',
    Takes r key pending package → Takes r key other package' → pending.dev = other.dev →
      package' = package ∧ pending.Alike other

structure SameTaker (taker taker' : PendingDep × Package) : Prop where
  package : taker.2.Same taker'.2
  alike : taker.1.Alike taker'.1
  depth : taker'.1.depth = taker.1.depth
  dev : taker'.1.dev = taker.1.dev

/-- The states differ in the order of what they list. -/
structure SameState (s t : ResolveState) : Prop where
  nodes : t.nodes = s.nodes
  roots (key : String) : key ∈ t.roots ↔ key ∈ s.roots
  resolved (key : String) : key ∈ t.resolved ↔ key ∈ s.resolved

/-! ### What the takers do -/

omit [LinearOrder Version] in
theorem SameTaker.skipped (hsame : r.Same r') (h : SameTaker taker taker') :
    isSkipped r' taker'.1 taker'.2 = isSkipped r taker.1 taker.2 := by
  unfold isSkipped
  rw [hsame.platform, h.alike.optional, h.alike.git, h.package.os, h.package.cpu]

omit [LinearOrder Version] in
theorem SameTaker.kept (hsame : r.Same r') (h : SameTaker taker taker')
    (hkept : Kept r taker.1 taker.2) : Kept r' taker'.1 taker'.2 := by
  unfold Kept
  rw [h.skipped hsame, h.alike.optional, h.alike.git, hsame.saveTarball _ _ h.package]
  exact hkept

omit [LinearOrder Version] in
theorem nodeDeps_same (hsame : r.Same r') (h : package.Same package') :
    nodeDeps r' package' = nodeDeps r package := by
  have hown : OrderedMap.ofList package'.dependencies.rows =
      OrderedMap.ofList package.dependencies.rows :=
    (OrderedMap.ofList_congr package.dependencies.nodup h.dependencies).symm
  have hoptional : OrderedMap.ofList package'.optionalDependencies.rows =
      OrderedMap.ofList package.optionalDependencies.rows :=
    (OrderedMap.ofList_congr package.optionalDependencies.nodup h.optionalDependencies).symm
  unfold nodeDeps
  rw [hsame.options]
  apply OrderedMap.ext
  intro name
  rw [OrderedMap.find?_ofList_append, OrderedMap.find?_ofList_append, hown]
  split_ifs
  · rw [hoptional]
  · rfl

omit [LinearOrder Version] in
theorem SameTaker.node (hsame : r.Same r') (h : SameTaker taker taker') :
    visitedNode r' taker'.1 taker'.2 = visitedNode r taker.1 taker.2 := by
  have hpeers : OrderedMap.ofList taker'.2.peerDependencies.rows =
      OrderedMap.ofList taker.2.peerDependencies.rows :=
    (OrderedMap.ofList_congr taker.2.peerDependencies.nodup h.package.peerDependencies).symm
  unfold visitedNode
  rw [nodeDeps_same hsame h.package, hpeers, OrderedMap.ofList_units h.package.optionalPeers,
    h.package.name, h.package.version, h.package.resolved, h.package.integrity,
    h.package.hasInstallScript, h.alike.aliasName, h.alike.optional, h.dev]

omit [LinearOrder Version] in
theorem SameTaker.children (hsame : r.Same r') (h : SameTaker taker taker') (child : PendingDep) :
    child ∈ childrenOf r' taker'.1 taker'.2 ↔ child ∈ childrenOf r taker.1 taker.2 := by
  unfold childrenOf
  rw [hsame.options, h.depth, h.dev, List.mem_append, List.mem_append]
  refine or_congr ((h.package.dependencies.map _).mem_iff).symm ?_
  split_ifs
  · exact ((h.package.optionalDependencies.map _).mem_iff).symm
  · rfl

/-! ### Who takes a key -/

theorem Takes.same (hsame : r.Same r') (hdistinct : DistinctVersions r)
    (h : Takes r key pending package) :
    ∃ package', package.Same package' ∧ Takes r' key pending package' := by
  have hfound := findPackage_same hsame hdistinct pending
  rw [h.found] at hfound
  cases hright : findPackage r' pending with
  | error message =>
    rw [hright] at hfound
    cases hfound
  | ok package' =>
    rw [hright] at hfound
    cases hfound with
    | ok _ _ hpackage =>
      refine ⟨package', hpackage, hsame.options ▸ h.depth, hright, ?_⟩
      unfold packageKey
      rw [hpackage.version]
      exact h.key

theorem Takes.back (hsame : r.Same r') (hdistinct : DistinctVersions r)
    (h : Takes r' key pending package') :
    ∃ package, package.Same package' ∧ Takes r key pending package := by
  have hfound := findPackage_same hsame hdistinct pending
  rw [h.found] at hfound
  cases hleft : findPackage r pending with
  | error message =>
    rw [hleft] at hfound
    cases hfound
  | ok package =>
    rw [hleft] at hfound
    cases hfound with
    | ok _ _ hpackage =>
      refine ⟨package, hpackage, hsame.options ▸ h.depth, hleft, ?_⟩
      unfold packageKey
      rw [← hpackage.version]
      exact h.key

variable {depth : ℕ}

theorem taker?_same (hsame : r.Same r') (hdistinct : DistinctVersions r)
    (hagree : LevelAgrees r level s) (hshape : LevelShape depth level)
    (hshape' : LevelShape depth level') (hmem : ∀ pending, pending ∈ level' ↔ pending ∈ level)
    (hfresh : key ∉ s.resolved) :
    Option.Rel SameTaker (taker? r level key) (taker? r' level' key) := by
  cases htaker : taker? r level key with
  | none =>
    cases htaker' : taker? r' level' key with
    | none => exact .none
    | some taker' =>
      obtain ⟨hin, htakes⟩ := taker?_mem htaker'
      obtain ⟨package, -, hback⟩ := htakes.back hsame hdistinct
      obtain ⟨taker, hsome⟩ := exists_taker ((hmem _).mp hin) hback
      rw [htaker] at hsome
      cases hsome
  | some taker =>
    obtain ⟨hin, htakes⟩ := taker?_mem htaker
    obtain ⟨package', -, htakes'⟩ := htakes.same hsame hdistinct
    obtain ⟨taker', htaker'⟩ := exists_taker ((hmem _).mpr hin) htakes'
    rw [htaker']
    obtain ⟨hin', hown'⟩ := taker?_mem htaker'
    obtain ⟨package, hpackage, hown⟩ := hown'.back hsame hdistinct
    -- Both are for production where any that finds the key is.
    have hdev : taker'.1.dev = taker.1.dev := by
      refine Bool.eq_iff_iff.mpr ⟨fun hdev => ?_, fun hdev => ?_⟩
      · exact hshape'.taker_dev htaker' hdev ((hmem _).mpr hin) htakes'
      · exact hshape.taker_dev htaker hdev ((hmem _).mp hin') hown
    obtain ⟨rfl, halike⟩ := hagree key hfresh taker.1 hin taker'.1 ((hmem _).mp hin') taker.2
      package htakes hown hdev.symm
    refine .some ⟨hpackage, halike, ?_, hdev⟩
    rw [hshape.depth _ hin, hshape'.depth _ hin']

/-! ### One level -/

theorem Visitable.same (hsame : r.Same r') (hdistinct : DistinctVersions r)
    (hagree : LevelAgrees r level s) (hshape : LevelShape depth level)
    (hshape' : LevelShape depth level') (hmem : ∀ pending, pending ∈ level' ↔ pending ∈ level)
    (hstate : SameState s t) (h : Visitable r level s) : Visitable r' level' t := by
  constructor
  · intro pending message hin hdepth herror
    have hfound := findPackage_same hsame hdistinct pending
    rw [herror] at hfound
    cases hleft : findPackage r pending with
    | error message' =>
      exact h.found pending message' ((hmem _).mp hin) (hsame.options ▸ hdepth) hleft
    | ok package =>
      rw [hleft] at hfound
      cases hfound
  · intro key taker' hfresh htaker'
    have hold : key ∉ s.resolved := fun hin => hfresh ((hstate.resolved key).mpr hin)
    have htakers := taker?_same hsame hdistinct hagree hshape hshape' hmem hold
    rw [htaker'] at htakers
    rcases rel_cases htakers with ⟨-, hnone⟩ | ⟨taker, taker'', htaker, hsome, hboth⟩
    · cases hnone
    · obtain rfl := Option.some.inj hsome
      exact hboth.kept hsame (h.saved key taker hold htaker)

theorem visitLevel_same (hsame : r.Same r') (hdistinct : DistinctVersions r)
    (hagree : LevelAgrees r level s) (hshape : LevelShape depth level)
    (hshape' : LevelShape depth level') (hmem : ∀ pending, pending ∈ level' ↔ pending ∈ level)
    (hstate : SameState s t) (hkeyed : Keyed s) (h : visitLevel r level s = .ok (s', next)) :
    ∃ t' next', visitLevel r' level' t = .ok (t', next') ∧ SameState s' t' ∧
      ∀ child, child ∈ next' ↔ child ∈ next := by
  have hvisitable : Visitable r' level' t :=
    (visitable_of_ok hkeyed h).same hsame hdistinct hagree hshape hshape' hmem hstate
  obtain ⟨⟨t', next'⟩, h'⟩ := visitLevel_isOk hvisitable
  have heffect := levelEffect_of_ok h
  have heffect' := levelEffect_of_ok h'
  have htakers (key : String) (hfresh : key ∉ s.resolved) :=
    taker?_same hsame hdistinct hagree hshape hshape' hmem hfresh
  have hfresh (key : String) : key ∉ t.resolved ↔ key ∉ s.resolved :=
    not_congr (hstate.resolved key)
  refine ⟨t', next', h', ⟨?_, ?_, ?_⟩, ?_⟩
  · apply OrderedMap.ext
    intro key
    by_cases hold : key ∈ s.resolved
    · rw [heffect.kept key (Or.inl hold),
        heffect'.kept key (Or.inl ((hstate.resolved key).mpr hold)), hstate.nodes]
    · rcases rel_cases (htakers key hold) with
        ⟨hnone, hnone'⟩ | ⟨taker, taker', hfirst, hfirst', hboth⟩
      · rw [heffect.kept key (Or.inr hnone), heffect'.kept key (Or.inr hnone'), hstate.nodes]
      · rw [heffect.placed key taker hold hfirst,
          heffect'.placed key taker' ((hfresh key).mpr hold) hfirst', hboth.skipped hsame,
          hboth.node hsame, hstate.nodes]
  · intro root
    rw [heffect.roots root, heffect'.roots root, hstate.roots root, hfresh root]
    refine or_congr_right (and_congr_right fun hold => ?_)
    rcases rel_cases (htakers root hold) with
      ⟨hnone, hnone'⟩ | ⟨taker, taker', hfirst, hfirst', hboth⟩
    · rw [hnone, hnone']
    · rw [hfirst, hfirst']
      simp [hboth.depth]
  · intro key
    rw [heffect.resolved key, heffect'.resolved key, hstate.resolved key]
    by_cases hold : key ∈ s.resolved
    · simp [hold]
    · rcases rel_cases (htakers key hold) with ⟨hnone, hnone'⟩ | ⟨taker, taker', htaker, htaker', -⟩
      · rw [hnone, hnone']
      · simp [htaker, htaker']
  · intro child
    rw [heffect.children child, heffect'.children child]
    refine exists_congr fun key => ?_
    by_cases hold : key ∈ s.resolved
    · have hnot : ¬key ∉ s.resolved := fun hnot => hnot hold
      simp [(hstate.resolved key).mpr hold, hold]
    · rcases rel_cases (htakers key hold) with
        ⟨hnone, hnone'⟩ | ⟨taker, taker', hfirst, hfirst', hboth⟩
      · simp [hnone, hnone']
      · simp [hfirst, hfirst', hold, (hfresh key).mpr hold, hboth.skipped hsame,
          hboth.children hsame]

/-! ### The whole run -/

/-- The levels of a run, each with the state before it. -/
def levelsFrom (r : Resolver Version Range) : ℕ → List PendingDep → ResolveState →
    List (List PendingDep × ResolveState)
  | 0, _, _ => []
  | depths + 1, level, s => (level, s) :: match visitLevel r level s with
    | .ok (s', next) => levelsFrom r depths next s'
    | .error _ => []

def levelsOf (r : Resolver Version Range) (dependencies devDependencies : Rows String) :
    List (List PendingDep × ResolveState) :=
  levelsFrom r (r.options.maxDepth + 2) (rootLevel r dependencies devDependencies) startState

variable {n : ℕ} {final : ResolveState}

theorem visitLevels_same (hsame : r.Same r') (hdistinct : DistinctVersions r)
    (hagree : ∀ reached ∈ levelsFrom r n level s, LevelAgrees r reached.1 reached.2)
    (hshape : LevelShape depth level) (hshape' : LevelShape depth level')
    (hmem : ∀ pending, pending ∈ level' ↔ pending ∈ level) (hstate : SameState s t)
    (hkeyed : Keyed s) (h : visitLevels r n level s = .ok final) :
    ∃ final', visitLevels r' n level' t = .ok final' ∧ SameState final final' := by
  induction n generalizing depth level level' s t with
  | zero => exact ⟨t, rfl, Except.ok.inj h ▸ hstate⟩
  | succ n ih =>
    obtain ⟨middle, next, hlevel, hrest, -⟩ := visitLevels_succ h
    unfold levelsFrom at hagree
    rw [hlevel, List.forall_mem_cons] at hagree
    obtain ⟨middle', next', hlevel', hmiddle, hnext⟩ :=
      visitLevel_same hsame hdistinct hagree.1 hshape hshape' hmem hstate hkeyed hlevel
    obtain ⟨final', hrest', hfinal⟩ := ih hagree.2 (hshape.below hlevel) (hshape'.below hlevel')
      hnext hmiddle (extends_visitLevel hkeyed hlevel).keyed hrest
    unfold visitLevels
    split_ifs with hempty
    · -- An empty level leaves the state as it is.
      rw [List.isEmpty_iff] at hempty
      have hnone : level = [] := List.eq_nil_iff_forall_not_mem.mpr fun pending hin => by
        rw [← hmem, hempty] at hin
        cases hin
      rw [hnone] at h
      unfold visitLevels at h
      rw [if_pos List.isEmpty_nil] at h
      exact ⟨t, rfl, Except.ok.inj h ▸ hstate⟩
    · exact ⟨final', Except.bind_eq_ok.mpr ⟨_, hlevel', hrest'⟩, hfinal⟩

variable {dependencies dependencies' devDependencies devDependencies' : Rows String}
  {graph : DepGraph}

theorem visitAll_same (hsame : r.Same r') (hdistinct : DistinctVersions r)
    (hagree : ∀ reached ∈ levelsOf r dependencies devDependencies,
      LevelAgrees r reached.1 reached.2)
    (hrows : dependencies.rows.Perm dependencies'.rows)
    (hdevRows : devDependencies.rows.Perm devDependencies'.rows)
    (h : visitAll r dependencies devDependencies = .ok final) :
    ∃ final', visitAll r' dependencies' devDependencies' = .ok final' ∧
      SameState final final' := by
  have hmem : ∀ pending, pending ∈ rootLevel r' dependencies' devDependencies' ↔
      pending ∈ rootLevel r dependencies devDependencies := by
    intro pending
    unfold rootLevel
    rw [hsame.options, List.mem_append, List.mem_append]
    refine or_congr ((hrows.map _).mem_iff).symm ?_
    split_ifs
    · exact ((hdevRows.map _).mem_iff).symm
    · rfl
  have hstart : SameState startState startState := ⟨rfl, fun _ => Iff.rfl, fun _ => Iff.rfl⟩
  unfold visitAll
  rw [hsame.options]
  exact visitLevels_same hsame hdistinct hagree (levelShape_rootLevel _ _)
    (levelShape_rootLevel _ _) hmem hstart keyed_startState h

/-- The order of the rows changes nothing but the order of the roots, where those of a level that
find one new key agree. -/
theorem resolve_same (hsame : r.Same r') (hdistinct : DistinctVersions r)
    (hagree : ∀ reached ∈ levelsOf r dependencies devDependencies,
      LevelAgrees r reached.1 reached.2)
    (hrows : dependencies.rows.Perm dependencies'.rows)
    (hdevRows : devDependencies.rows.Perm devDependencies'.rows)
    (h : resolve r dependencies devDependencies = .ok graph) :
    ∃ graph', resolve r' dependencies' devDependencies' = .ok graph' ∧
      SameUpToRoots graph graph' := by
  obtain ⟨final, hvisits, hgraph⟩ := Except.bind_eq_ok.mp h
  obtain rfl := Except.ok.inj hgraph
  obtain ⟨final', hvisits', hfinal⟩ :=
    visitAll_same hsame hdistinct hagree hrows hdevRows hvisits
  refine ⟨_, Except.bind_eq_ok.mpr ⟨_, hvisits', rfl⟩, ?_, hfinal.roots⟩
  unfold fixEdges
  rw [hfinal.nodes, hsame.semver]

end TwoRuns

end Oath.Resolve
