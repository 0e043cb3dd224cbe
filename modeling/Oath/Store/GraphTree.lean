import Oath.Store.GraphHomes

/-! The links between the packages of a graph. Each is made where nothing was, and what is there
before it is made stays. -/

namespace Oath.Store
open Contracts Registry Resolve Unix

/-! ## An entry and the directories above it -/

def entryLimits (env : LinkEnvironment) (place : List Name) : Limits where
  dirs := {loc | ∃ init, init <+: place ∧ init ≠ place ∧ loc = env.staged init}
  files := ∅
  links := {env.staged place}
  removed := ∅

section Entry
variable {env : LinkEnvironment} {place other dest : List Name} {k k' : Kernel}

theorem starts_of_entryLimits (h : env.staged other ∈ (entryLimits env place).all) :
    other <+: place := by
  rcases h with ((⟨init, hinit, -, heq⟩ | hnone) | heq) | hnone
  · exact staged_injective env heq ▸ hinit
  · exact hnone.elim
  · obtain rfl := staged_injective env heq
    exact List.prefix_rfl
  · exact hnone.elim

theorem makes_placeDirs (hne : place ≠ [])
    (hfree : LinkFree k.files (way env.project (stageName :: place))) :
    Makes (Within (dirsOnly (entryLimits env place).dirs))
      (createDirAll env.faults (.ofNames env.project (stageName :: place.dropLast))) k := by
  have hsplit := List.dropLast_append_getLast hne
  have hway : wholeWay env.project (stageName :: place.dropLast) =
      way env.project (stageName :: place) := by
    have hinit : wholeWay env.project (stageName :: place.dropLast) =
        way env.project (stageName :: (place.dropLast ++ [place.getLast hne])) := wholeWay_init
    rw [hinit, hsplit]
  apply makes_createDirAll
  · exact hfree.mono ((way_subset _ _).trans hway.le)
  · rw [hway]
    intro loc hloc
    exact mem_way_staged.mp hloc

theorem makes_placeDir (hne : place ≠ [])
    (hfree : LinkFree k.files (way env.project (stageName :: place))) :
    Makes (Within (entryLimits env place))
      (createDirAll env.faults (.ofNames env.project (stageName :: place.dropLast))) k := by
  refine (makes_placeDirs hne hfree).mono (Within.mono ⟨le_rfl, ?_, ?_, ?_⟩)
  · exact Set.empty_subset _
  · exact Set.empty_subset _
  · exact Set.empty_subset _

theorem notMem_placeDirs (env : LinkEnvironment) (place : List Name) :
    env.staged place ∉ (dirsOnly (entryLimits env place).dirs).all := by
  rintro (((⟨init, -, hproper, heq⟩ | hnone) | hnone) | hnone)
  · exact hproper (staged_injective env heq).symm
  all_goals exact hnone.elim

theorem makes_placeLink {target : List Component}
    (hfree : LinkFree k.files (way env.project (stageName :: place))) :
    Makes (Within (entryLimits env place))
      (symlink env.faults target (.ofNames env.project (stageName :: place))) k :=
  makes_symlink hfree rfl

theorem linkFree_next {ε α : Type} {x : EStateM ε Kernel α} {a : α}
    (hfree : LinkFree k.files (way env.project (stageName :: place)))
    (hmakes : Makes (Within (entryLimits env place)) x k) (hx : x k = .ok a k') :
    LinkFree k'.files (way env.project (stageName :: place)) := by
  refine hmakes.inv_ok hx
    (I := fun fs => LinkFree fs (way env.project (stageName :: place)))
    (fun fs effect hbefore hwithin => linkFree_of_within hbefore hwithin ?_) hfree
  rintro loc rfl
  exact not_mem_own_way

/-! ## Where links lead -/

theorem commonLength_map (source dest : List Name) :
    commonLength (source.map .normal) (dest.map .normal) = commonNames source dest := by
  fun_induction commonNames source dest with
  | case1 as b bs ih => simp [commonLength, ih]
  | case2 a as b bs hne => simp [commonLength, hne]
  | case3 source dest hshort =>
    cases source with
    | nil => simp [commonLength]
    | cons a as =>
      cases dest with
      | nil => simp [commonLength]
      | cons b bs => exact (hshort a as b bs rfl rfl).elim

theorem pathdiffRelative_eq (hne : place ≠ []) :
    pathdiffRelative (.ofNames env.project (stageName :: place))
      (.ofNames env.project (stageName :: dest)) = relativeParts place.dropLast dest := by
  have hparent : (Path.ofNames env.project (stageName :: place)).parent.parts =
      (stageName :: place.dropLast).map .normal := by
    rw [Path.parent_ofNames, List.dropLast_cons_of_ne_nil hne]
    rfl
  have hcommon : commonLength ((stageName :: place.dropLast).map .normal)
      ((stageName :: dest).map .normal) = commonNames place.dropLast dest + 1 := by
    rw [commonLength_map, commonNames, if_pos rfl]
  have hdest : (Path.ofNames env.project (stageName :: dest)).parts =
      (stageName :: dest).map .normal := rfl
  unfold pathdiffRelative relativeParts
  simp only [hparent, hdest, hcommon, List.length_map, List.length_cons]
  simp only [Nat.add_sub_add_right, List.map_cons, List.drop_succ_cons, List.map_drop]

/-- The link is there and leads to the place. -/
def LinkedTo (env : LinkEnvironment) (fs : LinkedFiles) (place dest : List Name) : Prop :=
  fs.content? (env.staged place) = some (.symlink (relativeParts place.dropLast dest))

/-- There is no link, or it leads to the place. -/
def NoneOr (env : LinkEnvironment) (fs : LinkedFiles) (place dest : List Name) : Prop :=
  fs.content? (env.staged place) = none ∨ LinkedTo env fs place dest

theorem LinkedTo.next {ε α : Type} {x : EStateM ε Kernel α} {a : α} {w : List Name}
    (h : LinkedTo env k.files w dest) (hmakes : Makes (Within (entryLimits env place)) x k)
    (hx : x k = .ok a k') : LinkedTo env k'.files w dest :=
  hmakes.content?_kept hx (Set.notMem_empty _) (Set.notMem_empty _) h

theorem NoneOr.next {ε α : Type} {x : EStateM ε Kernel α} {a : α} {w : List Name}
    (h : NoneOr env k.files w dest) (hmakes : Makes (Within (entryLimits env place)) x k)
    (hx : x k = .ok a k') (hthere : w <+: place → NoneOr env k'.files w dest) :
    NoneOr env k'.files w dest := by
  by_cases hstarts : w <+: place
  · exact hthere hstarts
  · have hsame := hmakes.content?_eq hx fun hmem => hstarts (starts_of_entryLimits hmem)
    unfold NoneOr LinkedTo
    rw [hsame]
    exact h

theorem makes_symlinkTo {message : String} {source : Path}
    (hfree : LinkFree k.files (way env.project (stageName :: place))) :
    Makes (Within (entryLimits env place))
      (symlinkTo env message (.ofNames env.project (stageName :: place)) source) k :=
  makes_withErrors (makes_placeLink hfree)

theorem linkedTo_of_symlinkTo {message : String} (hne : place ≠ [])
    (hfree : LinkFree k.files (way env.project (stageName :: place)))
    (h : symlinkTo env message (.ofNames env.project (stageName :: place))
      (.ofNames env.project (stageName :: dest)) k = .ok () k') :
    LinkedTo env k'.files place dest := by
  have hlink := withErrors_eq_ok.mp h
  rw [pathdiffRelative_eq hne] at hlink
  exact content?_eq_symlink.mpr (entryAt?_of_symlink hfree hlink)

/-! ## Scopes -/

theorem nestedDir_eq {dir : List Name} {name : String} (h : IsInstallPath (nameParts name)) :
    nestedDir (.ofNames env.project (stageName :: dir)) name =
      .ofNames env.project (stageName :: (dir ++ nameParts name).dropLast) := by
  have hscope := scope_of_valid h
  rw [List.dropLast_append_of_ne_nil h.ne_nil, hscope]
  unfold nestedDir
  split_ifs
  · rw [Path.join_ofNames]
    rfl
  · rw [List.append_nil]

theorem makes_makeScope {dir : List Name} {name : String} (h : IsInstallPath (nameParts name))
    (hfree : LinkFree k.files (way env.project (stageName :: (dir ++ nameParts name)))) :
    Makes (Within (entryLimits env (dir ++ nameParts name)))
      (makeScope env (.ofNames env.project (stageName :: dir)) name) k := by
  have hnested : nestedDir (.ofNames env.project (stageName :: dir)) name =
      .ofNames env.project (stageName :: (dir ++ nameParts name).dropLast) := nestedDir_eq h
  unfold makeScope
  split_ifs with hscoped
  · rw [nestedDir, if_pos hscoped] at hnested
    rw [hnested]
    have hne := List.append_ne_nil_of_right_ne_nil dir h.ne_nil
    exact makes_withErrors (makes_placeDir hne hfree)
  · exact makes_pure ()

end Entry

/-! ## Links to packages -/

section Links
variable {env : LinkEnvironment} {k k' : Kernel} {dir dest : List Name} {name message : String}
  {result result' : LinkResult}

/-- A link from within a package. -/
theorem makes_linkInside {source : Path} (hname : IsInstallPath (nameParts name))
    (hparts : components (asBytes name) = (nameParts name).map .normal)
    (hfree : LinkFree k.files (way env.project (stageName :: (dir ++ nameParts name)))) :
    Makes (Within (entryLimits env (dir ++ nameParts name)))
      (linkInside env (.ofNames env.project (stageName :: dir)) name source result) k := by
  have hne := List.append_ne_nil_of_right_ne_nil dir hname.ne_nil
  have hmkdir : Makes (Within (entryLimits env (dir ++ nameParts name)))
      (orText (createDirAll env.faults
        (nestedDir (.ofNames env.project (stageName :: dir)) name))) k := by
    rw [nestedDir_eq hname]
    exact makes_withErrors (makes_placeDir hne hfree)
  refine makes_bind hmkdir fun _ k₁ hmade => ?_
  refine makes_bind (makes_read _) fun there k₂ hread => ?_
  obtain ⟨-, rfl⟩ := read_eq_ok.mp hread
  split_ifs
  · rw [joinText_eq env hparts]
    refine makes_bind (makes_symlinkTo (linkFree_next hfree hmkdir hmade)) fun _ _ _ => ?_
    exact makes_pure _
  · exact makes_pure _

theorem linkInside_noneOr (hname : IsInstallPath (nameParts name))
    (hparts : components (asBytes name) = (nameParts name).map .normal)
    (hfree : LinkFree k.files (way env.project (stageName :: (dir ++ nameParts name))))
    (h : linkInside env (.ofNames env.project (stageName :: dir)) name
      (.ofNames env.project (stageName :: dest)) result k = .ok result' k')
    (hbefore : NoneOr env k.files (dir ++ nameParts name) dest) :
    NoneOr env k'.files (dir ++ nameParts name) dest := by
  have hne := List.append_ne_nil_of_right_ne_nil dir hname.ne_nil
  obtain ⟨_, k₁, hmade, h1⟩ := EStateM.bind_eq_ok.mp h
  obtain ⟨there, k₂, hread, h2⟩ := EStateM.bind_eq_ok.mp h1
  obtain ⟨-, rfl⟩ := read_eq_ok.mp hread
  have hdir := withErrors_eq_ok.mp hmade
  rw [nestedDir_eq hname] at hdir
  have hmakes := makes_placeDir hne hfree
  split_ifs at h2
  · obtain ⟨_, k₃, hlink, hpure⟩ := EStateM.bind_eq_ok.mp h2
    obtain ⟨-, rfl⟩ := EStateM.pure_eq_ok.mp hpure
    rw [joinText_eq env hparts] at hlink
    exact Or.inr (linkedTo_of_symlinkTo hne (linkFree_next hfree hmakes hdir) hlink)
  · obtain ⟨-, rfl⟩ := EStateM.pure_eq_ok.mp h2
    -- the directories are above the link
    have hsame := (makes_placeDirs hne hfree).content?_eq hdir (notMem_placeDirs env _)
    unfold NoneOr LinkedTo
    rw [hsame]
    exact hbefore

theorem makes_virtualScope {key : String} (hname : IsInstallPath (nameParts name))
    (hfree : LinkFree k.files
      (way env.project (stageName :: modulePlace (virtualPlace key) (nameParts name)))) :
    Makes (Within (entryLimits env (modulePlace (virtualPlace key) (nameParts name))))
      (makeScope env (env.virtualModules key) name) k := by
  have hmakes : Makes
      (Within (entryLimits env (modulePlace (virtualPlace key) [] ++ nameParts name)))
      (makeScope env (.ofNames env.project (stageName :: modulePlace (virtualPlace key) [])) name)
        k := makes_makeScope hname hfree
  exact hmakes

/-- A link beside a package. -/
theorem makes_linkBeside {key source : String} (hname : IsInstallPath (nameParts name))
    (hparts : components (asBytes name) = (nameParts name).map .normal)
    (hfree : LinkFree k.files
      (way env.project (stageName :: modulePlace (virtualPlace key) (nameParts name)))) :
    Makes (Within (entryLimits env (modulePlace (virtualPlace key) (nameParts name))))
      (linkBeside env message key name source result) k := by
  refine makes_bind (makes_read _) fun there k₁ hread => ?_
  obtain ⟨-, rfl⟩ := read_eq_ok.mp hread
  split_ifs
  · have hscope : Makes (Within (entryLimits env (modulePlace (virtualPlace key) (nameParts name))))
        (makeScope env (env.virtualModules key) name) k₁ :=
      makes_virtualScope hname hfree
    refine makes_bind hscope fun _ k₂ hmade => ?_
    rw [virtualDir_eq env key hparts]
    refine makes_bind (makes_symlinkTo (linkFree_next hfree hscope hmade)) fun _ _ _ => ?_
    exact makes_pure _
  · exact makes_pure _

/-- The link is there when the package it leads to is, and no other link was. -/
theorem linkBeside_linked {key source : String} (hname : IsInstallPath (nameParts name))
    (hparts : components (asBytes name) = (nameParts name).map .normal)
    (hfree : LinkFree k.files
      (way env.project (stageName :: modulePlace (virtualPlace key) (nameParts name))))
    (hsource : k.files.pathExists (env.virtualDir source name) = true)
    (h : linkBeside env message key name source result k = .ok result' k')
    (hbefore : NoneOr env k.files (modulePlace (virtualPlace key) (nameParts name))
      (modulePlace (virtualPlace source) (nameParts name))) :
    LinkedTo env k'.files (modulePlace (virtualPlace key) (nameParts name))
      (modulePlace (virtualPlace source) (nameParts name)) := by
  have hne : modulePlace (virtualPlace key) (nameParts name) ≠ [] := List.cons_ne_nil _ _
  obtain ⟨there, k₁, hread, h1⟩ := EStateM.bind_eq_ok.mp h
  obtain ⟨rfl, rfl⟩ := read_eq_ok.mp hread
  have hdir := virtualDir_eq env key hparts
  split_ifs at h1 with hnew
  · obtain ⟨_, k₂, hscope, h2⟩ := EStateM.bind_eq_ok.mp h1
    obtain ⟨_, k₃, hlink, hpure⟩ := EStateM.bind_eq_ok.mp h2
    obtain ⟨-, rfl⟩ := EStateM.pure_eq_ok.mp hpure
    have hmakes : Makes (Within (entryLimits env (modulePlace (virtualPlace key) (nameParts name))))
        (makeScope env (env.virtualModules key) name) k₁ :=
      makes_virtualScope hname hfree
    rw [hdir, virtualDir_eq env source hparts] at hlink
    exact linkedTo_of_symlinkTo hne (linkFree_next hfree hmakes hscope) hlink
  · obtain ⟨-, rfl⟩ := EStateM.pure_eq_ok.mp h1
    have hthere : k'.files.pathExists (env.virtualDir key name) = true := by
      simpa [hsource] using hnew
    rcases hbefore with hnone | hlinked
    · rw [hdir] at hthere
      obtain ⟨loc, hfind⟩ := pathExists_eq_true.mp hthere
      exact absurd (canonicalize_eq_ok.mpr hfind)
        (canonicalize_none hfree (content?_eq_none.mp hnone))
    · exact hlinked

end Links

/-! ## The tree as it grows -/

section Tree
variable {graph : DepGraph} {env : LinkEnvironment} {first : LinkedFiles} {k k' : Kernel}
  {place : List Name} {row child : String × DepNode}

/-- The packages are at their places, and links are made at certain places only. -/
structure Grown (graph : DepGraph) (env : LinkEnvironment) (first fs : LinkedFiles) : Prop where
  rooted : Rooted fs
  links (relative : List Name) : IsLink fs (env.staged relative) → LinkPlace graph relative
  homes (row : String × DepNode) : row ∈ graph.nodes.rows →
    fs.entryAt? (env.staged (homeOf row)) = some .directory
  gaps (row : String × DepNode) (init : List Name) : row ∈ graph.nodes.rows →
    init <+: pathOf row.2 → init ≠ pathOf row.2 →
      fs.content? (env.staged (modulePlace (virtualPlace row.1) (init ++ [nodeModules]))) = none
  held (row : String × DepNode) (rest : List Name) : row ∈ graph.nodes.rows →
    rest.head? ≠ some nodeModules → fs.content? (env.staged (homeOf row ++ rest)) =
      first.content? (env.storedAt row ++ rest)

/-- Above a link there are directories, up to the stage. -/
theorem Grown.way {fs : LinkedFiles} (h : Grown graph env first fs) (hnamed : Named graph)
    (hplace : LinkPlace graph place) : LinkFree fs (way env.project (stageName :: place)) := by
  intro loc hloc hlink
  obtain ⟨init, hinit, hproper, rfl⟩ := mem_way_staged.mp hloc
  obtain ⟨row, hrow, hhome⟩ := hnamed.linkPlace_way hplace (h.links init hlink) hinit hproper
  have hopen : Open fs env.project (stageName :: homeOf row) :=
    open_of_directory h.rooted (h.homes row hrow)
  obtain ⟨target, htarget⟩ := hlink
  have hdir := hopen (stageName :: init) (List.cons_ne_nil _ _)
    (List.cons_prefix_cons.mpr ⟨rfl, hhome⟩)
  have hsame : fs.entryAt? (env.project ++ stageName :: init) = some (.symlink target) := htarget
  rw [hdir] at hsame
  cases hsame

theorem Grown.next {ε α : Type} {x : EStateM ε Kernel α} {a : α}
    (h : Grown graph env first k.files) (hnamed : Named graph) (hplace : LinkPlace graph place)
    (hmakes : Makes (Within (entryLimits env place)) x k) (hx : x k = .ok a k') :
    Grown graph env first k'.files where
  rooted := rooted_kept hmakes hx h.rooted
  links := by
    refine hmakes.inv_ok hx
      (I := fun fs => ∀ relative, IsLink fs (env.staged relative) → LinkPlace graph relative)
      (fun fs effect hbefore hwithin relative hlink => ?_) h.links
    rcases hwithin.isLink hlink with hold | hnew
    · exact hbefore relative hold
    · obtain rfl := staged_injective env hnew
      exact hplace
  homes := by
    intro row hrow
    have hdir := content?_eq_directory.mpr (h.homes row hrow)
    exact content?_eq_directory.mp
      (hmakes.content?_kept hx (Set.notMem_empty _) (Set.notMem_empty _) hdir)
  gaps := by
    intro row init hrow hinit hproper
    rw [← h.gaps row init hrow hinit hproper]
    exact hmakes.content?_eq hx fun hmem =>
      hnamed.gap_above hrow hinit hproper hplace (starts_of_entryLimits hmem)
  held := by
    intro row rest hrow hrest
    rw [← h.held row rest hrow hrest]
    by_cases hnil : rest = []
    · subst hnil
      have hdir : k.files.content? (env.staged (homeOf row ++ [])) = some .directory := by
        rw [List.append_nil]
        exact content?_eq_directory.mpr (h.homes row hrow)
      rw [hdir]
      exact hmakes.content?_kept hx (Set.notMem_empty _) (Set.notMem_empty _) hdir
    · exact hmakes.content?_eq hx fun hmem =>
        hnamed.files_above hrow hnil hrest hplace (starts_of_entryLimits hmem)

theorem Grown.exists {fs : LinkedFiles} (h : Grown graph env first fs) (hnamed : Named graph)
    (hrow : row ∈ graph.nodes.rows) :
    fs.pathExists (env.virtualDir row.1 (installNameOf row.2)) = true := by
  rw [virtualDir_eq env row.1 (validateInstallName_ok (hnamed.valid row hrow)).1]
  exact pathExists_open (open_of_directory h.rooted (h.homes row hrow)) (List.cons_ne_nil _ _)

/-! ### Edges -/

/-- A package depends on another under the name that one is installed with. -/
structure Edge (graph : DepGraph) (row child : String × DepNode) : Prop where
  mem_row : row ∈ graph.nodes.rows
  mem_child : child ∈ graph.nodes.rows
  depends : (installNameOf child.2, child.1) ∈ row.2.dependencies.rows

theorem Edge.installed (h : Edge graph row child) : Installed graph (pathOf child.2) :=
  ⟨child, h.mem_child, rfl⟩

theorem eq_of_key {a b : String × DepNode} (ha : a ∈ graph.nodes.rows)
    (hb : b ∈ graph.nodes.rows) (h : a.1 = b.1) : a = b := by
  obtain ⟨key, node⟩ := a
  obtain ⟨key', node'⟩ := b
  obtain rfl : key = key' := h
  have hfind := OrderedMap.find?_eq_some.mpr ha
  rw [OrderedMap.find?_eq_some.mpr hb] at hfind
  rw [Option.some.inj hfind]

theorem Edge.eq_of_path {other : String × DepNode} (h : Edge graph row child)
    (h' : Edge graph row other) (heq : pathOf child.2 = pathOf other.2) : child = other := by
  have hname : installNameOf child.2 = installNameOf other.2 := nameParts_injective heq
  have hfind := OrderedMap.find?_eq_some.mpr h.depends
  rw [hname, OrderedMap.find?_eq_some.mpr h'.depends] at hfind
  exact eq_of_key h.mem_child h'.mem_child (Option.some.inj hfind).symm

def insideOf (row child : String × DepNode) : List Name :=
  modulePlace (homeOf row) (pathOf child.2)

def besideOf (row child : String × DepNode) : List Name :=
  modulePlace (virtualPlace row.1) (pathOf child.2)

theorem Edge.insidePlace (h : Edge graph row child) : LinkPlace graph (insideOf row child) :=
  .inside row _ h.mem_row h.installed

theorem Edge.besidePlace (h : Edge graph row child) : LinkPlace graph (besideOf row child) :=
  .beside row _ h.mem_row h.installed

theorem Edge.inside_above (h : Edge graph row child) (hnamed : Named graph)
    (hplace : LinkPlace graph place) (hstarts : insideOf row child <+: place) :
    place = insideOf row child := hnamed.inside_above h.mem_row h.installed hplace hstarts

theorem Edge.beside_above (h : Edge graph row child) (hnamed : Named graph)
    (hother : pathOf child.2 ≠ pathOf row.2) (hplace : LinkPlace graph place)
    (hstarts : besideOf row child <+: place) : place = besideOf row child :=
  hnamed.beside_above h.mem_row h.installed hother hplace hstarts

/-- No link of an edge leads to a wrong place, and those that are done are there. An edge to a
package of the same name is left out. -/
structure Building (graph : DepGraph) (env : LinkEnvironment) (first : LinkedFiles)
    (done : Set ((String × DepNode) × (String × DepNode))) (fs : LinkedFiles) : Prop where
  grown : Grown graph env first fs
  record : ¬IsFile fs (env.staged [oathName, LinkEnvironment.manifestName])
  inside (row child : String × DepNode) : Edge graph row child →
    NoneOr env fs (insideOf row child) (homeOf child)
  beside (row child : String × DepNode) : Edge graph row child →
    pathOf child.2 ≠ pathOf row.2 → NoneOr env fs (besideOf row child) (homeOf child)
  linked (row child : String × DepNode) : Edge graph row child →
    pathOf child.2 ≠ pathOf row.2 → (row, child) ∈ done →
      LinkedTo env fs (besideOf row child) (homeOf child)

variable {done : Set ((String × DepNode) × (String × DepNode))}

/-- A link is no file. -/
theorem not_isFile_next {ε α : Type} {x : EStateM ε Kernel α} {a : α} {loc : Location}
    (hnone : ¬IsFile k.files loc) (hmakes : Makes (Within (entryLimits env place)) x k)
    (hx : x k = .ok a k') : ¬IsFile k'.files loc := by
  refine hmakes.inv_ok hx (I := fun fs => ¬IsFile fs loc)
    (fun fs effect hbefore hwithin hfile => ?_) hnone
  rcases hwithin.isFile hfile with hold | hnew
  · exact hbefore hold
  · exact hnew.elim

theorem Building.next {ε α : Type} {x : EStateM ε Kernel α} {a : α}
    (h : Building graph env first done k.files) (hnamed : Named graph)
    (hplace : LinkPlace graph place) (hmakes : Makes (Within (entryLimits env place)) x k)
    (hx : x k = .ok a k')
    (hinside : ∀ row child, Edge graph row child → place = insideOf row child →
      NoneOr env k'.files place (homeOf child))
    (hbeside : ∀ row child, Edge graph row child → pathOf child.2 ≠ pathOf row.2 →
      place = besideOf row child → NoneOr env k'.files place (homeOf child)) :
    Building graph env first done k'.files where
  grown := h.grown.next hnamed hplace hmakes hx
  record := not_isFile_next h.record hmakes hx
  inside := by
    intro row child hedge
    refine (h.inside row child hedge).next hmakes hx fun hstarts => ?_
    have heq := hedge.inside_above hnamed hplace hstarts
    rw [← heq]
    exact hinside row child hedge heq
  beside := by
    intro row child hedge hother
    refine (h.beside row child hedge hother).next hmakes hx fun hstarts => ?_
    have heq := hedge.beside_above hnamed hother hplace hstarts
    rw [← heq]
    exact hbeside row child hedge hother heq
  linked := by
    intro row child hedge hother hdone
    exact (h.linked row child hedge hother hdone).next hmakes hx

theorem insideOf_length (row child : String × DepNode) : 2 < (insideOf row child).length := by
  have hhome := homeOf_length row
  unfold insideOf modulePlace
  rw [List.length_append]
  omega

theorem besideOf_length (row child : String × DepNode) : 2 < (besideOf row child).length := by
  unfold besideOf
  rw [beside_eq]
  simp only [List.length_cons]
  omega

/-- A link that is not below the directory of a key is of no edge. -/
theorem Building.next_short {ε α : Type} {x : EStateM ε Kernel α} {a : α}
    (h : Building graph env first done k.files) (hnamed : Named graph)
    (hplace : LinkPlace graph place) (hshort : place.length ≤ 2)
    (hmakes : Makes (Within (entryLimits env place)) x k) (hx : x k = .ok a k') :
    Building graph env first done k'.files := by
  refine h.next hnamed hplace hmakes hx (fun row child _ heq => ?_) (fun row child _ _ heq => ?_)
  · have hlength := insideOf_length row child
    rw [← heq] at hlength
    omega
  · have hlength := besideOf_length row child
    rw [← heq] at hlength
    omega

end Tree

end Oath.Store
