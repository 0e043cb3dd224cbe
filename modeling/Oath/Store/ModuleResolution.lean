import Oath.Store.ExactTree
import Oath.Store.GraphPhases

/-! The link of a package graph as a whole: a module that a package looks up by the name of one of
its dependencies is the package that the graph has for it. -/

namespace Oath.Store
open Contracts Registry Resolve Unix

section Build
variable {graph : DepGraph} {order : GraphOrder graph} {env : LinkEnvironment}
  {first : LinkedFiles} {k k' : Kernel} {result : LinkResult}

/-! ## The stage -/

/-- In the empty stage there is only the directory of the packages. -/
theorem housing_nil (hrooted : Rooted k.files)
    (hgone : k.files.entryAt? env.stageRoot = none ∨ k.files.pathExists env.stage = false)
    (h : createDirAll env.faults env.oathDir k = .ok () k') : Housing env k.files [] k'.files := by
  have habsent := stage_absent hrooted hgone h
  have hbare : Bare (fun _ => True) env k.files := bare_of_absent hrooted trivial habsent
  have hmakes := makes_oathDir hbare
  have hbare' := hbare.next hmakes h (fun _ _ _ _ => trivial) rfl
  refine ⟨hbare'.rooted, hbare'.links, ?_, ?_, fun row hnone => absurd hnone List.not_mem_nil⟩
  · apply Unchanged.of_ok hmakes h
    rintro loc (((⟨init, -, rfl⟩ | hnone) | hnone) | hnone)
    · exact staged_mem_trees env init
    all_goals exact hnone.elim
  · intro relative hthere
    by_cases hmem : env.staged relative ∈ (oathLimits env).all
    · rcases hmem with ((⟨init, hinit, heq⟩ | hnone) | hnone) | hnone
      · exact Or.inl (staged_injective env heq ▸ hinit)
      all_goals exact hnone.elim
    · have hbefore : k.files.entryAt? (env.staged relative) = none := by
        have hnone := hrooted.none_below habsent relative
        rwa [staged_append, List.nil_append] at hnone
      have hsame := hmakes.content?_eq h hmem
      rw [content?_eq_none.mpr hbefore, content?_eq_none] at hsame
      exact absurd hsame hthere

/-- What a tree is like in which the modules of a graph are found. -/
structure Shape (graph : DepGraph) (env : LinkEnvironment) (first : LinkedFiles)
    (held : List Name → Option Content) : Prop where
  links (relative : List Name) (target : List Component) :
    held relative = some (.symlink target) → LinkPlace graph relative
  homes (row : String × DepNode) : row ∈ graph.nodes.rows → held (homeOf row) = some .directory
  gaps (row : String × DepNode) (init : List Name) : row ∈ graph.nodes.rows →
    init <+: pathOf row.2 → init ≠ pathOf row.2 →
      held (modulePlace (virtualPlace row.1) (init ++ [nodeModules])) = none
  packages (row : String × DepNode) (rest : List Name) : row ∈ graph.nodes.rows →
    rest.head? ≠ some nodeModules →
      held (homeOf row ++ rest) = first.content? (env.storedAt row ++ rest)
  inside (row child : String × DepNode) : Edge graph row child →
    held (insideOf row child) = none ∨ held (insideOf row child) =
      some (.symlink (relativeParts (insideOf row child).dropLast (homeOf child)))
  beside (row child : String × DepNode) : Edge graph row child → pathOf child.2 ≠ pathOf row.2 →
    held (besideOf row child) =
      some (.symlink (relativeParts (besideOf row child).dropLast (homeOf child)))

/-- No link is made on the way to the manifest. -/
theorem Grown.manifestWay {fs : LinkedFiles} (h : Grown graph env first fs)
    (hnamed : Named graph) : LinkFree fs
      (wholeWay env.project (stageName :: [oathName, LinkEnvironment.manifestName])) := by
  intro loc hloc hlink
  obtain ⟨init, hinit, rfl⟩ := mem_wholeWay_staged.mp hloc
  rcases linkPlace_short (h.links init hlink) hinit.length_le with hinstalled | ⟨name, rfl⟩
  · rcases (hnamed.installed hinstalled).1 with ⟨part, rfl, -⟩ | ⟨scope, part, rfl, hscope⟩
    · -- a package of this name has no link, since the directory of the packages is there
      obtain ⟨row, hrow, -⟩ := hinstalled
      obtain rfl : part = oathName := (List.cons_prefix_cons.mp hinit).1
      have hopen : Open fs env.project (stageName :: homeOf row) :=
        open_of_directory h.rooted (h.homes row hrow)
      have hdir : fs.entryAt? (env.staged [oathName]) = some .directory :=
        hopen _ (List.cons_ne_nil _ _)
          (List.cons_prefix_cons.mpr ⟨rfl, List.cons_prefix_cons.mpr ⟨rfl, List.nil_prefix⟩⟩)
      obtain ⟨target, htarget⟩ := hlink
      rw [hdir] at htarget
      cases htarget
    · obtain rfl : scope = oathName := (List.cons_prefix_cons.mp hinit).1
      exact absurd hscope (by decide)
  · have heq : binName = oathName := (List.cons_prefix_cons.mp hinit).1
    exact absurd heq (by decide)

/-- The manifest is neither a link nor below the directory of a key. -/
theorem writeManifest_shape {bytes : List UInt8} (hnamed : Named graph)
    (h : Building graph env first Set.univ k.files)
    (hrun : writeFile env.faults env.manifestFile bytes k = .ok () k') :
    Rooted k'.files ∧ Shape graph env first fun relative =>
      k'.files.content? (env.staged relative) := by
  have hfree := h.grown.manifestWay hnamed
  have hmakes : Makes
      (Within (filesOnly {env.staged [oathName, LinkEnvironment.manifestName]}))
      (writeFile env.faults env.manifestFile bytes) k := makes_writeFile hfree h.record
  have hsame : ∀ relative, 2 < relative.length →
      k'.files.content? (env.staged relative) = k.files.content? (env.staged relative) := by
    intro relative hlength
    apply hmakes.content?_eq hrun
    rintro (((hnone | heq) | hnone) | hnone)
    · exact hnone.elim
    · obtain rfl := staged_injective env heq
      exact absurd hlength (lt_irrefl 2)
    · exact hnone.elim
    · exact hnone.elim
  have hlength : ∀ row : String × DepNode, ∀ rest, 2 < (homeOf row ++ rest).length := by
    intro row rest
    have hhome := homeOf_length row
    rw [List.length_append]
    omega
  refine ⟨rooted_kept hmakes hrun h.grown.rooted, ?_, ?_, ?_, ?_, ?_, ?_⟩
  · intro relative target hheld
    refine hmakes.inv_ok hrun
      (I := fun fs => ∀ relative, IsLink fs (env.staged relative) → LinkPlace graph relative)
      (fun fs effect hbefore hwithin relative hlink => ?_) h.grown.links relative
      ⟨target, content?_eq_symlink.mp hheld⟩
    rcases hwithin.isLink hlink with hold | hnew
    · exact hbefore relative hold
    · exact hnew.elim
  · intro row hrow
    have hhome := hlength row []
    rw [List.append_nil] at hhome
    rw [hsame _ hhome]
    exact content?_eq_directory.mpr (h.grown.homes row hrow)
  · intro row init hrow hinit hproper
    rw [hsame]
    · exact h.grown.gaps row init hrow hinit hproper
    · rw [beside_eq]
      simp only [List.length_cons, List.length_append]
      omega
  · intro row rest hrow hrest
    rw [hsame _ (hlength row rest)]
    exact h.grown.held row rest hrow hrest
  · intro row child hedge
    rw [hsame _ (insideOf_length row child)]
    exact h.inside row child hedge
  · intro row child hedge hother
    rw [hsame _ (besideOf_length row child)]
    exact h.linked row child hedge hother (Set.mem_univ _)

theorem buildTree_shape (hconsistent : Consistent graph) (hnamed : Named graph)
    (hstored : ∀ row ∈ graph.nodes.rows, InStore env row.2 k.files) (hrooted : Rooted k.files)
    (hgone : k.files.entryAt? env.stageRoot = none ∨ k.files.pathExists env.stage = false)
    (h : buildTree env order k = .ok result k') :
    Rooted k'.files ∧ Shape graph env k.files fun relative =>
      k'.files.content? (env.staged relative) := by
  obtain ⟨_, k₁, hoath, h1⟩ := EStateM.bind_eq_ok.mp h
  obtain ⟨_, k₂, hvirtual, h2⟩ := EStateM.bind_eq_ok.mp h1
  obtain ⟨_, k₃, hhoisted, h3⟩ := EStateM.bind_eq_ok.mp h2
  obtain ⟨_, k₄, hnested, h4⟩ := EStateM.bind_eq_ok.mp h3
  obtain ⟨_, k₅, hdependencies, h5⟩ := EStateM.bind_eq_ok.mp h4
  obtain ⟨_, k₆, hpeers, h6⟩ := EStateM.bind_eq_ok.mp h5
  obtain ⟨_, k₇, hbinDir, h7⟩ := EStateM.bind_eq_ok.mp h6
  obtain ⟨_, k₈, hbins, h8⟩ := EStateM.bind_eq_ok.mp h7
  obtain ⟨_, k₉, hmanifest, hpure⟩ := EStateM.bind_eq_ok.mp h8
  obtain ⟨-, rfl⟩ := EStateM.pure_eq_ok.mp hpure
  have hhousing := housing_nil hrooted hgone (withErrors_eq_ok.mp hoath)
  obtain ⟨done, hall, hhoused⟩ := linkVirtuals_house hnamed
    (fun row hrow => (hstored row hrow).provided) hhousing hvirtual
  have hb₂ := hhoused.building hnamed hall hstored
  have hb₃ : Building graph env k.files ∅ k₃.files :=
    linkEach_building (fun _ hmem => installed_of_hoisted hmem)
      (fun _ _ _ _ _ hname hbefore hrun => linkHoisted_building hnamed hname hbefore hrun)
      hb₂ hhoisted
  have hb₄ : Building graph env k.files ∅ k₄.files :=
    linkEach_building (fun _ hmem => carries_of_nested hconsistent hmem)
      (fun _ _ _ _ _ hedge hbefore hrun => linkNested_building hnamed hedge hbefore hrun)
      hb₃ hnested
  have hb₅ := linkDependencies_building hconsistent hnamed hb₄ hdependencies
  have hb₆ : Building graph env k.files Set.univ k₆.files :=
    linkEach_building (fun _ hmem => row_of_peerEdge hmem)
      (fun _ _ _ _ _ hedge hbefore hrun => linkPeer_building hnamed hedge hbefore hrun)
      hb₅ hpeers
  have hb₇ := binDir_building hnamed hb₆ hbinDir
  have hb₈ : Building graph env k.files Set.univ k₈.files :=
    linkEach_building (P := fun _ => True) (fun _ _ => trivial)
      (fun _ _ _ _ _ _ hbefore hrun => linkHoistedBins_building hnamed hbefore hrun) hb₇ hbins
  exact writeManifest_shape hnamed hb₈ (withErrors_eq_ok.mp hmanifest)

/-! ## The moves -/

theorem setLiveAside_keeps (hrooted : Rooted k.files) (h : setLiveAside env k = .ok () k') :
    Rooted k'.files ∧ Unchanged env k.files k'.files ∧ ∀ rest,
      k'.files.content? (env.stageRoot ++ rest) = k.files.content? (env.stageRoot ++ rest) := by
  obtain ⟨live, k₁, hread, h1⟩ := EStateM.bind_eq_ok.mp h
  obtain ⟨-, rfl⟩ := read_eq_ok.mp hread
  split_ifs at h1
  · exact rename_aside hrooted (withErrors_eq_ok.mp h1)
  · obtain ⟨-, rfl⟩ := EStateM.pure_eq_ok.mp h1
    exact ⟨hrooted, .refl env _, fun _ => rfl⟩

theorem promoteTree_moves (hrooted : Rooted k.files) (h : promoteTree env k = .ok () k') :
    Rooted k'.files ∧ Unchanged env k.files k'.files ∧ ∀ rest,
      k'.files.content? (env.liveRoot ++ rest) = k.files.content? (env.stageRoot ++ rest) := by
  obtain ⟨moved, k₁, hmoved, h1⟩ := EStateM.bind_eq_ok.mp h
  cases moved with
  | ok u =>
    obtain ⟨-, rfl⟩ := EStateM.pure_eq_ok.mp h1
    exact rename_promote hrooted (attempt_eq_ok.mp hmoved)
  | error e =>
    obtain ⟨_, k₂, -, hthrow⟩ := EStateM.bind_eq_ok.mp h1
    exact absurd hthrow EStateM.throw_ne_ok

theorem dropBackup_keeps (hrooted : Rooted k.files) (h : dropBackup env k = .ok () k') :
    Rooted k'.files ∧ Unchanged env k.files k'.files ∧ ∀ rest,
      k'.files.content? (env.liveRoot ++ rest) = k.files.content? (env.liveRoot ++ rest) := by
  have hmakes : Makes (Within (removesBelow (env.project ++ [backupName]))) (dropBackup env)
      k := by
    refine makes_bind (makes_read _) fun backed k₁ hread => ?_
    obtain ⟨-, rfl⟩ := read_eq_ok.mp hread
    split_ifs
    · have hremoves : Makes (Within (removesBelow (env.project ++ [backupName])))
          (removeDirAll env.faults env.backup) k₁ :=
        makes_removeDirAll hrooted (linkFree_singleton _ _ _)
      exact makes_bind (makes_attempt hremoves) fun _ _ _ => makes_pure ()
    · exact makes_pure ()
  exact ⟨rooted_kept hmakes h hrooted, Unchanged.of_ok hmakes h (removesBelow_trees (by simp)),
    live_of_removes (by decide) hmakes h⟩

/-- The three moves that put the stage in the place of the live tree. -/
theorem moves_live {k₁ k₂ : Kernel} (hrooted : Rooted k.files)
    (haside : setLiveAside env k = .ok () k₁) (hpromote : promoteTree env k₁ = .ok () k₂)
    (hdrop : dropBackup env k₂ = .ok () k') :
    Rooted k'.files ∧ Unchanged env k.files k'.files ∧ ∀ relative,
      k'.files.content? (env.liveRoot ++ relative) = k.files.content? (env.staged relative) := by
  obtain ⟨hrooted₁, hsame₁, hstaged⟩ := setLiveAside_keeps hrooted haside
  obtain ⟨hrooted₂, hsame₂, hmoved⟩ := promoteTree_moves hrooted₁ hpromote
  obtain ⟨hrooted₃, hsame₃, hlive⟩ := dropBackup_keeps hrooted₂ hdrop
  refine ⟨hrooted₃, (hsame₁.trans hsame₂).trans hsame₃, fun relative => ?_⟩
  rw [hlive, hmoved, hstaged, stageRoot_append]

end Build

/-! ## What is found -/

section Find
variable {graph : DepGraph} {env : LinkEnvironment} {first fs : LinkedFiles} {root : Location}
  {row child : String × DepNode}

theorem Shape.opens (hshape : Shape graph env first fun relative => fs.content? (root ++ relative))
    (hrooted : Rooted fs) (hrow : row ∈ graph.nodes.rows) : Open fs root (homeOf row) :=
  open_of_directory hrooted (content?_eq_directory.mp (hshape.homes row hrow))

/-- A link to a package leads to the directory of the package. -/
theorem Shape.leads {dir names : List Name}
    (hshape : Shape graph env first fun relative => fs.content? (root ++ relative))
    (hrooted : Rooted fs) (hchild : child ∈ graph.nodes.rows) (hne : names ≠ [])
    (hlink : fs.content? (root ++ modulePlace dir names) =
      some (.symlink (relativeParts (modulePlace dir names).dropLast (homeOf child)))) :
    fs.canonicalize (.ofNames (root ++ dir) (nodeModules :: names)) =
      .ok (root ++ homeOf child) := by
  obtain ⟨up, last, rfl⟩ : ∃ up last, names = up ++ [last] :=
    ⟨_, _, (List.dropLast_append_getLast hne).symm⟩
  have hsplit : modulePlace dir (up ++ [last]) = dir ++ nodeModules :: up ++ [last] := by
    unfold modulePlace
    rw [List.append_assoc, List.cons_append]
  rw [hsplit, List.dropLast_concat] at hlink
  have hentry := content?_eq_symlink.mp hlink
  have hparent : fs.entryAt? (root ++ (dir ++ nodeModules :: up)) = some .directory := by
    apply hrooted _ last
    rw [List.append_assoc, hentry]
    exact Option.some_ne_none _
  have hopen : Open fs (root ++ dir) (nodeModules :: up) := by
    apply open_of_directory hrooted
    rwa [List.append_assoc]
  have hplace : root ++ dir ++ nodeModules :: up = root ++ (dir ++ nodeModules :: up) :=
    List.append_assoc _ _ _
  have hthere : fs.entryAt? (root ++ dir ++ (nodeModules :: up ++ [last])) =
      some (.symlink (relativeParts (dir ++ nodeModules :: up) (homeOf child))) := by
    rw [← hentry]
    simp only [List.append_assoc, List.cons_append]
  exact canonicalize_link hopen hthere hplace (hshape.opens hrooted hchild)
    (List.cons_ne_nil _ _)

/-- Nothing else is found from within a package. -/
theorem Shape.inside_found {other : Location}
    (hshape : Shape graph env first fun relative => fs.content? (root ++ relative))
    (hrooted : Rooted fs) (hnamed : Named graph) (hedge : Edge graph row child)
    (h : fs.canonicalize (.ofNames (root ++ homeOf row) (nodeModules :: pathOf child.2)) =
      .ok other) : other = root ++ homeOf child := by
  have hplace : root ++ homeOf row ++ nodeModules :: pathOf child.2 =
      root ++ insideOf row child := List.append_assoc _ _ _
  rcases hshape.inside row child hedge with hnone | hlink
  · have hfree : LinkFree fs (way (root ++ homeOf row) (nodeModules :: pathOf child.2)) := by
      rintro loc ⟨init, -, hinit, hproper, rfl⟩ hlink
      obtain ⟨target, htarget⟩ := hlink
      rw [List.append_assoc] at htarget
      have hheld := content?_eq_symlink.mpr htarget
      have hstarts : homeOf row ++ init <+: insideOf row child :=
        (List.prefix_append_right_inj _).mpr hinit
      have hne : homeOf row ++ init ≠ insideOf row child :=
        fun heq => hproper (List.append_cancel_left heq)
      obtain ⟨row', hrow', habove⟩ := hnamed.linkPlace_way hedge.insidePlace
        (hshape.links _ target hheld) hstarts hne
      have hdir : fs.entryAt? (root ++ (homeOf row ++ init)) = some .directory :=
        hshape.opens hrooted hrow' _
          (List.append_ne_nil_of_left_ne_nil (List.cons_ne_nil _ _) _) habove
      rw [htarget] at hdir
      cases hdir
    have hgone : fs.entryAt? (root ++ homeOf row ++ nodeModules :: pathOf child.2) = none := by
      rw [hplace]
      exact content?_eq_none.mp hnone
    exact absurd h (canonicalize_none hfree hgone)
  · have hleads := hshape.leads hrooted hedge.mem_child
      (hnamed.path hedge.mem_child).ne_nil hlink
    rw [hleads] at h
    exact (Except.ok.inj h).symm

/-- From the directory of a package, the name of a dependency is looked up to the package that the
graph has for it. -/
theorem Shape.resolves
    (hshape : Shape graph env first fun relative => fs.content? (root ++ relative))
    (hrooted : Rooted fs) (hnamed : Named graph) (hedge : Edge graph row child)
    (hkey : asBytes (virtualKeyComponent row.1) ≠ nodeModules)
    (hown : pathOf child.2 = pathOf row.2 → child = row) :
    lookup fs nodeModules (root ++ homeOf row) (pathOf child.2) = some (root ++ homeOf child) := by
  have hpath := hnamed.path hedge.mem_child
  have hhome : ∀ row : String × DepNode, root ++ homeOf row =
      root ++ virtualPlace row.1 ++ nodeModules :: pathOf row.2 := fun row =>
    (List.append_assoc _ _ _).symm
  rw [hhome row]
  apply lookup_of_above
  · intro hlast
    rw [List.getLast?_append] at hlast
    exact hkey (Option.some.inj hlast)
  · by_cases hsame : pathOf child.2 = pathOf row.2
    · -- the package itself
      obtain rfl := hown hsame
      have hopen : Open fs (root ++ virtualPlace child.1) (nodeModules :: pathOf child.2) := by
        apply open_of_directory hrooted
        rw [← hhome child]
        exact content?_eq_directory.mp (hshape.homes child hedge.mem_child)
      rw [canonicalize_open hopen (List.cons_ne_nil _ _), ← hhome child]
    · exact hshape.leads hrooted hedge.mem_child hpath.ne_nil (hshape.beside row child hedge hsame)
  · intro init hne hinit other hfound
    by_cases hwhole : init = pathOf row.2
    · subst hwhole
      rw [← hhome row] at hfound
      exact hshape.inside_found hrooted hnamed hedge hfound
    · have hgap : fs.entryAt? (root ++ virtualPlace row.1 ++ nodeModules :: init ++
          [nodeModules]) = none := by
        have hnone := content?_eq_none.mp (hshape.gaps row init hedge.mem_row hinit hwhole)
        rw [← hnone]
        unfold modulePlace
        simp only [List.append_assoc, List.cons_append]
      exact absurd hfound (canonicalize_absent hrooted hgap)

end Find

section Link
variable {graph : DepGraph} {order : GraphOrder graph} {env : LinkEnvironment} {k k' : Kernel}
  {result : LinkResult}

/-- After a link that has built the tree, a module that a package looks up by the name of a
dependency is the package that the graph has for it, as it is in the store. -/
theorem linkAll_resolves (hrooted : Rooted k.files) (hconsistent : Consistent graph)
    (hstored : ∀ row ∈ graph.nodes.rows, InStore env row.2 k.files)
    (hfresh : ∀ k₁, recoverLinkTransaction env k = .ok () k₁ →
      isUpToDate env graph k₁.files = false)
    (h : linkAll env order k = .ok result k') :
    ∀ row ∈ graph.nodes.rows, ∀ dependency ∈ row.2.dependencies.rows,
      ∃ child, graph.nodes.find? dependency.2 = some child ∧
        lookup k'.files nodeModules (env.liveRoot ++ homeOf row) (nameParts dependency.1) =
          some (env.liveRoot ++ homeOf (dependency.2, child)) ∧
        ∀ rest, rest.head? ≠ some nodeModules →
          k'.files.content? (env.liveRoot ++ (homeOf (dependency.2, child) ++ rest)) =
            k.files.content? (env.storedAt (dependency.2, child) ++ rest) := by
  obtain ⟨_, k₁, hcheck, h1⟩ := EStateM.bind_eq_ok.mp h
  obtain ⟨_, k₂, hrecover, h2⟩ := EStateM.bind_eq_ok.mp h1
  obtain ⟨upToDate, k₃, hread, h3⟩ := EStateM.bind_eq_ok.mp h2
  obtain ⟨rfl, rfl⟩ := read_eq_ok.mp hread
  obtain ⟨hvalid, rfl⟩ := checkGraphNames_eq_ok.mp hcheck
  rw [hfresh _ hrecover, if_neg Bool.false_ne_true] at h3
  obtain ⟨_, k₄, hbuild, h4⟩ := EStateM.bind_eq_ok.mp h3
  obtain ⟨_, k₅, haside, h5⟩ := EStateM.bind_eq_ok.mp h4
  obtain ⟨_, k₆, hpromote, h6⟩ := EStateM.bind_eq_ok.mp h5
  obtain ⟨_, k₇, hdrop, hpure⟩ := EStateM.bind_eq_ok.mp h6
  obtain ⟨-, rfl⟩ := EStateM.pure_eq_ok.mp hpure
  have hnamed := named_of_validated hconsistent.linkable hvalid
  obtain ⟨hrooted₂, hsame, hgone⟩ := recoverLinkTransaction_ok hrooted hrecover
  obtain ⟨hrooted₄, hshape⟩ := buildTree_shape hconsistent hnamed
    (fun row hrow => (hstored row hrow).kept hsame) hrooted₂ hgone hbuild
  obtain ⟨hrooted₇, -, hlive⟩ := moves_live hrooted₄ haside hpromote hdrop
  have hheld : (fun relative => k'.files.content? (env.liveRoot ++ relative)) =
      fun relative => k₄.files.content? (env.staged relative) := by
    funext relative
    exact hlive relative
  rw [← hheld] at hshape
  intro row hrow dependency hdependency
  obtain ⟨child, hedge, hname, -⟩ := edge_of_dependency hconsistent hrow hdependency
  have hfind := OrderedMap.find?_eq_some.mpr hedge.mem_child
  refine ⟨child, hfind, ?_, fun rest hrest => ?_⟩
  · rw [← hname]
    apply hshape.resolves hrooted₇ hnamed hedge (virtualKey_ne hconsistent hrow)
    intro hpath
    obtain ⟨child', hfind', -, hself⟩ := hconsistent.dependencies row dependency hrow hdependency
    obtain rfl := Option.some.inj (hfind.symm.trans hfind')
    exact eq_of_key hedge.mem_child hrow (hself (nameParts_injective hpath))
  · have hpackage := hshape.packages (dependency.2, child) rest hedge.mem_child hrest
    refine hpackage.trans (hsame _ ?_)
    exact (hstored _ hedge.mem_child).apart.apart rest

end Link

/-! ## A package that depends on another -/

section Pair

def leafOf (name : String) (dependencies : OrderedMap String String) : DepNode where
  name
  aliasName := none
  version := "1.0.0"
  resolved := name
  integrity := none
  dependencies
  hasInstallScript := false
  dev := false
  optional := false
  peerDependencies := .empty
  optionalPeers := .empty
  resolvedPeers := .empty

def pairGraph : DepGraph where
  nodes := ⟨[("x@1.0.0", leafOf "x" ⟨[("y", "y@1.0.0")], by decide⟩),
    ("y@1.0.0", leafOf "y" .empty)], by decide⟩
  roots := ["x@1.0.0"]

def rowOrder (graph : DepGraph) : GraphOrder graph where
  nodes := graph.nodes.rows
  dependencies node := node.dependencies.rows
  peers node := node.resolvedPeers.rows
  nodes_perm := .refl _
  dependencies_perm _ := .refl _
  peers_perm _ := .refl _

/-- BLAKE3 of the sources of the two packages. -/
def pairDigest (identity : List UInt8) : String :=
  if identity = asBytes "resolved=x\nintegrity=" then
    "e91db7f1bf1a91d3ff1fc25cf6561df22eac7218772db26f41d58e16f800a088"
  else "f4ac058b17583e6c81b4191fc8846eae1ee0bc67be79ba62c6194f7eb5333faa"

def pairEnvironment : LinkEnvironment where
  project := textPlace ["repo"]
  store := ⟨textPlace ["store"], pairDigest⟩
  parseJson _ := none
  encodePlan _ := []
  faults _ _ := none

def variantOf (name : String) (rest : List String) : Location :=
  textPlace (["store", ".variants", name, "1.0.0",
    pairDigest (asBytes ("resolved=" ++ name ++ "\nintegrity="))] ++ rest)

def pairRows : List (Location × Entry) :=
  [([], .directory), (textPlace ["repo"], .directory), (textPlace ["store"], .directory),
    (textPlace ["store", ".variants"], .directory)] ++
  (["x", "y"].flatMap fun name => [(textPlace ["store", ".variants", name], .directory),
    (textPlace ["store", ".variants", name, "1.0.0"], .directory),
    (variantOf name [], .directory), (variantOf name ["index.js"], .file 0)])

/-- The package `x` brings a `y` of its own. -/
def bundledRows : List (Location × Entry) :=
  [(variantOf "x" ["node_modules"], .directory), (variantOf "x" ["node_modules", "y"], .directory),
    (variantOf "x" ["node_modules", "y", "index.js"], .file 0)]

def pairKernel : Kernel where
  files := ⟨⟨pairRows, by decide⟩, fun _ => asBytes "module.exports = 1\n"⟩
  effects := []
  calls := 0

def bundledKernel : Kernel where
  files := ⟨⟨pairRows ++ bundledRows, by decide⟩, fun _ => asBytes "module.exports = 1\n"⟩
  effects := []
  calls := 0

theorem pair_consistent : Consistent pairGraph where
  keys := by decide
  keyModules := by decide
  modules := by decide
  executables := by decide
  dependencies := by
    have hall : ∀ row ∈ pairGraph.nodes.rows, ∀ dependency ∈ row.2.dependencies.rows,
        (pairGraph.nodes.find? dependency.2).map installNameOf = some dependency.1 ∧
          dependency.1 ≠ installNameOf row.2 := by decide
    intro row dependency hrow hdependency
    obtain ⟨hname, hother⟩ := hall row hrow dependency hdependency
    obtain ⟨child, hfind, hchild⟩ := Option.map_eq_some_iff.mp hname
    refine ⟨child, hfind, hchild, fun heq => ?_⟩
    exact absurd (hchild.symm.trans heq) hother

theorem pair_inStore :
    ∀ row ∈ pairGraph.nodes.rows, InStore pairEnvironment row.2 pairKernel.files := by
  have hplace : ∀ row ∈ pairGraph.nodes.rows,
      placeOf (pairEnvironment.graphSource row.2) = variantOf row.2.name [] := by decide
  have hdirs : ∀ row ∈ pairGraph.nodes.rows,
      pairKernel.files.entryAt? (placeOf (pairEnvironment.graphSource row.2)) =
        some .directory := by decide
  have hbundles : ∀ row ∈ pairGraph.nodes.rows, ∀ dependency ∈ row.2.dependencies.rows,
      pairKernel.files.content? (placeOf (pairEnvironment.graphSource row.2) ++
        modulePlace [] (nameParts dependency.1)) = none := by decide
  have hfree : ∀ loc, ¬IsLink pairKernel.files loc := not_isLink_of_rows (by decide)
  intro row hrow
  refine ⟨⟨fun loc _ => hfree loc, fun rest target hlink => ?_, fun rest => ?_⟩, hdirs row hrow,
    hbundles row hrow⟩
  · exact hfree _ ⟨target, content?_eq_symlink.mp hlink⟩
  · apply notMem_trees
    rw [hplace row hrow]
    exact repo_not_store

theorem linkAll_resolves_pair :
    ∃ result k', linkAll pairEnvironment (rowOrder pairGraph) pairKernel = .ok result k' ∧
      ∀ row ∈ pairGraph.nodes.rows, ∀ dependency ∈ row.2.dependencies.rows,
        ∃ child, pairGraph.nodes.find? dependency.2 = some child ∧
          lookup k'.files nodeModules (pairEnvironment.liveRoot ++ homeOf row)
            (nameParts dependency.1) =
              some (pairEnvironment.liveRoot ++ homeOf (dependency.2, child)) ∧
          ∀ rest, rest.head? ≠ some nodeModules →
            k'.files.content?
                (pairEnvironment.liveRoot ++ (homeOf (dependency.2, child) ++ rest)) =
              pairKernel.files.content?
                (pairEnvironment.storedAt (dependency.2, child) ++ rest) := by
  have hruns : leaves (fun _ => true)
      (linkAll pairEnvironment (rowOrder pairGraph) pairKernel) = true := by decide +kernel
  have hfresh : leaves (fun fs => !isUpToDate pairEnvironment pairGraph fs)
      (recoverLinkTransaction pairEnvironment pairKernel) = true := by decide +kernel
  obtain ⟨result, k', hrun, -⟩ := leaves_eq_true hruns
  refine ⟨result, k', hrun, ?_⟩
  refine linkAll_resolves (rooted_of_rows (by decide +kernel)) pair_consistent pair_inStore
    (fun k₁ hrecover => ?_) hrun
  rw [hrecover] at hfresh
  simpa [leaves] using hfresh

/-- The directory of a package of the pair, after the link. -/
def pairHome (name : String) : Location :=
  textPlace ["repo", "node_modules", ".oath", name ++ "@1.0.0", "node_modules", name]

/-- A package that brings a dependency of its own finds that one. -/
theorem linkAll_bundled :
    Rooted bundledKernel.files ∧ Consistent pairGraph ∧
      (∀ row ∈ pairGraph.nodes.rows,
        bundledKernel.files.pathExists (pairEnvironment.graphSource row.2) = true ∧
          pairEnvironment.liveRoot ++ homeOf row = pairHome row.2.name) ∧
      ∃ result k', linkAll pairEnvironment (rowOrder pairGraph) bundledKernel = .ok result k' ∧
        k'.files.pathExists (.ofNames (pairHome "y") []) = true ∧
        lookup k'.files nodeModules (pairHome "x") (nameParts "y") =
          some (pairHome "x" ++ textPlace ["node_modules", "y"]) ∧
        lookup k'.files nodeModules (pairHome "x") (nameParts "y") ≠ some (pairHome "y") := by
  have htest : leaves (fun fs => fs.pathExists (.ofNames (pairHome "y") []) &&
      lookup fs nodeModules (pairHome "x") (nameParts "y") =
        some (pairHome "x" ++ textPlace ["node_modules", "y"]))
      (linkAll pairEnvironment (rowOrder pairGraph) bundledKernel) = true := by decide +kernel
  obtain ⟨result, k', hrun, hfound⟩ := leaves_eq_true htest
  obtain ⟨hthere, hlookup⟩ : k'.files.pathExists (.ofNames (pairHome "y") []) = true ∧
      lookup k'.files nodeModules (pairHome "x") (nameParts "y") =
        some (pairHome "x" ++ textPlace ["node_modules", "y"]) := by simpa using hfound
  refine ⟨rooted_of_rows (by decide), pair_consistent, by decide, result, k', hrun,
    hthere, hlookup, ?_⟩
  rw [hlookup]
  decide

end Pair

end Oath.Store
