import Oath.Store.Copies
import Oath.Store.StageBuild

/-! The nodes of a plan, one after another: what each of them leaves at its place in the stage, and
that the nodes that follow leave it there. -/

namespace Oath.Store
open Contracts Registry Resolve Unix

/-! ## What a place holds of its package -/

section Plan
variable (plan : PlacementPlan)

/-- A directory above the place of a node, or the directory of its executables. -/
def OnWay (place : List Name) : Prop :=
  ∃ node ∈ plan.nodes, ∃ names, namesOf node.location = some names ∧
    (place <+: names ∨ node.link = false ∧ place <+: names.dropLast ++ [binName])

/-- An executable of a node may be linked here. -/
def BinPlace (place : List Name) : Prop :=
  ∃ node ∈ plan.nodes, node.link = false ∧ ∃ names, namesOf node.location = some names ∧
    ∃ bin, place = names.dropLast ++ [binName, bin]

/-- The place belongs to a node below. -/
def OfNodeBelow (names place : List Name) : Prop :=
  ∃ node ∈ plan.nodes, ∃ names', namesOf node.location = some names' ∧
    names <+: names' ∧ names' ≠ names ∧ names' <+: place

/-- A place holds what the package has there. Where the package has nothing, there may be a
directory for what is below, or a link to an executable. -/
def HoldsOf (place : List Name) (stored held : Option Content) : Prop :=
  held = stored ∨ stored = none ∧
    (held = some .directory ∧ OnWay plan place ∨
      (∃ target, held = some (.symlink target)) ∧ BinPlace plan place)

/-- All that is at or below the place of a node, but for the nodes below, is of its package. -/
def HoldsPackage (store fs : LinkedFiles) (source root : Location) (names : List Name) : Prop :=
  ∀ rest, ¬OfNodeBelow plan names (names ++ rest) →
    HoldsOf plan (names ++ rest) (store.content? (source ++ rest))
      (fs.content? (root ++ (names ++ rest)))

end Plan

section Holds
variable {plan : PlacementPlan} {A : Limits} {fs : LinkedFiles} {effect : Effect}

theorem HoldsOf.kept {place : List Name} {stored : Option Content} {loc : Location}
    (h : HoldsOf plan place stored (fs.content? loc)) (hwithin : Within A fs effect)
    (hfiles : loc ∉ A.files) (hremoved : loc ∉ A.removed)
    (hdirs : loc ∈ A.dirs → OnWay plan place) (hlinks : loc ∈ A.links → BinPlace plan place) :
    HoldsOf plan place stored ((effect.apply fs).content? loc) := by
  rcases hwithin.content?_apply hfiles hremoved with hsame | ⟨hnone, hnew⟩
  · rw [hsame]
    exact h
  · rw [hnone] at h
    -- there was nothing, so the package has nothing here
    have hstored : stored = none := by
      rcases h with heq | ⟨heq, -⟩
      · exact heq.symm
      · exact heq
    refine Or.inr ⟨hstored, ?_⟩
    rcases hnew with ⟨hmem, hdir⟩ | ⟨hmem, hlink⟩
    · exact Or.inl ⟨hdir, hdirs hmem⟩
    · exact Or.inr ⟨hlink, hlinks hmem⟩

end Holds

/-! ## Nodes that follow -/

section Follow
variable {env : LinkEnvironment} {plan : PlacementPlan} {node : PlacementNode}
  {names names' place : List Name} {dirs files : Set (List Name)}

def LinkEnvironment.stageRoot (env : LinkEnvironment) : Location := env.project ++ [stageName]

theorem stageRoot_append (env : LinkEnvironment) (place : List Name) :
    env.stageRoot ++ place = env.staged place := by
  unfold LinkEnvironment.stageRoot LinkEnvironment.staged
  rw [List.append_assoc]
  rfl

theorem staged_prefix_iff : env.staged names <+: env.staged place ↔ names <+: place := by
  unfold LinkEnvironment.staged
  rw [List.prefix_append_right_inj]
  exact ⟨fun h => (List.cons_prefix_cons.mp h).2, fun h => List.cons_prefix_cons.mpr ⟨rfl, h⟩⟩

/-- A place that a later node touches as its own is the place of a node below. -/
theorem not_own {rest : List Name} (hnode : node ∈ plan.nodes)
    (hnames : namesOf node.location = some names') (horder : ¬names' <+: names)
    (hforeign : ¬OfNodeBelow plan names (names ++ rest)) : ¬names' <+: names ++ rest := by
  intro hstarts
  have hnames' := List.prefix_append names rest
  rcases List.prefix_or_prefix_of_prefix hstarts hnames' with habove | hbelow
  · exact horder habove
  · refine hforeign ⟨node, hnode, names', hnames, hbelow, ?_, hstarts⟩
    rintro rfl
    exact horder List.prefix_rfl

theorem notMem_nodeLimits_files (hown : ¬names' <+: place) :
    env.staged place ∉ (nodeLimits env node names' dirs files).files := by
  unfold nodeLimits
  split_ifs
  · exact Set.notMem_empty _
  · rintro (⟨rest, -, heq⟩ | hnone)
    · exact hown ⟨rest, (staged_injective env heq).symm⟩
    · exact hnone.elim

theorem notMem_nodeLimits_removed (hown : ¬names' <+: place) :
    env.staged place ∉ (nodeLimits env node names' dirs files).removed := by
  unfold nodeLimits
  split_ifs
  · exact fun hstarts => hown (staged_prefix_iff.mp hstarts)
  · rintro (hstarts | hnone)
    · exact hown (staged_prefix_iff.mp hstarts)
    · exact hnone.elim

theorem onWay_of_nodeLimits (hnode : node ∈ plan.nodes)
    (hnames : namesOf node.location = some names') (hown : ¬names' <+: place)
    (hmem : env.staged place ∈ (nodeLimits env node names' dirs files).dirs) :
    OnWay plan place := by
  unfold nodeLimits at hmem
  split_ifs at hmem with hlink
  · obtain ⟨init, hstarts, -, heq⟩ := hmem
    obtain rfl := staged_injective env heq
    exact ⟨node, hnode, names', hnames, Or.inl hstarts⟩
  · rcases hmem with (⟨init, hstarts, heq⟩ | ⟨rest, -, heq⟩) | ⟨init, hstarts, heq⟩
    · obtain rfl := staged_injective env heq
      exact ⟨node, hnode, names', hnames, Or.inl hstarts⟩
    · exact absurd ⟨rest, (staged_injective env heq).symm⟩ hown
    · obtain rfl := staged_injective env heq
      exact ⟨node, hnode, names', hnames, Or.inr ⟨by simpa using hlink, hstarts⟩⟩

theorem binPlace_of_nodeLimits (hnode : node ∈ plan.nodes)
    (hnames : namesOf node.location = some names') (hown : ¬names' <+: place)
    (hmem : env.staged place ∈ (nodeLimits env node names' dirs files).links) :
    BinPlace plan place := by
  unfold nodeLimits at hmem
  split_ifs at hmem with hlink
  · have heq : place = names' := staged_injective env hmem
    exact absurd (heq ▸ List.prefix_rfl) hown
  · rcases hmem with hnone | ⟨bin, heq⟩
    · exact hnone.elim
    · exact ⟨node, hnode, by simpa using hlink, names', hnames, bin, staged_injective env heq⟩

/-- A package stays as it is while later nodes are placed. -/
theorem HoldsPackage.kept {store fs : LinkedFiles} {source : Location} {effect : Effect}
    (h : HoldsPackage plan store fs source env.stageRoot names) (hnode : node ∈ plan.nodes)
    (hnames : namesOf node.location = some names') (horder : ¬names' <+: names)
    (hwithin : Within (nodeLimits env node names' dirs files) fs effect) :
    HoldsPackage plan store (effect.apply fs) source env.stageRoot names := by
  intro rest hforeign
  have hown := not_own hnode hnames horder hforeign
  have hbefore := h rest hforeign
  rw [stageRoot_append] at hbefore ⊢
  exact hbefore.kept hwithin (notMem_nodeLimits_files hown) (notMem_nodeLimits_removed hown)
    (onWay_of_nodeLimits hnode hnames hown) (binPlace_of_nodeLimits hnode hnames hown)

end Follow

/-! ## What is outside the stage -/

/-- The trees that a link makes, moves and removes. -/
def LinkEnvironment.trees (env : LinkEnvironment) : Set Location :=
  {loc | ∃ tree ∈ [nodeModules, stageName, backupName], env.project ++ [tree] <+: loc}

/-- Where a path is when no link is on its way. -/
def placeOf (p : Path) : Location := resolve p.base p.parts

/-- Where the content store has the package of a node. -/
def LinkEnvironment.storePlace (env : LinkEnvironment) (node : PlacementNode) : Location :=
  placeOf (env.sourceOf node)

/-- The package at a path of the store: files and directories, reached through no link, and apart
from the trees of the link. -/
structure KeptApart (env : LinkEnvironment) (source : Path) (fs : LinkedFiles) : Prop where
  free (loc : Location) : loc <+: placeOf source → ¬IsLink fs loc
  plain (rest : List Name) (target : List Component) :
    fs.content? (placeOf source ++ rest) ≠ some (.symlink target)
  apart (rest : List Name) : placeOf source ++ rest ∉ env.trees

def Unchanged (env : LinkEnvironment) (fs fs' : LinkedFiles) : Prop :=
  ∀ loc, loc ∉ env.trees → fs'.content? loc = fs.content? loc

section Outside
variable {env : LinkEnvironment} {source : Path} {names : List Name}
  {fs fs' fs'' : LinkedFiles} {A : Limits} {k k' : Kernel}

theorem Unchanged.refl (env : LinkEnvironment) (fs : LinkedFiles) : Unchanged env fs fs :=
  fun _ _ => rfl

theorem Unchanged.trans (h : Unchanged env fs fs') (h' : Unchanged env fs' fs'') :
    Unchanged env fs fs'' := fun loc hloc => (h' loc hloc).trans (h loc hloc)

theorem Unchanged.of_ok {ε α : Type} {x : EStateM ε Kernel α} {a : α}
    (hmakes : Makes (Within A) x k) (hx : x k = .ok a k') (hall : A.all ⊆ env.trees) :
    Unchanged env k.files k'.files :=
  fun _ hloc => hmakes.content?_eq hx fun hmem => hloc (hall hmem)

theorem below_tree {tree : Name} (htree : tree ∈ [nodeModules, stageName, backupName])
    (names : List Name) : below (env.project ++ tree :: names) ⊆ env.trees := by
  intro loc hloc
  refine ⟨tree, htree, List.IsPrefix.trans ⟨names, ?_⟩ hloc⟩
  rw [List.append_assoc]
  rfl

theorem notMem_trees {loc : Location} (h : ¬env.project <+: loc) : loc ∉ env.trees := by
  rintro ⟨tree, -, hbelow⟩
  exact h ((List.prefix_append _ _).trans hbelow)

theorem staged_mem_trees (env : LinkEnvironment) (names : List Name) :
    env.staged names ∈ env.trees :=
  below_tree (by simp) names List.prefix_rfl

theorem packageDirFor_eq (store : ContentStore) (name version : String)
    (resolved integrity : Option String) :
    ∃ names, names ≠ [] ∧
      store.packageDirFor name version resolved integrity = .ofNames store.root names := by
  have hinRoot : ∀ first : String, ∀ rest : List String, ∃ names, names ≠ [] ∧
      store.inRoot (first :: rest) = .ofNames store.root names := by
    intro first rest
    refine ⟨(first :: rest).map Registry.asBytes, List.cons_ne_nil _ _, ?_⟩
    unfold ContentStore.inRoot Path.ofNames
    rw [List.map_map]
    rfl
  unfold ContentStore.packageDirFor ContentStore.packageDir
  split_ifs
  · exact hinRoot _ _
  · exact hinRoot _ _

theorem placeOf_ofNames (base : Location) (names : List Name) :
    placeOf (.ofNames base names) = base ++ names := resolve_normal base names

theorem KeptApart.kept (h : KeptApart env source fs) (hsame : Unchanged env fs fs') :
    KeptApart env source fs' where
  free := by
    intro loc hstarts
    obtain ⟨rest, hrest⟩ := hstarts
    have hout : loc ∉ env.trees := by
      rintro ⟨tree, htree, hbelow⟩
      refine h.apart [] ⟨tree, htree, ?_⟩
      rw [List.append_nil]
      exact hbelow.trans ⟨rest, hrest⟩
    rintro ⟨target, htarget⟩
    rw [← content?_eq_symlink, hsame loc hout, content?_eq_symlink] at htarget
    exact h.free loc ⟨rest, hrest⟩ ⟨target, htarget⟩
  plain := by
    intro rest target
    rw [hsame _ (h.apart rest)]
    exact h.plain rest target
  apart := h.apart

/-- The path of the package leads to its place. -/
theorem KeptApart.find {loc base : Location} (h : KeptApart env (.ofNames base names) fs)
    (hfind : fs.find true (.ofNames base names) = .ok loc) : loc = base ++ names := by
  refine find_follow_plain ?_ hfind
  rintro place ⟨init, -, hstarts, rfl⟩
  apply h.free
  rw [placeOf_ofNames]
  exact (List.prefix_append_right_inj _).mpr hstarts

end Outside

/-! ## One node -/

section Node
variable {env : LinkEnvironment} {plan : PlacementPlan} {node : PlacementNode}
  {names : List Name} {k k' : Kernel} {result result' : LinkResult}

theorem removesBelow_staged (names : List Name) :
    (removesBelow (env.staged names)).all ⊆ env.trees := by
  rintro loc (((hnone | hnone) | hnone) | hbelow)
  · exact hnone.elim
  · exact hnone.elim
  · exact hnone.elim
  · exact below_tree (by simp) names hbelow

theorem near_subset_trees (names : List Name) :
    near env.project (stageName :: names) ⊆ env.trees := by
  rintro loc (hway | hbelow)
  · obtain ⟨init, -, rfl⟩ := mem_wholeWay_staged.mp hway
    exact staged_mem_trees env init
  · exact below_tree (by simp) names hbelow

/-- A copy of a package where nothing was, with the directories above. -/
theorem linkTree_copies {p : Path} {depth : ℕ} (hne : names ≠ [])
    (hready : Ready (fun _ => True) env names k.files)
    (hnone : k.files.entryAt? (env.staged names) = none) (happart : KeptApart env p k.files)
    (hp : ∃ stored, stored ≠ [] ∧ p = .ofNames env.store.root stored)
    (h : (do
      orText (createDirAll env.faults (env.inStage (names.map .normal)).parent)
      let source ← orText (readOk (·.find true p))
      orText (hardlinkDir env.faults depth source (env.inStage (names.map .normal)))) k =
        .ok () k') (rest : List Name) :
    k'.files.content? (env.staged (names ++ rest)) = k.files.content? (placeOf p ++ rest) := by
  obtain ⟨_, k₁, hparent, h1⟩ := EStateM.bind_eq_ok.mp h
  obtain ⟨source, k₂, hsource, hcopy⟩ := EStateM.bind_eq_ok.mp h1
  obtain ⟨hfind, rfl⟩ := readOk_eq_ok.mp (withErrors_eq_ok.mp hsource)
  have hparent := withErrors_eq_ok.mp hparent
  have hmakes := makes_createParent hne hready
  have hready₂ := hready.next hmakes hparent (fun _ _ _ _ => trivial) fun _ hnone => hnone.elim
  have hnone₂ : k₂.files.entryAt? (env.staged names) = none := by
    apply hmakes.inv_ok hparent (fun fs effect hbefore hwithin =>
      hwithin.stays_none hbefore ?_ (Set.notMem_empty _) (Set.notMem_empty _)) hnone
    rintro ⟨init, -, hproper, heq⟩
    exact hproper (staged_injective env heq).symm
  have hsame : Unchanged env k.files k₂.files := by
    apply Unchanged.of_ok hmakes hparent
    rintro loc (((⟨init, -, -, rfl⟩ | hnone) | hnone) | hnone)
    · exact staged_mem_trees env init
    all_goals exact hnone.elim
  obtain ⟨stored, -, rfl⟩ := hp
  have happart₂ := happart.kept hsame
  obtain rfl := happart₂.find hfind
  have happart' := happart₂.apart
  have hplain := happart₂.plain
  rw [placeOf_ofNames] at happart' hplain
  have hcopies := hardlinkDir_copies hready₂.rooted hready₂.free (List.cons_ne_nil _ _)
    (fun rest => hready₂.rooted.none_below hnone₂ rest) hplain
    (fun rest hmem => happart' rest (near_subset_trees names hmem))
    (withErrors_eq_ok.mp hcopy) rest
  rw [← staged_append, ← hsame _ (happart.apart rest), placeOf_ofNames]
  exact hcopies

/-- A package that has been placed is at its place as it is in the store. -/
theorem placeFromStore_copies (hne : names ≠ [])
    (hready : Ready (fun _ => True) env names k.files)
    (happart : KeptApart env (env.sourceOf node) k.files)
    (h : placeFromStore env node (env.inStage (names.map .normal)) k = .ok () k')
    (rest : List Name) :
    k'.files.content? (env.staged (names ++ rest)) =
      k.files.content? (env.storePlace node ++ rest) := by
  obtain ⟨_, k₁, hremove, h1⟩ := EStateM.bind_eq_ok.mp h
  obtain ⟨there, k₂, hthere, h2⟩ := EStateM.bind_eq_ok.mp h1
  obtain ⟨-, rfl⟩ := read_eq_ok.mp hthere
  obtain ⟨_, k₃, hensure, hcopy⟩ := EStateM.bind_eq_ok.mp h2
  obtain ⟨-, rfl⟩ := ensure_eq_ok.mp hensure
  have hremove := withErrors_eq_ok.mp hremove
  have hremoves : Makes (Within (removesBelow (env.staged names)))
      (removeExistingPath env.faults (env.inStage (names.map .normal))) k :=
    makes_removeExistingPath hready.rooted hready.free
  have hready₃ := hready.next hremoves hremove (fun _ _ _ _ => trivial) fun _ hnone => hnone.elim
  have hgone : k₃.files.entryAt? (env.staged names) = none :=
    entryAt?_of_removeExistingPath hready.rooted hready.free hremove
  have hsame : Unchanged env k.files k₃.files :=
    Unchanged.of_ok hremoves hremove (removesBelow_staged names)
  have hcopies := linkTree_copies hne hready₃ hgone (happart.kept hsame)
    (packageDirFor_eq _ _ _ _ _) hcopy rest
  rw [hcopies]
  exact hsame _ (happart.apart rest)

/-! ### Packages -/

/-- A package is there with the links to its executables. -/
theorem linkPackage_holds (hne : names ≠ []) (hnode : node ∈ plan.nodes)
    (hlink : node.link = false) (hnames : namesOf node.location = some names)
    (hready : Ready (fun _ => True) env names k.files) (hbins : BinsFree env names k.files)
    (happart : KeptApart env (env.sourceOf node) k.files)
    (h : linkPackage env false node (names.map .normal) result k = .ok result' k') :
    HoldsPackage plan k.files k'.files (env.storePlace node) env.stageRoot names := by
  obtain ⟨_, k₁, hplace, h1⟩ := EStateM.bind_eq_ok.mp h
  obtain ⟨bins, k₂, hread, hlinked⟩ := EStateM.bind_eq_ok.mp h1
  obtain ⟨-, rfl⟩ := read_eq_ok.mp hread
  have hcopied : HoldsPackage plan k.files k₂.files (env.storePlace node) env.stageRoot names := by
    intro rest _
    rw [stageRoot_append]
    exact Or.inl (placeFromStore_copies hne hready happart hplace rest)
  have hmakesPlace : Makes (Within (treeLimits env names Set.univ Set.univ))
      (placePackage env false node (names.map .normal) (env.inStage (names.map .normal))) k :=
    makes_placePackage hne (fun _ _ _ _ => trivial)
      (fun _ _ _ _ _ _ _ => ⟨fun _ => trivial, fun _ => trivial⟩) hready
  have hbins₂ : BinsFree env names k₂.files := hmakesPlace.inv_ok hplace
    (fun _ _ hfree hwithin => binsFree_of_within hfree hwithin (Set.empty_subset _)) hbins
  refine (makes_linkBins hne hbins₂).inv_ok hlinked
    (I := fun fs => HoldsPackage plan k.files fs (env.storePlace node) env.stageRoot names)
    (fun fs effect hholds hwithin => ?_) hcopied
  intro rest hforeign
  refine (hholds rest hforeign).kept hwithin (Set.notMem_empty _) (Set.notMem_empty _) ?_ ?_
  · rintro ⟨init, hstarts, heq⟩
    rw [stageRoot_append] at heq
    obtain rfl := staged_injective env heq
    exact ⟨node, hnode, names, hnames, Or.inr ⟨hlink, hstarts⟩⟩
  · rintro ⟨bin, heq⟩
    rw [stageRoot_append] at heq
    exact ⟨node, hnode, hlink, names, hnames, bin, staged_injective env heq⟩

/-! ### Workspace links -/

/-- The path of a target, from the project. -/
def targetPath (project : Location) (target : String) : List Component :=
  if isAbsolute (asBytes target) then components (asBytes target)
  else absoluteParts project ++ components (asBytes target)

/-- Where the link to a target leads: to its place, or to its path where nothing is there. -/
def LinksTo (env : LinkEnvironment) (fs : LinkedFiles) (target : String)
    (parts : List Component) : Prop :=
  ∃ project, fs.canonicalize ⟨[], absoluteParts env.project⟩ = .ok project ∧
    ((∃ place, fs.canonicalize ⟨[], targetPath project target⟩ = .ok place ∧
        parts = absoluteParts place) ∨
      fs.canonicalize ⟨[], targetPath project target⟩ = .error .notFound ∧
        parts = targetPath project target)

theorem checkAncestors_ok {fs : LinkedFiles} {project : Location} {target : String}
    {candidate parts : List Component} {n : ℕ} {ancestor : List Component}
    (h : checkAncestors fs project target candidate n ancestor = .ok parts) :
    parts = candidate := by
  induction n generalizing ancestor with
  | zero => cases h
  | succ n ih =>
    unfold checkAncestors at h
    split at h
    · split_ifs at h
      exact (Except.ok.inj h).symm
    · exact ih h
    · cases h

theorem linksTo_of_validated {target : String} {fs : LinkedFiles} {parts : List Component}
    (h : validatedWorkspaceTarget env.project target fs = .ok parts) :
    LinksTo env fs target parts := by
  unfold validatedWorkspaceTarget at h
  dsimp only at h
  split at h
  · next project hproject =>
    refine ⟨project, hproject, ?_⟩
    obtain ⟨_, hok, h1⟩ := Except.bind_eq_ok.mp h
    obtain rfl := Except.ok.inj hok
    split at h1
    · next place hplace =>
      split_ifs at h1
      exact Or.inl ⟨place, hplace, (Except.ok.inj h1).symm⟩
    · next hgone => exact Or.inr ⟨hgone, checkAncestors_ok h1⟩
    · cases h1
  · obtain ⟨_, hfailed, -⟩ := Except.bind_eq_ok.mp h
    cases hfailed

theorem linkWorkspace_links (hne : names ≠ [])
    (hready : Ready (fun _ => True) env names k.files)
    (h : linkWorkspace env node (env.inStage (names.map .normal)) k = .ok () k') :
    ∃ target parts fs, node.target = some target ∧ Unchanged env k.files fs ∧
      LinksTo env fs target parts ∧
        k'.files.content? (env.staged names) = some (.symlink parts) := by
  obtain ⟨_, k₁, hremove, h1⟩ := EStateM.bind_eq_ok.mp h
  obtain ⟨target, k₂, hrequired, h2⟩ := EStateM.bind_eq_ok.mp h1
  obtain ⟨htarget, rfl⟩ := required_eq_ok.mp hrequired
  obtain ⟨parts, k₃, hparts, h3⟩ := EStateM.bind_eq_ok.mp h2
  obtain rfl := checkedTarget_state hparts
  obtain ⟨_, k₄, hparent, hsymlink⟩ := EStateM.bind_eq_ok.mp h3
  have hremove := withErrors_eq_ok.mp hremove
  have hparent := withErrors_eq_ok.mp hparent
  have hremoves : Makes (Within (removesBelow (env.staged names)))
      (removeExistingPath env.faults (env.inStage (names.map .normal))) k :=
    makes_removeExistingPath hready.rooted hready.free
  have hready₃ := hready.next hremoves hremove (fun _ _ _ _ => trivial) fun _ hnone => hnone.elim
  have hready₄ := hready₃.next (makes_createParent hne hready₃) hparent (fun _ _ _ _ => trivial)
    fun _ hnone => hnone.elim
  have hvalidated : validatedWorkspaceTarget env.project target k₃.files = .ok parts := by
    unfold checkedTarget at hparts
    split at hparts
    · next found hfound =>
      rw [hfound]
      exact congrArg Except.ok (EStateM.Result.ok.inj hparts).1
    · cases hparts
  refine ⟨target, parts, k₃.files, htarget, ?_, linksTo_of_validated hvalidated, ?_⟩
  · exact Unchanged.of_ok hremoves hremove (removesBelow_staged names)
  · have hentry := entryAt?_of_symlink hready₄.free (withErrors_eq_ok.mp hsymlink)
    exact content?_eq_symlink.mpr hentry

/-! ### All nodes -/

/-- The place of a node holds its package or is a link to its target. The target is looked up while
the plan is linked, among files that only differ from the first ones in the trees of the link. -/
def Materialized (env : LinkEnvironment) (plan : PlacementPlan) (node : PlacementNode)
    (root : Location) (first fs : LinkedFiles) : Prop :=
  ∃ names, namesOf node.location = some names ∧
    if node.link then ∃ target parts mid, node.target = some target ∧ Unchanged env first mid ∧
      LinksTo env mid target parts ∧ fs.content? (root ++ names) = some (.symlink parts)
    else HoldsPackage plan first fs (env.storePlace node) root names

theorem linkNode_materializes {places : Set (List Name)} (hnode : node ∈ plan.nodes)
    (hrooted : Rooted k.files) (hlinks : LinksAt env places k.files)
    (hclear : ∀ place ∈ walkedPlaces node, place ∉ places)
    (happart : node.link = false → KeptApart env (env.sourceOf node) k.files)
    (h : linkNode env false node result k = .ok result' k') :
    Materialized env plan node env.stageRoot k.files k'.files := by
  obtain ⟨relative, k₁, hrequired, h1⟩ := EStateM.bind_eq_ok.mp h
  obtain ⟨hrelative, rfl⟩ := required_eq_ok.mp hrequired
  obtain ⟨_, k₂, hensure, h2⟩ := EStateM.bind_eq_ok.mp h1
  obtain ⟨hsafe, rfl⟩ := ensure_eq_ok.mp hensure
  obtain ⟨names, hne, hnames, rfl⟩ := namesOf_safe hrelative hsafe
  have hready : Ready (fun _ => True) env names k₂.files := by
    refine ⟨hrooted, trivial, hlinks.way fun init hstarts hproper => ?_⟩
    exact hclear init ⟨names, hnames, Or.inl ⟨hstarts, hproper⟩⟩
  refine ⟨names, hnames, ?_⟩
  cases hlink : node.link with
  | true =>
    rw [hlink] at h2
    obtain ⟨_, k₃, hworkspace, hpure⟩ := EStateM.bind_eq_ok.mp h2
    obtain ⟨-, rfl⟩ := EStateM.pure_eq_ok.mp hpure
    obtain ⟨target, parts, mid, htarget, hmid, hlinksTo, hcontent⟩ :=
      linkWorkspace_links hne hready hworkspace
    rw [if_pos rfl, stageRoot_append]
    exact ⟨target, parts, mid, htarget, hmid, hlinksTo, hcontent⟩
  | false =>
    rw [hlink] at h2
    have hbins : BinsFree env names k₂.files := hlinks.wholeWay fun init hstarts =>
      hclear init ⟨names, hnames, Or.inr ⟨hlink, hstarts⟩⟩
    rw [if_neg Bool.false_ne_true]
    exact linkPackage_holds hne hnode hlink hnames hready hbins (happart hlink) h2

end Node

/-! ## The nodes one after another -/

section Run
variable {env : LinkEnvironment} {plan : PlacementPlan} {k k' : Kernel}

theorem nodeLimits_trees {node : PlacementNode} {names : List Name} {dirs files : Set (List Name)} :
    (nodeLimits env node names dirs files).all ⊆ env.trees := by
  unfold nodeLimits
  split_ifs
  · rintro loc (((⟨init, -, -, rfl⟩ | hnone) | rfl) | hbelow)
    · exact staged_mem_trees env init
    · exact hnone.elim
    · exact staged_mem_trees env names
    · exact below_tree (by simp) names hbelow
  · rintro loc (((hdirs | hfiles) | hlinks) | hremoved)
    · rcases hdirs with (⟨init, -, rfl⟩ | ⟨rest, -, rfl⟩) | ⟨init, -, rfl⟩
      · exact staged_mem_trees env init
      · exact staged_mem_trees env _
      · exact staged_mem_trees env init
    · rcases hfiles with ⟨rest, -, rfl⟩ | hnone
      · exact staged_mem_trees env _
      · exact hnone.elim
    · rcases hlinks with hnone | ⟨bin, rfl⟩
      · exact hnone.elim
      · exact staged_mem_trees env _
    · rcases hremoved with hbelow | hnone
      · exact below_tree (by simp) names hbelow
      · exact hnone.elim

theorem Materialized.since {node : PlacementNode} {root : Location} {first second fs : LinkedFiles}
    (h : Materialized env plan node root second fs) (hsame : Unchanged env first second)
    (happart : node.link = false → KeptApart env (env.sourceOf node) first) :
    Materialized env plan node root first fs := by
  obtain ⟨names, hnames, hholds⟩ := h
  refine ⟨names, hnames, ?_⟩
  cases hlink : node.link with
  | true =>
    rw [hlink] at hholds
    obtain ⟨target, parts, mid, htarget, hmid, hparts⟩ := hholds
    exact ⟨target, parts, mid, htarget, hsame.trans hmid, hparts⟩
  | false =>
    rw [hlink] at hholds
    intro rest hforeign
    have hstored : second.content? (env.storePlace node ++ rest) =
        first.content? (env.storePlace node ++ rest) := hsame _ ((happart hlink).apart rest)
    rw [← hstored]
    exact hholds rest hforeign

/-- What a node has at its place stays while a later one is placed. -/
theorem Materialized.kept {node later : PlacementNode} {names : List Name}
    {dirs files : Set (List Name)} {first fs : LinkedFiles} {effect : Effect}
    (h : Materialized env plan node env.stageRoot first fs) (hlater : later ∈ plan.nodes)
    (hnames : namesOf later.location = some names)
    (horder : ∀ above, namesOf node.location = some above → ¬names <+: above)
    (hwithin : Within (nodeLimits env later names dirs files) fs effect) :
    Materialized env plan node env.stageRoot first (effect.apply fs) := by
  obtain ⟨above, habove, hholds⟩ := h
  refine ⟨above, habove, ?_⟩
  cases hlink : node.link with
  | true =>
    rw [hlink] at hholds
    obtain ⟨target, parts, mid, htarget, hmid, hparts, hcontent⟩ := hholds
    refine ⟨target, parts, mid, htarget, hmid, hparts, ?_⟩
    rw [stageRoot_append] at hcontent ⊢
    exact hwithin.content?_kept (notMem_nodeLimits_files (horder above habove))
      (notMem_nodeLimits_removed (horder above habove)) hcontent
  | false =>
    rw [hlink] at hholds
    have hpackage : HoldsPackage plan first fs (env.storePlace node) env.stageRoot above := hholds
    exact hpackage.kept hlater hnames (horder above habove) hwithin

/-- It counts only what is at the place of the node and below it. -/
theorem Materialized.congr {node : PlacementNode} {root root' : Location}
    {first fs fs' : LinkedFiles} (h : Materialized env plan node root first fs)
    (hsame : ∀ names, namesOf node.location = some names → ∀ rest,
      fs'.content? (root' ++ (names ++ rest)) = fs.content? (root ++ (names ++ rest))) :
    Materialized env plan node root' first fs' := by
  obtain ⟨names, hnames, hholds⟩ := h
  refine ⟨names, hnames, ?_⟩
  cases hlink : node.link with
  | true =>
    rw [hlink] at hholds
    obtain ⟨target, parts, mid, htarget, hmid, hparts, hcontent⟩ := hholds
    refine ⟨target, parts, mid, htarget, hmid, hparts, ?_⟩
    have hplace := hsame names hnames []
    rw [List.append_nil] at hplace
    rw [hplace]
    exact hcontent
  | false =>
    rw [hlink] at hholds
    intro rest hforeign
    rw [hsame names hnames rest]
    exact hholds rest hforeign

/-- Distinct places, each after those above it. -/
def Ordered (nodes : List PlacementNode) : Prop :=
  nodes.Pairwise fun node later => ∀ above names, namesOf node.location = some above →
    namesOf later.location = some names → ¬names <+: above

/-- No node is placed where the plan is recorded, or above. -/
def OffRecord (plan : PlacementPlan) : Prop :=
  ∀ node ∈ plan.nodes, ∀ names, namesOf node.location = some names →
    ¬names <+: [oathName, planName]

/-- The nodes that have been linked, and what is known of the files. -/
structure Linked (env : LinkEnvironment) (plan : PlacementPlan) (first : LinkedFiles)
    (before : List PlacementNode) (fs : LinkedFiles) : Prop where
  rooted : Rooted fs
  links : LinksAt env (placedBy before) fs
  record : ¬IsFile fs (env.staged [oathName, planName])
  unchanged : Unchanged env first fs
  done (node : PlacementNode) : node ∈ before →
    Materialized env plan node env.stageRoot first fs

theorem linkNodes_materializes {first : LinkedFiles} {before nodes : List PlacementNode}
    {result result' : LinkResult} (hplan : plan.nodes = before ++ nodes)
    (hcontained : Contained plan) (hordered : Ordered plan.nodes) (hrecord : OffRecord plan)
    (happart : ∀ node ∈ plan.nodes, node.link = false → KeptApart env (env.sourceOf node) first)
    (hlinked : Linked env plan first before k.files)
    (h : linkNodes env false nodes result k = .ok result' k') :
    Linked env plan first plan.nodes k'.files := by
  induction nodes generalizing before result k with
  | nil =>
    obtain ⟨-, rfl⟩ := EStateM.pure_eq_ok.mp h
    rw [hplan, List.append_nil]
    exact hlinked
  | cons node rest ih =>
    obtain ⟨placed, k₁, hnode, hrest⟩ := EStateM.bind_eq_ok.mp h
    have hmem : node ∈ plan.nodes := by
      rw [hplan]
      exact List.mem_append_right before List.mem_cons_self
    have hclear : ∀ place ∈ walkedPlaces node, place ∉ placedBy before := by
      rintro place hplace ⟨earlier, hearlier, hlink⟩
      exact hcontained.nodes before rest node hplan earlier hearlier place hlink hplace
    have hown := happart node hmem
    have hdone : Materialized env plan node env.stageRoot k.files k₁.files :=
      linkNode_materializes hmem hlinked.rooted hlinked.links hclear
        (fun hlink => (hown hlink).kept hlinked.unchanged) hnode
    have hsince := hdone.since hlinked.unchanged hown
    obtain ⟨names, hnames, -⟩ := hdone
    have hmakes : Makes (Within (nodeLimits env node names Set.univ Set.univ))
        (linkNode env false node result) k := by
      apply makes_linkNode (I := fun _ => True) hnames _ _ hlinked.rooted trivial hlinked.links
        hclear
      · exact fun _ _ _ _ => trivial
      · exact fun _ _ _ _ _ _ _ _ => ⟨fun _ => trivial, fun _ => trivial⟩
    have hplan' : plan.nodes = before ++ [node] ++ rest := by simpa using hplan
    refine ih hplan' ⟨?_, ?_, ?_, ?_, ?_⟩ hrest
    · exact rooted_kept hmakes hnode hlinked.rooted
    · exact linksAt_next hlinked.links hmakes hnode fun _ hplace => nodeLimits_links hnames hplace
    · refine hmakes.inv_ok hnode (I := fun fs => ¬IsFile fs (env.staged [oathName, planName]))
        (fun fs effect hnone hwithin hfile => ?_) hlinked.record
      rcases hwithin.isFile hfile with hbefore | hnew
      · exact hnone hbefore
      · exact notMem_nodeLimits_files (hrecord node hmem names hnames) hnew
    · exact hlinked.unchanged.trans (Unchanged.of_ok hmakes hnode nodeLimits_trees)
    · intro other hother
      rcases List.mem_append.mp hother with hbefore | hlast
      · refine hmakes.inv_ok hnode
          (I := fun fs => Materialized env plan other env.stageRoot first fs)
          (fun fs effect hholds hwithin => hholds.kept hmem hnames (fun above habove => ?_) hwithin)
          (hlinked.done other hbefore)
        rw [hplan] at hordered
        exact (List.pairwise_append.mp hordered).2.2 other hbefore node List.mem_cons_self above
          names habove hnames
      · obtain rfl := List.mem_singleton.mp hlast
        exact hsince

end Run

end Oath.Store
