import Oath.Library.Renames
import Oath.Store.Materialization

/-! The link of a plan as a whole, without anything of the tree before: what is in the new
`node_modules` at the places of the nodes. -/

namespace Oath.Store
open Contracts Registry Resolve Unix

section Transaction
variable {env : LinkEnvironment} {plan : PlacementPlan} {k k' : Kernel}

def LinkEnvironment.liveRoot (env : LinkEnvironment) : Location := env.project ++ [nodeModules]
def LinkEnvironment.backupRoot (env : LinkEnvironment) : Location := env.project ++ [backupName]

theorem not_prefix_sibling {a b : Name} (h : a ≠ b) (base : Location) (rest : List Name) :
    ¬base ++ [a] <+: base ++ [b] ++ rest := by
  rintro ⟨more, heq⟩
  rw [List.append_assoc, List.append_assoc] at heq
  exact h (List.cons.inj (List.append_cancel_left heq)).1

theorem below_tree_root {tree : Name} (htree : tree ∈ [nodeModules, stageName, backupName]) :
    below (env.project ++ [tree]) ⊆ env.trees := below_tree htree []

theorem removesBelow_trees {tree : Name} (htree : tree ∈ [nodeModules, stageName, backupName]) :
    (removesBelow (env.project ++ [tree])).all ⊆ env.trees := by
  rintro loc (((hnone | hnone) | hnone) | hbelow)
  · exact hnone.elim
  · exact hnone.elim
  · exact hnone.elim
  · exact below_tree_root htree hbelow

/-! ## Trees that are removed and moved -/

theorem removeTree_ok {tree : Name} {message : String} (hrooted : Rooted k.files)
    (htree : tree ∈ [nodeModules, stageName, backupName])
    (h : context message (removeDirAll env.faults (.ofNames env.project [tree])) k = .ok () k') :
    Rooted k'.files ∧ Unchanged env k.files k'.files ∧
      k'.files.entryAt? (env.project ++ [tree]) = none := by
  have hfree := linkFree_singleton k.files env.project tree
  have hmakes : Makes (Within (removesBelow (env.project ++ [tree])))
      (removeDirAll env.faults (.ofNames env.project [tree])) k := makes_removeDirAll hrooted hfree
  have hok := withErrors_eq_ok.mp h
  refine ⟨rooted_kept hmakes hok hrooted, ?_, entryAt?_of_removeDirAll hfree hok⟩
  exact Unchanged.of_ok hmakes hok (removesBelow_trees htree)

theorem unchanged_move {a b : Name} (ha : a ∈ [nodeModules, stageName, backupName])
    (hb : b ∈ [nodeModules, stageName, backupName]) (fs : LinkedFiles) :
    Unchanged env fs (fs.move (env.project ++ [a]) (env.project ++ [b])) := by
  intro loc hloc
  apply content?_move_of_not
  · exact fun hstarts => hloc (below_tree_root hb hstarts)
  · exact fun hstarts => hloc (below_tree_root ha hstarts)

theorem recoverBackup_ok (hrooted : Rooted k.files) (h : recoverBackup env k = .ok () k') :
    Rooted k'.files ∧ Unchanged env k.files k'.files := by
  obtain ⟨backed, k₁, hread, h1⟩ := EStateM.bind_eq_ok.mp h
  obtain ⟨-, rfl⟩ := read_eq_ok.mp hread
  split_ifs at h1
  · obtain ⟨live, k₂, hlive, h2⟩ := EStateM.bind_eq_ok.mp h1
    obtain ⟨-, rfl⟩ := read_eq_ok.mp hlive
    split_ifs at h2
    · obtain ⟨hrooted', hsame, -⟩ := removeTree_ok hrooted (by simp) h2
      exact ⟨hrooted', hsame⟩
    · have hrename := withErrors_eq_ok.mp h2
      obtain ⟨hfiles, -⟩ := rename_eq_ok hrooted hrename
      refine ⟨rooted_rename hrooted hrename, ?_⟩
      rw [hfiles]
      exact unchanged_move (by simp) (by simp) _
  · obtain ⟨-, rfl⟩ := EStateM.pure_eq_ok.mp h1
    exact ⟨hrooted, Unchanged.refl env _⟩

/-- After the recovery nothing is found at the place of the stage, but for a link to nowhere. -/
theorem recoverLinkTransaction_ok (hrooted : Rooted k.files)
    (h : recoverLinkTransaction env k = .ok () k') :
    Rooted k'.files ∧ Unchanged env k.files k'.files ∧
      (k'.files.entryAt? env.stageRoot = none ∨ k'.files.pathExists env.stage = false) := by
  obtain ⟨_, k₁, hbackup, hclean⟩ := EStateM.bind_eq_ok.mp h
  obtain ⟨hrooted₁, hsame₁⟩ := recoverBackup_ok hrooted hbackup
  obtain ⟨staged, k₂, hread, h1⟩ := EStateM.bind_eq_ok.mp hclean
  obtain ⟨rfl, rfl⟩ := read_eq_ok.mp hread
  split_ifs at h1 with hstaged
  · obtain ⟨hrooted', hsame, hgone⟩ := removeTree_ok hrooted₁ (by simp) h1
    exact ⟨hrooted', hsame₁.trans hsame, Or.inl hgone⟩
  · obtain ⟨-, rfl⟩ := EStateM.pure_eq_ok.mp h1
    exact ⟨hrooted₁, hsame₁, Or.inr (by simpa using hstaged)⟩

/-- Nothing was at the place of the stage when its first directory has been made. -/
theorem stage_absent (hrooted : Rooted k.files)
    (hgone : k.files.entryAt? env.stageRoot = none ∨ k.files.pathExists env.stage = false)
    (h : createDirAll env.faults (env.stage.join oathName) k = .ok () k') :
    k.files.entryAt? (env.staged []) = none := by
  have hroot : env.stageRoot = env.staged [] := rfl
  rcases hgone with hnone | hexists
  · exact hnone
  · by_contra hthere
    have hlink : IsLink k.files env.stageRoot := isLink_of_not_exists hexists hthere
    exact createDirAll_dangling hrooted hlink hexists h

/-! ## The stage -/

theorem seedStage_clean (h : seedStage env false k = .ok () k') : k' = k := by
  obtain ⟨present, k₁, hread, h1⟩ := EStateM.bind_eq_ok.mp h
  obtain ⟨-, rfl⟩ := read_eq_ok.mp hread
  obtain ⟨-, hsame⟩ := EStateM.pure_eq_ok.mp h1
  exact hsame

/-- What holds before the first node: an empty stage, with the directory of the record. -/
theorem linked_nil (hrooted : Rooted k.files)
    (hgone : k.files.entryAt? env.stageRoot = none ∨ k.files.pathExists env.stage = false)
    (h : createDirAll env.faults (env.stage.join oathName) k = .ok () k') :
    Linked env plan k.files [] k'.files := by
  have habsent := stage_absent hrooted hgone h
  have hbare : Bare (fun _ => True) env k.files := bare_of_absent hrooted trivial habsent
  have hmakes := makes_oathDir hbare
  have hbare' := hbare.next hmakes h (fun _ _ _ _ => trivial) rfl
  refine ⟨hbare'.rooted, ?_, ?_, ?_, fun node hnone => absurd hnone List.not_mem_nil⟩
  · intro relative hlink
    exact (hbare'.links relative hlink).elim
  · refine hmakes.inv_ok h (I := fun fs => ¬IsFile fs (env.staged [oathName, planName]))
      (fun fs effect hnone hwithin hfile => ?_) ?_
    · rcases hwithin.isFile hfile with hbefore | hnew
      · exact hnone hbefore
      · exact hnew.elim
    · rintro ⟨inode, hinode⟩
      have hnone := hrooted.none_below habsent [oathName, planName]
      rw [staged_append, List.nil_append, hinode] at hnone
      cases hnone
  · apply Unchanged.of_ok hmakes h
    rintro loc (((⟨init, -, rfl⟩ | hnone) | hnone) | hnone)
    · exact staged_mem_trees env init
    all_goals exact hnone.elim

theorem buildStage_linked {result : LinkResult} (hremoved : plan.removedLocations = [])
    (hcontained : Contained plan) (hordered : Ordered plan.nodes) (hrecord : OffRecord plan)
    (happart : ∀ node ∈ plan.nodes, node.link = false → KeptApart env (env.sourceOf node) k.files)
    (hrooted : Rooted k.files)
    (hgone : k.files.entryAt? env.stageRoot = none ∨ k.files.pathExists env.stage = false)
    (h : buildStage env plan false k = .ok result k') :
    Linked env plan k.files plan.nodes k'.files := by
  obtain ⟨_, k₁, hseed, h1⟩ := EStateM.bind_eq_ok.mp h
  obtain rfl := seedStage_clean hseed
  obtain ⟨_, k₂, hoath, h2⟩ := EStateM.bind_eq_ok.mp h1
  obtain ⟨_, k₃, hnone, hnodes⟩ := EStateM.bind_eq_ok.mp h2
  rw [hremoved] at hnone
  obtain ⟨-, rfl⟩ := EStateM.pure_eq_ok.mp hnone
  exact linkNodes_materializes (List.nil_append _).symm hcontained hordered hrecord happart
    (linked_nil hrooted hgone (withErrors_eq_ok.mp hoath)) hnodes

/-! ## The record and the moves -/

/-- The record of the plan changes no place of a node. -/
theorem writePlan_keeps {first : LinkedFiles} (hcontained : Contained plan)
    (hrecord : OffRecord plan) (hlinked : Linked env plan first plan.nodes k.files)
    (h : writePlan env plan k = .ok () k') :
    Rooted k'.files ∧ ∀ node ∈ plan.nodes,
      Materialized env plan node env.stageRoot first k'.files := by
  have hfree : LinkFree k.files (wholeWay env.project (stageName :: [oathName, planName])) := by
    apply hlinked.links.wholeWay
    rintro init hstarts ⟨node, hnode, hplace⟩
    exact hcontained.planFile node hnode init hplace hstarts
  have hmakes : Makes (Within (filesOnly {env.staged [oathName, planName]}))
      (writeFile env.faults env.planFile (env.encodePlan plan)) k :=
    makes_writeFile hfree hlinked.record
  have hok := withErrors_eq_ok.mp h
  refine ⟨rooted_kept hmakes hok hlinked.rooted, fun node hnode => ?_⟩
  refine (hlinked.done node hnode).congr fun names hnames rest => hmakes.content?_eq hok ?_
  rw [stageRoot_append]
  rintro (((hnone | heq) | hnone) | hnone)
  · exact hnone.elim
  · exact hrecord node hnode names hnames ⟨rest, staged_injective env heq⟩
  · exact hnone.elim
  · exact hnone.elim

/-- The live tree set aside leaves the stage. -/
theorem rename_aside (hrooted : Rooted k.files)
    (h : rename env.faults env.live env.backup k = .ok () k') :
    Rooted k'.files ∧ Unchanged env k.files k'.files ∧ ∀ rest,
      k'.files.content? (env.stageRoot ++ rest) = k.files.content? (env.stageRoot ++ rest) := by
  obtain ⟨hfiles, -⟩ := rename_eq_ok hrooted h
  rw [hfiles]
  refine ⟨hfiles ▸ rooted_rename hrooted h, unchanged_move (by simp) (by simp) _, fun rest => ?_⟩
  apply content?_move_of_not
  · exact not_prefix_sibling (by decide) env.project rest
  · exact not_prefix_sibling (by decide) env.project rest

/-- The stage in the place of the live tree. -/
theorem rename_promote (hrooted : Rooted k.files)
    (h : rename env.faults env.stage env.live k = .ok () k') :
    Rooted k'.files ∧ Unchanged env k.files k'.files ∧ ∀ rest,
      k'.files.content? (env.liveRoot ++ rest) = k.files.content? (env.stageRoot ++ rest) := by
  obtain ⟨hfiles, -⟩ := rename_eq_ok hrooted h
  rw [hfiles]
  refine ⟨hfiles ▸ rooted_rename hrooted h, unchanged_move (by simp) (by simp) _, fun rest => ?_⟩
  exact content?_move_dest _ _ rest

/-- The removal of another tree leaves the live one. -/
theorem live_of_removes {tree : Name} {ε α : Type} {x : EStateM ε Kernel α} {a : α}
    (hother : tree ≠ nodeModules)
    (hmakes : Makes (Within (removesBelow (env.project ++ [tree]))) x k) (hx : x k = .ok a k')
    (rest : List Name) :
    k'.files.content? (env.liveRoot ++ rest) = k.files.content? (env.liveRoot ++ rest) := by
  apply hmakes.content?_eq hx
  rintro (((hnone | hnone) | hnone) | hbelow)
  · exact hnone.elim
  · exact hnone.elim
  · exact hnone.elim
  · exact not_prefix_sibling hother env.project rest hbelow

theorem moveLive_keeps (hrooted : Rooted k.files) (h : moveLive env k = .ok () k') :
    Rooted k'.files ∧ ∀ rest,
      k'.files.content? (env.stageRoot ++ rest) = k.files.content? (env.stageRoot ++ rest) := by
  obtain ⟨live, k₁, hread, h1⟩ := EStateM.bind_eq_ok.mp h
  obtain ⟨-, rfl⟩ := read_eq_ok.mp hread
  split_ifs at h1
  · obtain ⟨hrooted', -, hstage⟩ := rename_aside hrooted (withErrors_eq_ok.mp h1)
    exact ⟨hrooted', hstage⟩
  · obtain ⟨-, rfl⟩ := EStateM.pure_eq_ok.mp h1
    exact ⟨hrooted, fun _ => rfl⟩

theorem promoteStage_moves (hrooted : Rooted k.files) (h : promoteStage env k = .ok () k') :
    Rooted k'.files ∧ ∀ rest,
      k'.files.content? (env.liveRoot ++ rest) = k.files.content? (env.stageRoot ++ rest) := by
  obtain ⟨moved, k₁, hmoved, h1⟩ := EStateM.bind_eq_ok.mp h
  cases moved with
  | ok u =>
    obtain ⟨-, rfl⟩ := EStateM.pure_eq_ok.mp h1
    obtain ⟨hrooted', -, hlive⟩ := rename_promote hrooted (attempt_eq_ok.mp hmoved)
    exact ⟨hrooted', hlive⟩
  | error e =>
    obtain ⟨_, k₂, -, hthrow⟩ := EStateM.bind_eq_ok.mp h1
    exact absurd hthrow EStateM.throw_ne_ok

theorem removeBackup_keeps (hrooted : Rooted k.files) (h : removeBackup env k = .ok () k')
    (rest : List Name) :
    k'.files.content? (env.liveRoot ++ rest) = k.files.content? (env.liveRoot ++ rest) := by
  obtain ⟨backed, k₁, hread, h1⟩ := EStateM.bind_eq_ok.mp h
  obtain ⟨-, rfl⟩ := read_eq_ok.mp hread
  split_ifs at h1
  · have hmakes : Makes (Within (removesBelow env.backupRoot))
        (removeDirAll env.faults env.backup) k₁ :=
      makes_removeDirAll hrooted (linkFree_singleton _ _ _)
    exact live_of_removes (by decide) hmakes (withErrors_eq_ok.mp h1) rest
  · obtain ⟨-, rfl⟩ := EStateM.pure_eq_ok.mp h1
    rfl

/-- A link without the tree before that returns has put every package of the plan at its place, and
a link at the place of every link. -/
theorem linkPlacementPlanClean_materializes {result : LinkResult} (hrooted : Rooted k.files)
    (hremoved : plan.removedLocations = []) (hordered : Ordered plan.nodes)
    (hcontained : Contained plan) (hrecord : OffRecord plan)
    (happart : ∀ node ∈ plan.nodes, node.link = false → KeptApart env (env.sourceOf node) k.files)
    (h : linkPlacementPlanClean env plan k = .ok result k') :
    ∀ node ∈ plan.nodes, Materialized env plan node env.liveRoot k.files k'.files := by
  obtain ⟨_, k₁, hrecover, h1⟩ := EStateM.bind_eq_ok.mp h
  obtain ⟨built, k₂, hbuild, h2⟩ := EStateM.bind_eq_ok.mp h1
  obtain ⟨_, k₃, hwrite, h3⟩ := EStateM.bind_eq_ok.mp h2
  obtain ⟨_, k₄, hlive, h4⟩ := EStateM.bind_eq_ok.mp h3
  obtain ⟨_, k₅, hpromote, h5⟩ := EStateM.bind_eq_ok.mp h4
  obtain ⟨_, k₆, hbackup, hpure⟩ := EStateM.bind_eq_ok.mp h5
  obtain ⟨-, rfl⟩ := EStateM.pure_eq_ok.mp hpure
  obtain ⟨hrooted₁, hsame, hgone⟩ := recoverLinkTransaction_ok hrooted hrecover
  have hlinked := buildStage_linked hremoved hcontained hordered hrecord
    (fun node hnode hlink => (happart node hnode hlink).kept hsame) hrooted₁ hgone hbuild
  obtain ⟨hrooted₃, hdone⟩ := writePlan_keeps hcontained hrecord hlinked hwrite
  obtain ⟨hrooted₄, hstaged⟩ := moveLive_keeps hrooted₃ hlive
  obtain ⟨hrooted₅, hmoved⟩ := promoteStage_moves hrooted₄ hpromote
  intro node hnode
  refine ((hdone node hnode).since hsame (happart node hnode)).congr fun names _ rest => ?_
  rw [removeBackup_keeps hrooted₅ hbackup, hmoved, hstaged]

end Transaction

/-! ## A project with a workspace package -/

section Demo

def textPlace (names : List String) : Location := names.map asBytes

def manifestText : List UInt8 :=
  asBytes "\x7b\"name\":\"x\",\"version\":\"1.0.0\",\"bin\":\"run.js\"\x7d"

def manifestValue : Value :=
  .json [("name", .string "x"), ("version", .string "1.0.0"), ("bin", .string "run.js")]

def storedRows : List (Location × Entry) := [
  ([], .directory), (textPlace ["repo"], .directory), (textPlace ["repo", "w"], .directory),
  (textPlace ["store"], .directory), (textPlace ["store", "x"], .directory),
  (textPlace ["store", "x", "1.0.0"], .directory),
  (textPlace ["store", "x", "1.0.0", "package.json"], .file 0),
  (textPlace ["store", "x", "1.0.0", "run.js"], .file 1)]

def storedFiles : LinkedFiles where
  entries := ⟨storedRows, by decide⟩
  data inode := if inode = 0 then manifestText else asBytes "console.log(1)\n"

def storedKernel : Kernel := ⟨storedFiles, [], 0⟩

def optionText : Option String → String
  | none => "null"
  | some text => "\"" ++ text ++ "\""

/-- A node without edges and without a source, as serde_json writes it. -/
def nodeText (node : PlacementNode) : String :=
  "\x7b\"location\":\"" ++ node.location ++ "\",\"install_name\":\"" ++ node.installName ++
    "\",\"name\":\"" ++ node.name ++ "\",\"version\":\"" ++ node.version ++
    "\",\"resolved\":null,\"integrity\":null,\"dev\":false,\"optional\":false," ++
    "\"has_install_script\":false,\"reuse_existing\":false,\"link\":" ++
    (if node.link then "true" else "false") ++ ",\"target\":" ++ optionText node.target ++
    ",\"edges\":[]\x7d"

def recordText (nodes : List PlacementNode) : String :=
  "\x7b\"schema_version\":2,\"planner\":\x7b\"name\":\"@npmcli/arborist\",\"npm\":\"11.12.1\"" ++
    "\x7d,\"project\":\"/repo\",\"nodes\":[" ++ ",".intercalate (nodes.map nodeText) ++
    "],\"removed_locations\":[],\"invalid_edges\":[]\x7d"

def repoEnvironment : LinkEnvironment where
  project := textPlace ["repo"]
  store := ⟨textPlace ["store"], fun _ => ""⟩
  parseJson text := if text = manifestText then some manifestValue else none
  encodePlan plan := asBytes (recordText plan.nodes)
  faults _ _ := none

def storedPackage (location : String) : PlacementNode where
  location := location
  installName := "x"
  name := "x"
  version := "1.0.0"
  resolved := none
  integrity := none
  dev := false
  optional := false
  hasInstallScript := false
  reuseExisting := false
  link := false
  target := none
  edges := []

def workspaceNode (target : String) : PlacementNode :=
  { storedPackage "node_modules/w" with
    installName := "w", name := "w", link := true, target := some target }

def planOf (nodes : List PlacementNode) : PlacementPlan :=
  ⟨2, ⟨"@npmcli/arborist", "11.12.1"⟩, "/repo", nodes, [], []⟩

/-- The workspace package is linked, and `x` is placed beside it. -/
def besidePlan : PlacementPlan := planOf [workspaceNode "w", storedPackage "node_modules/x"]

/-- The project is linked as a package of its own, and `x` is placed below the link. -/
def throughPlan : PlacementPlan :=
  planOf [workspaceNode ".", storedPackage "node_modules/w/node_modules/x"]

theorem storedFiles_rooted : Rooted storedFiles := rooted_of_rows (by decide)

theorem storedFiles_no_link (loc : Location) : ¬IsLink storedFiles loc :=
  not_isLink_of_rows (by decide) loc

theorem repo_not_store {rest : List Name} :
    ¬textPlace ["repo"] <+: textPlace ["store"] ++ rest := by
  intro hstarts
  have hfirst : asBytes "repo" = asBytes "store" := (List.cons_prefix_cons.mp hstarts).1
  exact absurd hfirst (by decide)

theorem storePlace_stored (location : String) :
    repoEnvironment.storePlace (storedPackage location) = textPlace ["store", "x", "1.0.0"] := by
  have hname : safePathComponent (replaceSlashes "x") = "x" := by decide
  have hversion : safePathComponent "1.0.0" = "1.0.0" := by decide
  have hsource : repoEnvironment.sourceOf (storedPackage location) =
      repoEnvironment.store.inRoot
        [safePathComponent (replaceSlashes "x"), safePathComponent "1.0.0"] := rfl
  unfold LinkEnvironment.storePlace placeOf
  rw [hsource, hname, hversion]
  exact resolve_normal (textPlace ["store"]) (textPlace ["x", "1.0.0"])

theorem keptApart_stored (location : String) :
    KeptApart repoEnvironment (repoEnvironment.sourceOf (storedPackage location))
      storedFiles where
  free loc _ := storedFiles_no_link loc
  plain rest target hlink := storedFiles_no_link _ ⟨target, content?_eq_symlink.mp hlink⟩
  apart := by
    intro rest
    apply notMem_trees
    rw [← LinkEnvironment.storePlace, storePlace_stored]
    exact repo_not_store

theorem keptApart_planOf {target location : String} {node : PlacementNode}
    (hnode : node ∈ [workspaceNode target, storedPackage location]) (hlink : node.link = false) :
    KeptApart repoEnvironment (repoEnvironment.sourceOf node) storedFiles := by
  rcases List.mem_pair.mp hnode with rfl | rfl
  · cases hlink
  · exact keptApart_stored location

/-- The run returns, and the files that are left pass a test. -/
def leaves {α : Type} (test : LinkedFiles → Bool) : EStateM.Result String Kernel α → Bool
  | .ok _ k => test k.files
  | .error _ _ => false

theorem leaves_eq_true {α : Type} {test : LinkedFiles → Bool}
    {r : EStateM.Result String Kernel α} (h : leaves test r = true) :
    ∃ result k, r = .ok result k ∧ test k.files = true := by
  cases r with
  | ok result k => exact ⟨result, k, rfl, h⟩
  | error message k => cases h

theorem namesOf_w : namesOf "node_modules/w" = some [asBytes "w"] := by decide

theorem namesOf_x : namesOf "node_modules/x" = some [asBytes "x"] := by decide

theorem namesOf_below :
    namesOf "node_modules/w/node_modules/x" = some (textPlace ["w", "node_modules", "x"]) := by
  decide

theorem ordered_pair {node later : PlacementNode} {above names : List Name}
    (habove : namesOf node.location = some above) (hnames : namesOf later.location = some names)
    (h : ¬names <+: above) : Ordered [node, later] := by
  refine List.pairwise_pair.mpr fun above' names' habove' hnames' => ?_
  obtain rfl := Option.some.inj (habove.symm.trans habove')
  obtain rfl := Option.some.inj (hnames.symm.trans hnames')
  exact h

theorem beside_contained : Contained besidePlan where
  nodes := by
    have hpair : besidePlan.nodes.Pairwise fun earlier node =>
        ∀ place ∈ linkPlaces earlier, place ∉ walkedPlaces node := by
      refine List.pairwise_pair.mpr ?_
      rintro place ⟨names, hnames, rfl⟩ ⟨names', hnames', hwalked⟩
      obtain rfl := Option.some.inj (namesOf_w.symm.trans hnames)
      obtain rfl := Option.some.inj (namesOf_x.symm.trans hnames')
      rcases hwalked with ⟨hstarts, -⟩ | ⟨-, hstarts⟩
      · exact absurd hstarts (by decide)
      · exact absurd hstarts (by decide)
    intro before after node hnodes earlier hearlier
    rw [hnodes] at hpair
    exact (List.pairwise_append.mp hpair).2.2 earlier hearlier node List.mem_cons_self
  planFile := by
    rintro node hnode place ⟨names, hnames, hplace⟩ hstarts
    rcases List.mem_pair.mp hnode with rfl | rfl
    · obtain rfl := Option.some.inj (namesOf_w.symm.trans hnames)
      obtain rfl : place = [asBytes "w"] := hplace
      exact absurd hstarts (by decide)
    · obtain rfl := Option.some.inj (namesOf_x.symm.trans hnames)
      obtain ⟨bin, rfl⟩ := hplace
      have hfirst : binName = oathName := (List.cons_prefix_cons.mp hstarts).1
      exact absurd hfirst (by decide)

theorem beside_offRecord : OffRecord besidePlan := by
  intro node hnode names hnames
  rcases List.mem_pair.mp hnode with rfl | rfl
  · obtain rfl := Option.some.inj (namesOf_w.symm.trans hnames)
    decide
  · obtain rfl := Option.some.inj (namesOf_x.symm.trans hnames)
    decide

theorem beside_returns :
    leaves (fun _ => true) (linkPlacementPlanClean repoEnvironment besidePlan storedKernel) := by
  decide +kernel

theorem linkPlacementPlanClean_beside :
    ∃ result k', linkPlacementPlanClean repoEnvironment besidePlan storedKernel = .ok result k' ∧
      ∀ node ∈ besidePlan.nodes,
        Materialized repoEnvironment besidePlan node repoEnvironment.liveRoot storedFiles
          k'.files := by
  obtain ⟨result, k', hrun, -⟩ := leaves_eq_true beside_returns
  have hordered : Ordered besidePlan.nodes :=
    ordered_pair namesOf_w namesOf_x (by decide)
  refine ⟨result, k', hrun, ?_⟩
  exact linkPlacementPlanClean_materializes storedFiles_rooted rfl hordered beside_contained
    beside_offRecord (fun node hnode hlink => keptApart_planOf hnode hlink) hrun

/-- The path of a node below the link, when the link of the plan has returned. -/
def pathBelow : Path :=
  repoEnvironment.inLive ((textPlace ["w", "node_modules", "x"]).map .normal)

def placeBelow : Location := repoEnvironment.liveRoot ++ textPlace ["w", "node_modules", "x"]

theorem through_loses : leaves (fun fs => !fs.pathExists pathBelow && fs.entryAt? placeBelow = none)
    (linkPlacementPlanClean repoEnvironment throughPlan storedKernel) := by
  decide +kernel

/-- A package below the link to the project goes into the tree before, which is removed. -/
theorem linkPlacementPlanClean_through_link :
    validateLocations throughPlan = .ok () ∧
      (throughPlan.nodes.map PlacementNode.location).Nodup ∧ Ordered throughPlan.nodes ∧
      throughPlan.removedLocations = [] ∧
      (∀ node ∈ throughPlan.nodes, node.link = false →
        storedFiles.pathExists (repoEnvironment.sourceOf node) = true ∧
          KeptApart repoEnvironment (repoEnvironment.sourceOf node) storedFiles) ∧
      ∃ result k', linkPlacementPlanClean repoEnvironment throughPlan storedKernel =
          .ok result k' ∧ k'.files.pathExists pathBelow = false ∧
        ¬∀ node ∈ throughPlan.nodes,
          Materialized repoEnvironment throughPlan node repoEnvironment.liveRoot storedFiles
            k'.files := by
  obtain ⟨result, k', hrun, htest⟩ := leaves_eq_true through_loses
  obtain ⟨hpath, hplace⟩ : k'.files.pathExists pathBelow = false ∧
      k'.files.entryAt? placeBelow = none := by simpa using htest
  refine ⟨by decide, by decide,
    ordered_pair namesOf_w namesOf_below (by decide), rfl, ?_, result, k', hrun, hpath, ?_⟩
  · intro node hnode hlink
    refine ⟨?_, keptApart_planOf hnode hlink⟩
    rcases List.mem_pair.mp hnode with rfl | rfl
    · cases hlink
    · decide
  · intro hall
    obtain ⟨names, hnames, hholds⟩ :=
      hall (storedPackage "node_modules/w/node_modules/x") (by simp [throughPlan, planOf])
    obtain rfl := Option.some.inj (namesOf_below.symm.trans hnames)
    have hpackage : HoldsPackage throughPlan storedFiles k'.files _ _ _ := hholds
    have hforeign : ¬OfNodeBelow throughPlan (textPlace ["w", "node_modules", "x"])
        (textPlace ["w", "node_modules", "x"] ++ []) := by
      rintro ⟨node, -, names', -, hbelow, hne, habove⟩
      rw [List.append_nil] at habove
      exact hne (hbelow.eq_of_length_le habove.length_le).symm
    have hheld := hpackage [] hforeign
    rw [storePlace_stored] at hheld
    have hnone : k'.files.content? placeBelow = none := content?_eq_none.mpr hplace
    have hstored : storedFiles.content? (textPlace ["store", "x", "1.0.0"] ++ []) =
        some .directory := by decide
    rw [hstored] at hheld
    rcases hheld with heq | ⟨hnothing, -⟩
    · have hsome : k'.files.content? placeBelow = some .directory := by simpa [placeBelow] using heq
      rw [hnone] at hsome
      cases hsome
    · cases hnothing

end Demo

end Oath.Store
