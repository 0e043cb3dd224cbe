import Oath.Store.ModuleResolution

/-! A link that builds the whole tree: what it leaves where, and what a later link finds. -/

namespace Oath.Store
open Contracts Registry Resolve Unix

section Full
variable {graph : DepGraph} (env : LinkEnvironment) (order : GraphOrder graph)

/-- The link of a graph whose manifest is not looked at. -/
def fullLink : Link LinkResult := do
  checkGraphNames order
  recoverLinkTransaction env
  let result ← buildTree env order
  setLiveAside env
  promoteTree env
  dropBackup env
  pure result

end Full

/-! ## The stage -/

section Packing
variable {graph : DepGraph} {order : GraphOrder graph} {env : LinkEnvironment}
  {first : LinkedFiles} {k k' : Kernel} {result result' : LinkResult} {place : List Name}

/-- The packages are at their places, the manifest is not written, and nothing else has changed. -/
structure Packing (graph : DepGraph) (env : LinkEnvironment) (first fs : LinkedFiles) : Prop where
  grown : Grown graph env first fs
  record : ¬IsFile fs (env.staged [oathName, LinkEnvironment.manifestName])
  unchanged : Unchanged env first fs

theorem entryLimits_trees : (entryLimits env place).all ⊆ env.trees := by
  rintro loc (((⟨init, -, -, rfl⟩ | hnone) | rfl) | hnone)
  · exact staged_mem_trees env init
  · exact hnone.elim
  · exact staged_mem_trees env place
  · exact hnone.elim

theorem Packing.next {ε α : Type} {x : EStateM ε Kernel α} {a : α}
    (h : Packing graph env first k.files) (hnamed : Named graph) (hplace : LinkPlace graph place)
    (hmakes : Makes (Within (entryLimits env place)) x k) (hx : x k = .ok a k') :
    Packing graph env first k'.files where
  grown := h.grown.next hnamed hplace hmakes hx
  record := not_isFile_next h.record hmakes hx
  unchanged := h.unchanged.trans (Unchanged.of_ok hmakes hx entryLimits_trees)

theorem linkHoistedBins_packing (hnamed : Named graph) {hoisted : String × String}
    (h : Packing graph env first k.files)
    (hrun : linkHoistedBins env graph hoisted result k = .ok result' k') :
    Packing graph env first k'.files := by
  unfold linkHoistedBins at hrun
  split_ifs at hrun
  · obtain ⟨-, rfl⟩ := EStateM.pure_eq_ok.mp hrun
    exact h
  · obtain ⟨bins, k₁, hread, hloop⟩ := EStateM.bind_eq_ok.mp hrun
    obtain ⟨-, rfl⟩ := read_eq_ok.mp hread
    refine linkEach_files (P := fun _ => True) (I := Packing graph env first)
      (fun _ _ => trivial) (fun bin result result' k k' _ hbefore hstep => ?_) h hloop
    exact hbefore.next hnamed (.bin _) (makes_linkHoistedBin hnamed hbefore.grown) hstep

theorem linkPeer_packing (hnamed : Named graph) {edge : String × String}
    (hedge : ∃ row ∈ graph.nodes.rows, edge.1 = row.1) (h : Packing graph env first k.files)
    (hrun : linkPeer env graph edge result k = .ok result' k') :
    Packing graph env first k'.files := by
  obtain ⟨row, hrow, hkey⟩ := hedge
  rcases makes_linkPeer hnamed hrow hkey h.grown result with hnone | ⟨names, hinstalled, hmakes⟩
  · rw [hnone] at hrun
    obtain ⟨-, rfl⟩ := EStateM.pure_eq_ok.mp hrun
    exact h
  · exact h.next hnamed (.beside row _ hrow hinstalled) hmakes hrun

/-- A nested edge leads from a package of the graph to another. -/
theorem Linkable.nested (hlinkable : Linkable graph) {edge : String × String × String}
    (h : edge ∈ (buildPlan order).nested) :
    ∃ row child, row ∈ graph.nodes.rows ∧ child ∈ graph.nodes.rows ∧
      edge = (row.1, installNameOf child.2, child.1) := by
  obtain ⟨source, hsource, hedge⟩ := source_of_nested h
  obtain ⟨row, child, hrow, hchild, hcarries⟩ := hlinkable.carries hsource
  exact ⟨row, child, hrow, hchild, hedge row child hcarries⟩

/-- What a full link leaves: the packages as they are in the store, and the manifest. -/
structure Packed (graph : DepGraph) (env : LinkEnvironment) (first : LinkedFiles)
    (held : List Name → Option Content) : Prop where
  packages (row : String × DepNode) (rest : List Name) : row ∈ graph.nodes.rows →
    rest.head? ≠ some nodeModules →
      held (homeOf row ++ rest) = first.content? (env.storedAt row ++ rest)
  manifest : held [oathName, LinkEnvironment.manifestName] =
    some (.file (asBytes (linkManifest graph)))

theorem writeManifest_packed (hnamed : Named graph) (h : Packing graph env first k.files)
    (hrun : writeFile env.faults env.manifestFile (asBytes (linkManifest graph)) k = .ok () k') :
    Rooted k'.files ∧ Unchanged env first k'.files ∧
      Packed graph env first fun relative => k'.files.content? (env.staged relative) := by
  have hfree := h.grown.manifestWay hnamed
  have hmakes : Makes
      (Within (filesOnly {env.staged [oathName, LinkEnvironment.manifestName]}))
      (writeFile env.faults env.manifestFile (asBytes (linkManifest graph))) k :=
    makes_writeFile hfree h.record
  have hall : (filesOnly {env.staged [oathName, LinkEnvironment.manifestName]}).all ⊆
      env.trees := by
    rintro loc (((hnone | rfl) | hnone) | hnone)
    · exact hnone.elim
    · exact staged_mem_trees env _
    · exact hnone.elim
    · exact hnone.elim
  refine ⟨rooted_kept hmakes hrun h.grown.rooted,
    h.unchanged.trans (Unchanged.of_ok hmakes hrun hall), fun row rest hrow hrest => ?_,
    content?_of_writeFile hfree h.record hrun⟩
  rw [← h.grown.held row rest hrow hrest]
  apply hmakes.content?_eq hrun
  rintro (((hnone | heq) | hnone) | hnone)
  · exact hnone.elim
  · have hlength := congrArg List.length (staged_injective env heq)
    have hhome := homeOf_length row
    simp only [List.length_append, List.length_cons, List.length_nil] at hlength
    omega
  · exact hnone.elim
  · exact hnone.elim

theorem buildTree_packed (hlinkable : Linkable graph) (hnamed : Named graph)
    (hstored : ∀ row ∈ graph.nodes.rows, Provided env row.2 k.files) (hrooted : Rooted k.files)
    (hgone : k.files.entryAt? env.stageRoot = none ∨ k.files.pathExists env.stage = false)
    (h : buildTree env order k = .ok result k') :
    Rooted k'.files ∧ Unchanged env k.files k'.files ∧
      Packed graph env k.files fun relative => k'.files.content? (env.staged relative) := by
  obtain ⟨_, k₁, hoath, h1⟩ := EStateM.bind_eq_ok.mp h
  obtain ⟨_, k₂, hvirtual, h2⟩ := EStateM.bind_eq_ok.mp h1
  obtain ⟨_, k₃, hhoisted, h3⟩ := EStateM.bind_eq_ok.mp h2
  obtain ⟨_, k₄, hnested, h4⟩ := EStateM.bind_eq_ok.mp h3
  obtain ⟨_, k₅, hdependencies, h5⟩ := EStateM.bind_eq_ok.mp h4
  obtain ⟨_, k₆, hpeers, h6⟩ := EStateM.bind_eq_ok.mp h5
  obtain ⟨_, k₇, hbinDir, h7⟩ := EStateM.bind_eq_ok.mp h6
  obtain ⟨_, k₈, hbins, h8⟩ := EStateM.bind_eq_ok.mp h7
  obtain ⟨_, k₉, hmanifest, hpure⟩ := EStateM.bind_eq_ok.mp h8
  obtain ⟨-, rfl⟩ := EStateM.pure_eq_ok.mp hpure
  have hhousing := housing_nil hrooted hgone (withErrors_eq_ok.mp hoath)
  obtain ⟨done, hall, hhoused⟩ := linkVirtuals_house hnamed hstored hhousing hvirtual
  have hgrown := hhoused.grown hnamed hall hstored
  have hp₂ : Packing graph env k.files k₂.files :=
    ⟨hgrown, hhoused.record hgrown hall, hhoused.unchanged⟩
  have hp₃ : Packing graph env k.files k₃.files :=
    linkEach_files (fun _ hmem => installed_of_hoisted hmem)
      (fun _ _ _ _ _ ⟨_, hrow, hname⟩ hbefore hrun => hbefore.next hnamed (hoistedPlace hrow hname)
        (makes_linkHoisted hnamed hrow hname hbefore.grown) hrun) hp₂ hhoisted
  have hp₄ : Packing graph env k.files k₄.files := by
    refine linkEach_files (I := Packing graph env k.files) (fun _ hmem => hlinkable.nested hmem)
      (fun edge result result' k k' hedge hbefore hrun => ?_) hp₃ hnested
    obtain ⟨row, child, hrow, hchild, rfl⟩ := hedge
    exact hbefore.next hnamed (.inside row _ hrow ⟨child, hchild, rfl⟩)
      (makes_linkNested hnamed hrow hchild hbefore.grown) hrun
  have hp₅ : Packing graph env k.files k₅.files := by
    refine linkEach_files (I := Packing graph env k.files) (fun _ hmem => hlinkable.carries hmem)
      (fun edge result result' k k' hedge hbefore hrun => ?_) hp₄ hdependencies
    obtain ⟨row, child, hrow, hchild, hcarries⟩ := hedge
    exact hbefore.next hnamed (.beside row _ hrow ⟨child, hchild, rfl⟩)
      (makes_linkDependency hnamed hrow hchild hcarries hbefore.grown) hrun
  have hp₆ : Packing graph env k.files k₆.files :=
    linkEach_files (I := Packing graph env k.files) (fun _ hmem => row_of_peerEdge hmem)
      (fun _ _ _ _ _ hedge hbefore hrun => linkPeer_packing hnamed hedge hbefore hrun) hp₅ hpeers
  have hp₇ := hp₆.next hnamed (.bin []) (makes_binDir hnamed hp₆.grown) hbinDir
  have hp₈ : Packing graph env k.files k₈.files :=
    linkEach_files (P := fun _ => True) (I := Packing graph env k.files) (fun _ _ => trivial)
      (fun _ _ _ _ _ _ hbefore hrun => linkHoistedBins_packing hnamed hbefore hrun) hp₇ hbins
  exact writeManifest_packed hnamed hp₈ (withErrors_eq_ok.mp hmanifest)

end Packing

/-! ## The live tree -/

section Live
variable {graph : DepGraph} {order : GraphOrder graph} {env : LinkEnvironment} {k k' : Kernel}
  {fs : LinkedFiles} {result : LinkResult}

theorem fullLink_packed (hrooted : Rooted k.files) (hlinkable : Linkable graph)
    (hstored : ∀ row ∈ graph.nodes.rows, Provided env row.2 k.files)
    (h : fullLink env order k = .ok result k') :
    Named graph ∧ Rooted k'.files ∧ Unchanged env k.files k'.files ∧
      Packed graph env k.files fun relative => k'.files.content? (env.liveRoot ++ relative) := by
  obtain ⟨_, k₁, hcheck, h1⟩ := EStateM.bind_eq_ok.mp h
  obtain ⟨_, k₂, hrecover, h2⟩ := EStateM.bind_eq_ok.mp h1
  obtain ⟨_, k₃, hbuild, h3⟩ := EStateM.bind_eq_ok.mp h2
  obtain ⟨_, k₄, haside, h4⟩ := EStateM.bind_eq_ok.mp h3
  obtain ⟨_, k₅, hpromote, h5⟩ := EStateM.bind_eq_ok.mp h4
  obtain ⟨_, k₆, hdrop, hpure⟩ := EStateM.bind_eq_ok.mp h5
  obtain ⟨-, rfl⟩ := EStateM.pure_eq_ok.mp hpure
  obtain ⟨hvalid, rfl⟩ := checkGraphNames_eq_ok.mp hcheck
  have hnamed := named_of_validated hlinkable hvalid
  obtain ⟨hrooted₂, hsame₂, hgone⟩ := recoverLinkTransaction_ok hrooted hrecover
  obtain ⟨hrooted₃, hsame₃, hpacked⟩ := buildTree_packed hlinkable hnamed
    (fun row hrow => (hstored row hrow).kept hsame₂) hrooted₂ hgone hbuild
  obtain ⟨hrooted₄, hsame₄, hlive⟩ := moves_live hrooted₃ haside hpromote hdrop
  refine ⟨hnamed, hrooted₄, (hsame₂.trans hsame₃).trans hsame₄, fun row rest hrow hrest => ?_, ?_⟩
  · have hheld := hpacked.packages row rest hrow hrest
    rw [hlive, hheld]
    exact hsame₂ _ ((hstored row hrow).apart.apart rest)
  · rw [hlive]
    exact hpacked.manifest

/-- A link that does not find its manifest is a full one. -/
theorem fullLink_of_linkAll
    (hfresh : ∀ k₁, recoverLinkTransaction env k = .ok () k₁ →
      isUpToDate env graph k₁.files = false)
    (h : linkAll env order k = .ok result k') : fullLink env order k = .ok result k' := by
  obtain ⟨_, k₁, hcheck, h1⟩ := EStateM.bind_eq_ok.mp h
  obtain ⟨_, k₂, hrecover, h2⟩ := EStateM.bind_eq_ok.mp h1
  obtain ⟨upToDate, k₃, hread, h3⟩ := EStateM.bind_eq_ok.mp h2
  obtain ⟨rfl, rfl⟩ := read_eq_ok.mp hread
  obtain ⟨-, rfl⟩ := checkGraphNames_eq_ok.mp hcheck
  rw [hfresh _ hrecover, if_neg Bool.false_ne_true] at h3
  exact EStateM.bind_eq_ok.mpr ⟨(), _, hcheck, EStateM.bind_eq_ok.mpr ⟨(), _, hrecover, h3⟩⟩

theorem removeTree_live {tree : Name} {message : String} (hother : tree ≠ nodeModules)
    (hrooted : Rooted k.files)
    (h : context message (removeDirAll env.faults (.ofNames env.project [tree])) k = .ok () k')
    (rest : List Name) :
    k'.files.content? (env.liveRoot ++ rest) = k.files.content? (env.liveRoot ++ rest) := by
  have hmakes : Makes (Within (removesBelow (env.project ++ [tree])))
      (removeDirAll env.faults (.ofNames env.project [tree])) k :=
    makes_removeDirAll hrooted (linkFree_singleton _ _ _)
  exact live_of_removes hother hmakes (withErrors_eq_ok.mp h) rest

/-- A live tree wins over a backup. -/
theorem recoverBackup_live (hrooted : Rooted k.files) (hlive : k.files.pathExists env.live = true)
    (h : recoverBackup env k = .ok () k') (rest : List Name) :
    k'.files.content? (env.liveRoot ++ rest) = k.files.content? (env.liveRoot ++ rest) := by
  obtain ⟨backed, k₁, hread, h1⟩ := EStateM.bind_eq_ok.mp h
  obtain ⟨-, rfl⟩ := read_eq_ok.mp hread
  split_ifs at h1
  · obtain ⟨live, k₂, hthere, h2⟩ := EStateM.bind_eq_ok.mp h1
    obtain ⟨rfl, rfl⟩ := read_eq_ok.mp hthere
    rw [if_pos hlive] at h2
    exact removeTree_live (by decide) hrooted h2 rest
  · obtain ⟨-, rfl⟩ := EStateM.pure_eq_ok.mp h1
    rfl

theorem recoverLinkTransaction_live (hrooted : Rooted k.files)
    (hlive : k.files.pathExists env.live = true) (h : recoverLinkTransaction env k = .ok () k')
    (rest : List Name) :
    k'.files.content? (env.liveRoot ++ rest) = k.files.content? (env.liveRoot ++ rest) := by
  obtain ⟨_, k₁, hbackup, hclean⟩ := EStateM.bind_eq_ok.mp h
  have hrooted₁ := (recoverBackup_ok hrooted hbackup).1
  rw [← recoverBackup_live hrooted hlive hbackup rest]
  obtain ⟨staged, k₂, hread, h1⟩ := EStateM.bind_eq_ok.mp hclean
  obtain ⟨-, rfl⟩ := read_eq_ok.mp hread
  split_ifs at h1
  · exact removeTree_live (by decide) hrooted₁ h1 rest
  · obtain ⟨-, rfl⟩ := EStateM.pure_eq_ok.mp h1
    rfl

/-! ## A link that finds its manifest -/

/-- The manifest that the live tree records. -/
def Records (env : LinkEnvironment) (manifest : String) (fs : LinkedFiles) : Prop :=
  fs.content? (env.liveRoot ++ [oathName, LinkEnvironment.manifestName]) =
    some (.file (asBytes manifest))

theorem Records.isOpen {manifest : String} (hrooted : Rooted fs)
    (h : Records env manifest fs) : Open fs env.project [nodeModules, oathName] := by
  apply open_of_directory hrooted
  have hplace : env.project ++ [nodeModules, oathName] = env.liveRoot ++ [oathName] :=
    (List.append_assoc env.project [nodeModules] [oathName]).symm
  rw [hplace]
  apply hrooted _ LinkEnvironment.manifestName
  intro hnone
  have hgone := content?_eq_none.mpr hnone
  rw [List.append_assoc, List.singleton_append] at hgone
  unfold Records at h
  rw [hgone] at h
  cases h

theorem Records.live {manifest : String} (hrooted : Rooted fs) (h : Records env manifest fs) :
    fs.pathExists env.live = true := by
  have hopen : Open fs env.project [nodeModules] := by
    have hbelow := h.isOpen hrooted
    exact hbelow.of_prefix ⟨[oathName], rfl⟩
  exact pathExists_open hopen (List.cons_ne_nil _ _)

theorem Records.upToDate (hrooted : Rooted fs) (h : Records env (linkManifest graph) fs) :
    isUpToDate env graph fs = true := by
  obtain ⟨inode, hentry, hdata⟩ := content?_eq_file.mp h
  have hplace : env.project ++ [nodeModules, oathName] ++ [LinkEnvironment.manifestName] =
      env.liveRoot ++ [oathName, LinkEnvironment.manifestName] := by
    simp only [LinkEnvironment.liveRoot, List.append_assoc, List.cons_append, List.nil_append]
  rw [← hplace] at hentry
  have hfile : fileAt fs ((env.live.join oathName).join LinkEnvironment.manifestName) =
      .ok (env.project ++ [nodeModules, oathName] ++ [LinkEnvironment.manifestName], inode) :=
    fileAt_open (h.isOpen hrooted) hentry
  have hmatches : manifestMatches env (linkManifest graph) fs = true := by
    unfold manifestMatches
    dsimp only
    rw [hfile]
    exact decide_eq_true hdata
  unfold isUpToDate
  rw [h.live hrooted, hmatches]
  rfl

/-- A link of a graph whose manifest is recorded leaves the tree as it is. -/
theorem linkAll_recorded (hrooted : Rooted k.files)
    (hrecord : Records env (linkManifest graph) k.files)
    (h : linkAll env order k = .ok result k') (rest : List Name) :
    k'.files.content? (env.liveRoot ++ rest) = k.files.content? (env.liveRoot ++ rest) := by
  obtain ⟨_, k₁, hcheck, h1⟩ := EStateM.bind_eq_ok.mp h
  obtain ⟨_, k₂, hrecover, h2⟩ := EStateM.bind_eq_ok.mp h1
  obtain ⟨upToDate, k₃, hread, h3⟩ := EStateM.bind_eq_ok.mp h2
  obtain ⟨rfl, rfl⟩ := read_eq_ok.mp hread
  obtain ⟨-, rfl⟩ := checkGraphNames_eq_ok.mp hcheck
  have hsame := recoverLinkTransaction_live hrooted (hrecord.live hrooted) hrecover
  have hrooted' := (recoverLinkTransaction_ok hrooted hrecover).1
  have hrecord' : Records env (linkManifest graph) k₃.files := (hsame _).trans hrecord
  rw [if_pos (hrecord'.upToDate hrooted')] at h3
  obtain ⟨-, rfl⟩ := EStateM.pure_eq_ok.mp h3
  exact hsame rest

end Live

end Oath.Store
