import Oath.Cli.ScriptConsent

/-! What an `install` hands to the linker. The run up to the linker does not depend on the
linker, so what would be refused there is what the run links. -/

namespace Oath.Cli
open Core Resolve Workspace

/-! ## What is linked -/

inductive LinkTarget
  | plan (placement : PlacementPlan) (directory : String)
  | graph (resolved : DepGraph) (directory : String)

def LinkTarget.link {Text : Type} (env : InstallEnvironment Text) :
    LinkTarget → Except String Unit
  | .plan placement directory => env.linkPlacementPlan placement directory
  | .graph resolved directory => env.linkAll resolved directory

def LinkTarget.packages : LinkTarget → List DepNode
  | .plan placement _ =>
    match placement.toDepGraph with
    | .ok resolved => resolved.nodes.rows.map Prod.snd
    | .error _ => []
  | .graph resolved _ => resolved.nodes.rows.map Prod.snd

section Targets
variable {Text : Type} (env : InstallEnvironment Text) (options : InstallOptions)
  (s : Session Text)

def ResolvedProject.target (resolved : ResolvedProject) : LinkTarget :=
  match resolved.plan with
  | some plan => .plan plan env.cwd
  | none => .graph resolved.graph env.cwd

def projectTarget? : Option LinkTarget :=
  match projectManifest env options s with
  | .error _ _ => none
  | .ok manifest _ =>
    match resolveProject env options manifest s with
    | .error _ _ => none
    | .ok resolved _ => some (resolved.target env)

def workspaceTarget? (ws : WorkspaceRoot) : Option LinkTarget :=
  if nothingToInstall (collectedDeps env.toEnvironment ws s) then none
  else match planWorkspace env.toEnvironment ws s with
    | .error _ _ => none
    | .ok plan _ => some (.plan plan ws.root)

def planGlobal (globalDir : String) : Command Text PlacementPlan := do
  writeFile (packageJsonPath globalDir) (env.json.pretty (globalManifest options.packages))
  let plan ← planWith env.toEnvironment globalDir .default
  fromExcept (hydrateMissingRegistryMetadata env.toEnvironment plan)

def globalTarget? (globalDir : String) : Option LinkTarget :=
  match planGlobal env options globalDir s with
  | .error _ _ => none
  | .ok plan _ => some (.plan plan globalDir)

/-- What there is to link by the planner, before anything is downloaded. -/
def linkTarget? : Option LinkTarget :=
  if options.dryRun then none
  else if options.global then env.home.bind fun home =>
    globalTarget? env options s (home ++ "/.oath/global")
  else match env.workspace with
    | some ws =>
      if options.packages.isEmpty then workspaceTarget? env s ws else projectTarget? env options s
    | none => projectTarget? env options s

end Targets

/-! ## The run around the linker -/

section Runs
variable {Text : Type} {env : InstallEnvironment Text} {options : InstallOptions}
  {s s' : Session Text}

/-- The same surroundings with another linker. -/
def InstallEnvironment.withLinker (env : InstallEnvironment Text)
    (linkPlacementPlan : PlacementPlan → String → Except String Unit)
    (linkAll : DepGraph → String → Except String Unit) : InstallEnvironment Text :=
  { env with linkPlacementPlan, linkAll }

variable (env) in
/-- With every linker, the command comes to link this target and goes on in the same way. -/
def LinksTarget (command : InstallEnvironment Text → Command Text Unit) (s : Session Text)
    (target : LinkTarget) : Prop :=
  ∃ (s₀ : Session Text) (rest : Command Text Unit), ∀ linkPlacementPlan linkAll,
    command (env.withLinker linkPlacementPlan linkAll) s =
      (fromExcept (target.link (env.withLinker linkPlacementPlan linkAll)) >>= fun _ => rest) s₀

variable (env) in
/-- The linker makes no difference to the command. -/
def LinksNothing (command : InstallEnvironment Text → Command Text Unit) (s s' : Session Text) :
    Prop :=
  ∀ linkPlacementPlan linkAll, command (env.withLinker linkPlacementPlan linkAll) s = .ok () s'

variable (env) in
def LinksAsPlanned (command : InstallEnvironment Text → Command Text Unit)
    (s s' : Session Text) : Option LinkTarget → Prop
  | some target => LinksTarget env command s target
  | none => LinksNothing env command s s'

theorem LinksAsPlanned.congr {command command' : InstallEnvironment Text → Command Text Unit}
    {target : Option LinkTarget} (h : LinksAsPlanned env command s s' target)
    (hsame : ∀ linkPlacementPlan linkAll,
      command' (env.withLinker linkPlacementPlan linkAll) s =
        command (env.withLinker linkPlacementPlan linkAll) s) :
    LinksAsPlanned env command' s s' target := by
  cases target with
  | none => exact fun linkPlacementPlan linkAll => (hsame _ _).trans (h _ _)
  | some target =>
    obtain ⟨s₀, rest, hlinks⟩ := h
    exact ⟨s₀, rest, fun linkPlacementPlan linkAll => (hsame _ _).trans (hlinks _ _)⟩

theorem bind_ok {α β : Type} {x : Command Text α} {f : α → Command Text β} {a : α}
    (h : x s = .ok a s') : (x >>= f) s = f a s' := by
  show EStateM.bind x f s = _
  unfold EStateM.bind
  rw [h]

/-- What is missing in the store depends on the store only. -/
theorem missingStoreNodes_withLinker (env : InstallEnvironment Text)
    (linkPlacementPlan : PlacementPlan → String → Except String Unit)
    (linkAll : DepGraph → String → Except String Unit) (nodes : List DepNode)
    (scheduled : List Identity) :
    missingStoreNodes (env.withLinker linkPlacementPlan linkAll).toEnvironment nodes scheduled =
      missingStoreNodes env.toEnvironment nodes scheduled := by
  induction nodes generalizing scheduled with
  | nil => rfl
  | cons node rest ih =>
    rw [missingStoreNodes, missingStoreNodes, ih, ih]
    rfl

theorem downloadMissing_withLinker (env : InstallEnvironment Text)
    (linkPlacementPlan : PlacementPlan → String → Except String Unit)
    (linkAll : DepGraph → String → Except String Unit) (graph : DepGraph) :
    downloadMissing (env.withLinker linkPlacementPlan linkAll).toEnvironment graph =
      downloadMissing env.toEnvironment graph := by
  unfold downloadMissing
  rw [missingStoreNodes_withLinker]
  rfl

/-! ## The project -/

theorem materialize_links {manifest : ProjectManifest} {resolved : ResolvedProject}
    {trusted : List String} (h : materialize env options manifest resolved trusted s = .ok () s') :
    LinksTarget env (fun env => materialize env options manifest resolved trusted) s
      (resolved.target env) := by
  obtain ⟨_, s₁, hbefore, h1⟩ := EStateM.bind_eq_ok.mp h
  obtain ⟨_, s₂, hage, h2⟩ := EStateM.bind_eq_ok.mp h1
  obtain ⟨count, s₃, hdownload, -⟩ := EStateM.bind_eq_ok.mp h2
  let after : Command Text Unit := do
    updateLockfile env options (projectLock resolved.graph manifest)
    updateManifest env manifest
    dependencyScripts env.scripts (scriptOptions options trusted) resolved.graph
    rootLifecycle env options ["install", "postinstall", "prepare"]
  have hreach : ∀ linkPlacementPlan linkAll,
      materialize (env.withLinker linkPlacementPlan linkAll) options manifest resolved trusted s =
        (linkProject (env.withLinker linkPlacementPlan linkAll) resolved >>= fun _ => after) s₃ := by
    intro linkPlacementPlan linkAll
    let missing := (missingStoreNodes env.toEnvironment
      (resolved.graph.nodes.rows.map Prod.snd) []).1
    unfold materialize
    rw [missingStoreNodes_withLinker]
    show (rootLifecycle env options ["preinstall"] >>= fun _ =>
      fromExcept (env.checkReleaseAge options.minAge missing) >>= fun _ =>
      fromExcept (env.download missing) >>= fun _ =>
      linkProject (env.withLinker linkPlacementPlan linkAll) resolved >>= fun _ => after) s = _
    rw [bind_ok hbefore, bind_ok hage, bind_ok hdownload]
  obtain ⟨plan, graph⟩ := resolved
  cases plan with
  | some plan =>
    refine ⟨s₃, writePlan env.json env.cwd plan >>= fun _ => after, ?_⟩
    intro linkPlacementPlan linkAll
    exact (hreach _ _).trans (congrFun (bind_assoc _ _ _) s₃)
  | none => exact ⟨s₃, after, hreach⟩

theorem installProject_links (h : installProject env options s = .ok () s') :
    LinksAsPlanned env (fun env => installProject env options) s s'
      (if options.dryRun then none else projectTarget? env options s) := by
  obtain ⟨manifest, finished, trusted, resolved, hprepared, hrest⟩ := installProject_prepared h
  have hsame : ∀ linkPlacementPlan linkAll,
      installProject (env.withLinker linkPlacementPlan linkAll) options s =
        (if options.dryRun then pure ()
          else materialize (env.withLinker linkPlacementPlan linkAll) options finished resolved
            trusted) s := by
    intro linkPlacementPlan linkAll
    have hadded : (fromExcept (manifest.added.foldlM
        (finishAdded options.dev resolved.graph) manifest) : Command Text ProjectManifest) s =
        .ok finished s := fromExcept_ok.mpr ⟨hprepared.finishAdded, rfl⟩
    exact (bind_ok hprepared.projectManifest).trans ((bind_ok hprepared.trustedDeps).trans
      ((bind_ok hprepared.resolveProject).trans ((bind_ok hadded).trans
        (bind_ok hprepared.checkFrozen))))
  cases hdryRun : options.dryRun with
  | true =>
    rw [hdryRun, if_pos rfl] at hrest
    intro linkPlacementPlan linkAll
    refine (hsame _ _).trans ?_
    rw [hdryRun, if_pos rfl, hrest]
    rfl
  | false =>
    rw [hdryRun, if_neg Bool.false_ne_true] at hrest
    have htarget : projectTarget? env options s = some (resolved.target env) := by
      unfold projectTarget?
      rw [hprepared.projectManifest]
      dsimp only
      rw [hprepared.resolveProject]
    rw [if_neg Bool.false_ne_true, htarget]
    obtain ⟨s₀, rest, hlinks⟩ := materialize_links hrest
    refine ⟨s₀, rest, fun linkPlacementPlan linkAll => (hsame _ _).trans ?_⟩
    rw [hdryRun, if_neg Bool.false_ne_true]
    exact hlinks linkPlacementPlan linkAll

/-! ## Workspaces and global packages -/

theorem cmdInstallWorkspace_links {ws : WorkspaceRoot}
    (h : cmdInstallWorkspace env.toEnvironment ws options.dryRun s = .ok () s') :
    LinksAsPlanned env (fun env => cmdInstallWorkspace env.toEnvironment ws options.dryRun) s s'
      (if options.dryRun then none else workspaceTarget? env s ws) := by
  have hread : (get : Command Text (Session Text)) s = .ok s s := rfl
  unfold cmdInstallWorkspace at h
  rw [bind_ok hread] at h
  have hsame : ∀ linkPlacementPlan linkAll,
      cmdInstallWorkspace (env.withLinker linkPlacementPlan linkAll).toEnvironment ws
        options.dryRun s =
      (if nothingToInstall (collectedDeps env.toEnvironment ws s) || options.dryRun then pure ()
        else planWorkspace env.toEnvironment ws >>=
          installPlanned (env.withLinker linkPlacementPlan linkAll).toEnvironment ws
            (collectedDeps env.toEnvironment ws s).external) s := fun _ _ => bind_ok hread
  by_cases hdryRun : options.dryRun
  · rw [hdryRun, Bool.or_true, if_pos rfl] at h
    rw [if_pos hdryRun]
    intro linkPlacementPlan linkAll
    refine (hsame _ _).trans ?_
    rw [hdryRun, Bool.or_true, if_pos rfl, h]
  · rw [if_neg hdryRun]
    rw [Bool.not_eq_true] at hdryRun
    rw [hdryRun, Bool.or_false] at h
    unfold workspaceTarget?
    split_ifs at h ⊢ with hnothing
    · intro linkPlacementPlan linkAll
      refine (hsame _ _).trans ?_
      rw [hdryRun, Bool.or_false, if_pos hnothing, h]
    · obtain ⟨plan, s₁, hplan, h1⟩ := EStateM.bind_eq_ok.mp h
      obtain ⟨graph, s₂, hgraph, h2⟩ := EStateM.bind_eq_ok.mp h1
      obtain ⟨count, s₃, hdownload, -⟩ := EStateM.bind_eq_ok.mp h2
      rw [hplan]
      let after : Command Text Unit := do
        writePlan env.json ws.root plan
        writeLockfile env.json ws.root
          (workspaceLock graph (collectedDeps env.toEnvironment ws s).external)
      refine ⟨s₃, after, fun linkPlacementPlan linkAll => (hsame _ _).trans ?_⟩
      rw [hdryRun, Bool.or_false, if_neg hnothing, bind_ok hplan]
      unfold installPlanned
      simp only [downloadMissing_withLinker]
      show (fromExcept plan.toDepGraph >>= fun graph =>
        fromExcept (downloadMissing env.toEnvironment graph) >>= fun _ =>
        fromExcept (linkPlacementPlan plan ws.root) >>= fun _ =>
        writePlan env.json ws.root plan >>= fun _ =>
        writeLockfile env.json ws.root
          (workspaceLock graph (collectedDeps env.toEnvironment ws s).external)) s₁ = _
      rw [bind_ok hgraph, bind_ok hdownload]
      rfl

theorem installGlobal_links {globalDir : String}
    (h : installGlobal env options.packages globalDir s = .ok () s') :
    LinksAsPlanned env (fun env => installGlobal env options.packages globalDir) s s'
      (globalTarget? env options s globalDir) := by
  obtain ⟨_, s₁, hwrite, h1⟩ := EStateM.bind_eq_ok.mp h
  obtain ⟨plan, s₂, hplan, h2⟩ := EStateM.bind_eq_ok.mp h1
  obtain ⟨hydrated, s₃, hhydrated, h3⟩ := EStateM.bind_eq_ok.mp h2
  obtain ⟨graph, s₄, hgraph, h4⟩ := EStateM.bind_eq_ok.mp h3
  obtain ⟨count, s₅, hdownload, -⟩ := EStateM.bind_eq_ok.mp h4
  have hplanned : planGlobal env options globalDir s = .ok hydrated s₃ := by
    unfold planGlobal
    rw [bind_ok hwrite, bind_ok hplan, hhydrated]
  have htarget : globalTarget? env options s globalDir = some (.plan hydrated globalDir) := by
    unfold globalTarget?
    rw [hplanned]
  rw [htarget]
  let after : Command Text Unit := do
    writePlan env.json globalDir hydrated
    fromExcept (env.linkGlobalBins hydrated)
  refine ⟨s₅, after, fun linkPlacementPlan linkAll => ?_⟩
  show installGlobal _ options.packages globalDir s = _
  unfold installGlobal
  simp only [downloadMissing_withLinker]
  show (writeFile (packageJsonPath globalDir)
      (env.json.pretty (globalManifest options.packages)) >>= fun _ =>
    planWith env.toEnvironment globalDir .default >>= fun plan =>
    fromExcept (hydrateMissingRegistryMetadata env.toEnvironment plan) >>= fun plan =>
    fromExcept plan.toDepGraph >>= fun graph =>
    fromExcept (downloadMissing env.toEnvironment graph) >>= fun _ =>
    fromExcept (linkPlacementPlan plan globalDir) >>= fun _ =>
    writePlan env.json globalDir plan >>= fun _ => fromExcept (env.linkGlobalBins plan)) s = _
  rw [bind_ok hwrite, bind_ok hplan, bind_ok hhydrated, bind_ok hgraph, bind_ok hdownload]
  rfl

theorem cmdInstallGlobal_links
    (h : cmdInstallGlobal env options.packages options.dryRun s = .ok () s') :
    LinksAsPlanned env (fun env => cmdInstallGlobal env options.packages options.dryRun) s s'
      (if options.dryRun then none else env.home.bind fun home =>
        globalTarget? env options s (home ++ "/.oath/global")) := by
  unfold cmdInstallGlobal at h
  by_cases hnone : options.packages.isEmpty
  · rw [if_pos hnone] at h
    cases h
  · rw [if_neg hnone] at h
    cases hhome : env.home with
    | none =>
      rw [hhome] at h
      cases h
    | some home =>
      rw [hhome] at h
      dsimp only at h
      have hsame : ∀ linkPlacementPlan linkAll,
          cmdInstallGlobal (env.withLinker linkPlacementPlan linkAll) options.packages
            options.dryRun =
          if options.dryRun then pure () else
            installGlobal (env.withLinker linkPlacementPlan linkAll) options.packages
              (home ++ "/.oath/global") := by
        intro linkPlacementPlan linkAll
        unfold cmdInstallGlobal
        rw [if_neg hnone, show (env.withLinker linkPlacementPlan linkAll).home = some home from hhome]
      by_cases hdryRun : options.dryRun
      · rw [if_pos hdryRun] at h ⊢
        intro linkPlacementPlan linkAll
        refine (congrFun (hsame _ _) s).trans ?_
        rw [if_pos hdryRun, h]
      · rw [if_neg hdryRun] at h ⊢
        rw [Option.bind_some]
        apply (installGlobal_links h).congr
        intro linkPlacementPlan linkAll
        refine (congrFun (hsame _ _) s).trans ?_
        rw [if_neg hdryRun]

/-! ## The whole command -/

theorem dispatch_links (h : dispatch env options s = .ok () s') :
    LinksAsPlanned env (fun env => dispatch env options) s s'
      (if options.dryRun then none else match env.workspace with
        | some ws =>
          if options.packages.isEmpty then workspaceTarget? env s ws
          else projectTarget? env options s
        | none => projectTarget? env options s) := by
  unfold dispatch at h
  cases hworkspace : env.workspace with
  | none =>
    rw [hworkspace] at h
    apply (installProject_links h).congr
    intro linkPlacementPlan linkAll
    show dispatch _ options s = _
    unfold dispatch
    rw [show (env.withLinker linkPlacementPlan linkAll).workspace = none from hworkspace]
  | some ws =>
    rw [hworkspace] at h
    dsimp only at h ⊢
    by_cases hpackages : options.packages.isEmpty
    · rw [if_pos hpackages] at h ⊢
      apply (cmdInstallWorkspace_links h).congr
      intro linkPlacementPlan linkAll
      show dispatch _ options s = _
      unfold dispatch
      rw [show (env.withLinker linkPlacementPlan linkAll).workspace = some ws from hworkspace]
      dsimp only
      rw [if_pos hpackages]
    · rw [if_neg hpackages] at h ⊢
      apply (installProject_links h).congr
      intro linkPlacementPlan linkAll
      show dispatch _ options s = _
      unfold dispatch
      rw [show (env.withLinker linkPlacementPlan linkAll).workspace = some ws from hworkspace]
      dsimp only
      rw [if_neg hpackages]

/-- A run that succeeds links what was planned. -/
theorem cmdInstall_links (h : cmdInstall env options s = .ok () s') :
    LinksAsPlanned env (fun env => cmdInstall env options) s s' (linkTarget? env options s) := by
  unfold cmdInstall at h
  by_cases hglobal : options.global
  · rw [if_pos hglobal] at h
    have htarget : linkTarget? env options s = if options.dryRun then none
        else env.home.bind fun home => globalTarget? env options s (home ++ "/.oath/global") := by
      rw [linkTarget?, if_pos hglobal]
    rw [htarget]
    apply (cmdInstallGlobal_links h).congr
    intro linkPlacementPlan linkAll
    show cmdInstall _ options s = _
    rw [cmdInstall, if_pos hglobal]
  · rw [if_neg hglobal] at h
    obtain ⟨_, s₁, hpreconditions, hdispatch⟩ := EStateM.bind_eq_ok.mp h
    have hs₁ : s₁ = s := by
      unfold frozenPreconditions at hpreconditions
      split_ifs at hpreconditions
      exact (EStateM.Result.ok.inj hpreconditions).2.symm
    subst hs₁
    rw [linkTarget?, if_neg hglobal]
    apply (dispatch_links hdispatch).congr
    intro linkPlacementPlan linkAll
    show cmdInstall _ options _ = _
    rw [cmdInstall, if_neg hglobal]
    exact bind_ok (show frozenPreconditions (env.withLinker _ _) options _ = _ from hpreconditions)

/-! ## Refused packages -/

/-- The same surroundings with a linker that refuses some packages. -/
def InstallEnvironment.refusing (env : InstallEnvironment Text) (refused : DepNode → Bool)
    (message : String) : InstallEnvironment Text :=
  env.withLinker
    (fun plan directory =>
      if (LinkTarget.plan plan directory).packages.any refused then .error message
      else env.linkPlacementPlan plan directory)
    (fun graph directory =>
      if (LinkTarget.graph graph directory).packages.any refused then .error message
      else env.linkAll graph directory)

theorem link_refusing (refused : DepNode → Bool) (message : String) (target : LinkTarget) :
    target.link (env.refusing refused message) =
      if target.packages.any refused then .error message else target.link env := by
  cases target with
  | plan placement directory => rfl
  | graph resolved directory => rfl

/-- The run links such a package: a linker that refuses them stops it. -/
def Links (env : InstallEnvironment Text) (options : InstallOptions) (s : Session Text)
    (refused : DepNode → Bool) : Prop :=
  ∀ message, ∃ s₁, cmdInstall (env.refusing refused message) options s = .error message s₁

theorem links_iff (h : cmdInstall env options s = .ok () s') (refused : DepNode → Bool) :
    Links env options s refused ↔
      ∃ target, linkTarget? env options s = some target ∧ target.packages.any refused := by
  have hplanned := cmdInstall_links h
  cases htarget : linkTarget? env options s with
  | none =>
    rw [htarget] at hplanned
    constructor
    · intro hlinks
      obtain ⟨s₁, hstopped⟩ := hlinks ""
      cases (hplanned _ _).symm.trans hstopped
    · rintro ⟨_, hsome, -⟩
      cases hsome
  | some target =>
    rw [htarget] at hplanned
    obtain ⟨s₀, rest, hruns⟩ := hplanned
    have hrun : cmdInstall env options s = (fromExcept (target.link env) >>= fun _ => rest) s₀ :=
      hruns env.linkPlacementPlan env.linkAll
    have hrefused : ∀ message, cmdInstall (env.refusing refused message) options s =
        (fromExcept (if target.packages.any refused then .error message else target.link env)
          >>= fun _ => rest) s₀ := by
      intro message
      rw [← link_refusing]
      exact hruns _ _
    constructor
    · intro hlinks
      refine ⟨target, rfl, ?_⟩
      by_contra hnone
      obtain ⟨s₁, hstopped⟩ := hlinks ""
      rw [hrefused, if_neg hnone, ← hrun] at hstopped
      cases h.symm.trans hstopped
    · rintro ⟨_, hsome, hany⟩ message
      obtain rfl := Option.some.inj hsome
      rw [hrefused, if_pos hany]
      exact ⟨s₀, rfl⟩

end Runs

end Oath.Cli
