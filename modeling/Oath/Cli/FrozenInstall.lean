import Oath.Cli.Install

/-! `install --frozen-lockfile`: when it keeps the lockfile and refuses one that does not
match. -/

namespace Oath.Cli
open Contracts Resolve Workspace

/-! ## What the pieces leave alone -/

section Pieces
variable {Text : Type} {path : String}

/-- The file of the path stays as it is. -/
abbrev Untouched {α : Type} (path : String) : Command Text α → Prop := Keeps fun s => s.files path

variable {env : InstallEnvironment Text}

theorem untouched_runCommand {event : Event}
    (h : ∀ files : Files Text, env.afterScript event files path = files path) :
    Untouched path (runCommand env.scripts event) :=
  keeps_bind (fun _ => rfl) fun _ s => (h s.files).symm

variable (h : ∀ (event : Event) (files : Files Text), env.afterScript event files path = files path)
include h

theorem untouched_rootLifecycle (options : InstallOptions) (hooks : List String) :
    Untouched path (rootLifecycle env options hooks) := by
  unfold rootLifecycle
  split_ifs
  · refine keeps_forM fun hook s => ?_
    unfold runRootLifecycle
    split
    · rfl
    · split
      · rfl
      · exact untouched_runCommand (h _) s
  · exact keeps_pure ()

theorem untouched_dependencyScript (options : ScriptOptions) (location : String)
    (node : DepNode) : Untouched path (dependencyScript env.scripts options location node) := by
  have hrun : Untouched path (runFor env.scripts location node) :=
    keeps_forM fun hook => untouched_runCommand (h _)
  have hprompt : Untouched path (promptInstallScript env.scripts node.name false) := by
    unfold promptInstallScript
    by_cases hallowed : env.scripts.policy.allowsInstallScript node.name
    · rw [if_pos hallowed]
      exact keeps_pure _
    · rw [if_neg hallowed, if_neg Bool.false_ne_true]
      exact fun s => rfl
  unfold dependencyScript
  split_ifs
  · exact keeps_pure ()
  · exact keeps_pure ()
  · exact hrun
  · exact keeps_pure ()
  · refine keeps_bind hprompt fun decision => ?_
    cases decision
    · exact hrun
    · exact hrun
    · exact keeps_pure ()
  · exact keeps_pure ()
  · exact keeps_pure ()

theorem untouched_dependencyScripts (options : ScriptOptions) (graph : DepGraph) :
    Untouched path (dependencyScripts env.scripts options graph) :=
  keeps_forM fun row => untouched_dependencyScript h options row.1 row.2

theorem untouched_materialize {options : InstallOptions} (hfrozen : options.frozenLockfile)
    {manifest : ProjectManifest} (hpending : manifest.pending = none)
    (hplan : planPath env.cwd ≠ path) (resolved : ResolvedProject) (trusted : List String) :
    Untouched path (materialize env options manifest resolved trusted) := by
  refine keeps_bind (untouched_rootLifecycle h options _) fun _ => ?_
  refine keeps_bind (keeps_fromExcept _) fun _ => ?_
  refine keeps_bind (keeps_fromExcept _) fun _ => ?_
  refine keeps_bind ?_ fun _ => ?_
  · unfold linkProject
    cases resolved.plan with
    | none => exact keeps_fromExcept _
    | some plan =>
      exact keeps_bind (keeps_fromExcept _) fun _ => keeps_writeFile hplan _
  · refine keeps_bind ?_ fun _ => ?_
    · unfold updateLockfile
      rw [if_pos hfrozen]
      exact keeps_pure _
    · refine keeps_bind ?_ fun _ => ?_
      · unfold updateManifest
        rw [hpending]
        exact keeps_pure _
      · exact keeps_bind (untouched_dependencyScripts h _ _) fun _ =>
          untouched_rootLifecycle h options _

end Pieces

/-! ## The global and the workspace branch -/

section Branches
variable {Text : Type} {env : InstallEnvironment Text} {s s' : Session Text}

theorem untouched_installGlobal (packages : List String) (globalDir directory : String) :
    Untouched (lockPath directory) (installGlobal env packages globalDir) := by
  refine keeps_bind (keeps_writeFile (packageJsonPath_ne_lockPath _ _) _) fun _ => ?_
  refine keeps_bind (keeps_planWith _ _ _) fun plan => ?_
  refine keeps_bind (keeps_fromExcept _) fun plan => ?_
  refine keeps_bind (keeps_fromExcept _) fun graph => ?_
  refine keeps_bind (keeps_fromExcept _) fun _ => ?_
  refine keeps_bind (keeps_fromExcept _) fun _ => ?_
  refine keeps_bind (keeps_writeFile (planPath_ne_lockPath _ _) _) fun _ => ?_
  exact keeps_fromExcept _

theorem untouched_cmdInstallGlobal (packages : List String) (dryRun : Bool) (directory : String) :
    Untouched (lockPath directory) (cmdInstallGlobal env packages dryRun) := by
  unfold cmdInstallGlobal
  cases env.home with
  | none =>
    dsimp only
    split_ifs
    · exact keeps_throw _
    · exact keeps_throw _
  | some home =>
    dsimp only
    split_ifs
    · exact keeps_throw _
    · exact keeps_pure ()
    · exact untouched_installGlobal _ _ _

def projectRoot (env : InstallEnvironment Text) : String :=
  match env.workspace with
  | some ws => ws.root
  | none => env.cwd

/-- The lockfile of the project records the dependencies that its manifests declare: those of
all packages of a workspace together, or those of `package.json`. -/
def LockMatches (env : InstallEnvironment Text) (s : Session Text) : Prop :=
  match env.workspace with
  | some ws => ∃ lockfile, readLockfile env.json ws.root s = .ok lockfile s ∧
      lockfile.matchesManifest (collectedDeps env.toEnvironment ws s).external .empty
  | none => ∃ checked, checkManifest env.toEnvironment env.cwd s = .ok checked s

/-- A run without a workspace that succeeds has compared the lockfile and kept it. -/
theorem installProject_ok {options : InstallOptions} (hfrozen : options.frozenLockfile)
    (hpackages : options.packages.isEmpty)
    (hscripts : ∀ (event : Event) (files : Files Text),
      env.afterScript event files (lockPath env.cwd) = files (lockPath env.cwd))
    (h : installProject env options s = .ok () s') :
    s'.files (lockPath env.cwd) = s.files (lockPath env.cwd) ∧
      ∃ checked, checkManifest env.toEnvironment env.cwd s = .ok checked s := by
  obtain ⟨manifest, finished, trusted, resolved, hprepared, hrest⟩ := installProject_prepared h
  have hmanifest := hprepared.projectManifest
  unfold projectManifest at hmanifest
  rw [if_pos hpackages] at hmanifest
  obtain ⟨pkg, s₁, hpkg, hfields⟩ := EStateM.bind_eq_ok.mp hmanifest
  obtain ⟨-, rfl⟩ := readPackageJson_ok.mp hpkg
  obtain ⟨rfl, -⟩ := EStateM.Result.ok.inj hfields
  obtain rfl := Except.ok.inj hprepared.finishAdded
  obtain ⟨-, hcompared⟩ := checkFrozen_ok hprepared.checkFrozen
  obtain ⟨existing, hexisting, hmatch⟩ := hcompared hfrozen
  obtain ⟨hdeps, hdev⟩ := lockfilesMatch_manifest hmatch
  constructor
  · split_ifs at hrest
    · rw [hrest]
    · exact keeps_ok (untouched_materialize hscripts hfrozen rfl
        (planPath_ne_lockPath _ _) _ _) hrest
  · have hmanifestMatches : existing.matchesManifest (extractDeps pkg "dependencies")
        (extractDeps pkg "devDependencies") := by
      unfold Lockfile.matchesManifest
      rw [hdeps, hdev]
      simp [projectLock, Lockfile.fromGraphWithManifest]
    exact ⟨(pkg, existing), checkManifest_ok.mpr ⟨hpkg, hexisting, hmanifestMatches, rfl⟩⟩

end Branches

/-! ## When the frozen install keeps its word -/

section Frozen
variable {Text : Type}

def FrozenKept (env : InstallEnvironment Text) (s s' : Session Text) : Prop :=
  s'.files (lockPath (projectRoot env)) = s.files (lockPath (projectRoot env)) ∧ LockMatches env s

/-- The lockfile that the install of the workspace would write is there already. -/
def LockWritten (env : InstallEnvironment Text) (ws : WorkspaceRoot) (s : Session Text) : Prop :=
  ∃ plan graph, planWorkspace env.toEnvironment ws s = .ok plan s ∧ plan.toDepGraph = .ok graph ∧
    s.files (lockPath ws.root) = some (env.json.pretty
      (workspaceLock graph (collectedDeps env.toEnvironment ws s).external).toValue)

/-- Without `--global` and outside a workspace nothing more is needed. -/
def FrozenCondition (env : InstallEnvironment Text) (options : InstallOptions)
    (s : Session Text) : Prop :=
  if options.global then LockMatches env s
  else match env.workspace with
    | none => True
    | some ws => LockMatches env s ∧
        (nothingToInstall (collectedDeps env.toEnvironment ws s) ∨ options.dryRun ∨
          LockWritten env ws s)

/-- A workspace install writes its lockfile whenever it has something to do. -/
theorem workspace_lock_kept_iff {env : InstallEnvironment Text} {ws : WorkspaceRoot}
    {dryRun : Bool} {s s' : Session Text}
    (h : cmdInstallWorkspace env.toEnvironment ws dryRun s = .ok () s') :
    s'.files (lockPath ws.root) = s.files (lockPath ws.root) ↔
      nothingToInstall (collectedDeps env.toEnvironment ws s) ∨ dryRun ∨ LockWritten env ws s := by
  obtain ⟨current, s₁, hcurrent, h1⟩ := EStateM.bind_eq_ok.mp h
  obtain ⟨rfl, rfl⟩ := EStateM.Result.ok.inj hcurrent
  split_ifs at h1 with hnothing
  · obtain rfl := (EStateM.Result.ok.inj h1).2
    rw [Bool.or_eq_true] at hnothing
    exact ⟨fun _ => hnothing.imp_right Or.inl, fun _ => rfl⟩
  · rw [Bool.or_eq_true, not_or] at hnothing
    obtain ⟨plan, s₂, hplan, h2⟩ := EStateM.bind_eq_ok.mp h1
    obtain rfl := planWorkspace_ok hplan
    obtain ⟨graph, hgraph, hfiles⟩ := installPlanned_ok h2
    rw [hfiles, Function.update_self]
    constructor
    · intro hsame
      exact Or.inr (Or.inr ⟨plan, graph, hplan, hgraph, hsame.symm⟩)
    · rintro (hnone | hdry | ⟨plan', graph', hplan', hgraph', hwritten⟩)
      · exact absurd hnone hnothing.1
      · exact absurd hdry hnothing.2
      · obtain ⟨rfl, -⟩ := EStateM.Result.ok.inj (hplan.symm.trans hplan')
        obtain rfl := Except.ok.inj (hgraph.symm.trans hgraph')
        exact hwritten.symm

end Frozen

/-! ## A workspace -/

def demoInstallEnvironment (workspace : Option WorkspaceRoot) :
    InstallEnvironment (Except String Value) where
  toEnvironment := demoEnvironment [demoNode]
  home := none
  workspace := workspace
  legacyResolver := none
  linkAll := fun _ _ => .ok ()
  linkGlobalBins := fun _ => .ok ()
  checkReleaseAge := fun _ _ => .ok ()
  policy := .default
  site := fun _ => ⟨true, true, "", none, true⟩
  afterScript := fun _ files => files

def frozenOptions : InstallOptions :=
  ⟨[], false, false, false, false, false, false, false, true, none⟩

def frozenManifest : Value := .object [("devDependencies", typescript)]

/-- A lockfile of the root package alone. -/
def frozenLock : Lockfile :=
  .fromGraphWithManifest ⟨.ofList ([demoNode].filterMap graphRow?), ["node_modules/typescript"]⟩
    "unnamed" "0.0.0" .empty (extractDeps frozenManifest "devDependencies")

def frozenSession : Session (Except String Value) where
  files := Function.update (demoFiles frozenManifest).files "/repo/oath-lock.json"
    (some (.ok frozenLock.toValue))
  stdin := []
  events := []

end Oath.Cli
