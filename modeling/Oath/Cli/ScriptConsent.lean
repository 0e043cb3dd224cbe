import Oath.Cli.FrozenInstall

/-! Which dependencies run their install scripts in an `install`, and who agreed to it. -/

namespace Oath.Cli
open Contracts Core Resolve Workspace

/-! ## The scripts of the project itself -/

section Roots
variable {Text : Type}

def IsRootScript (event : Event) : Prop := ∃ hook command, event = .ranRootScript hook command

/-- Nothing happened but scripts of the project. -/
def RootScriptsOnly (s s' : Session Text) : Prop :=
  ∃ new, s'.events = s.events ++ new ∧ ∀ event ∈ new, IsRootScript event

theorem RootScriptsOnly.of_events {s s' : Session Text} (h : s'.events = s.events) :
    RootScriptsOnly s s' := ⟨[], by simp [h], by simp⟩

instance : Std.Refl fun s s' : Session Text => RootScriptsOnly s s' := ⟨fun _ => .of_events rfl⟩

instance : IsTrans (Session Text) fun s s' => RootScriptsOnly s s' where
  trans := by
    rintro s₁ s₂ s₃ ⟨first, hfirst, hroots⟩ ⟨later, hlater, hrest⟩
    refine ⟨first ++ later, by rw [hlater, hfirst, List.append_assoc], fun event hmem => ?_⟩
    exact (List.mem_append.mp hmem).elim (hroots event) (hrest event)

/-- The command may run scripts of the project, but none of a dependency. -/
abbrev RunsOnlyRoots {α : Type} : Command Text α → Prop :=
  EStateM.Moves fun s s' => RootScriptsOnly s s'

theorem runsOnlyRoots_of_keeps {α : Type} {x : Command Text α} (h : Keeps Session.events x) :
    RunsOnlyRoots x := fun s => .of_events (h s).symm

theorem runsOnlyRoots_forM {β : Type} {items : List β} {f : β → Command Text Unit}
    (hf : ∀ item, RunsOnlyRoots (f item)) : RunsOnlyRoots (items.forM f) := by
  induction items with
  | nil => exact EStateM.moves_pure ()
  | cons item rest ih => exact EStateM.moves_bind (hf item) fun _ => ih

variable {env : InstallEnvironment Text} {options : InstallOptions}

theorem runRootLifecycle_roots (hook : String) : RunsOnlyRoots (runRootLifecycle env hook) := by
  intro s
  unfold runRootLifecycle
  split
  · exact .of_events rfl
  · split
    · exact .of_events rfl
    · exact ⟨_, rfl, fun event hmem => ⟨_, _, List.mem_singleton.mp hmem⟩⟩

theorem rootLifecycle_roots (hooks : List String) :
    RunsOnlyRoots (rootLifecycle env options hooks) := by
  unfold rootLifecycle
  split_ifs
  · exact runsOnlyRoots_forM runRootLifecycle_roots
  · exact EStateM.moves_pure ()

theorem rootLifecycle_succeeds (hooks : List String) (s : Session Text) :
    ∃ s', rootLifecycle env options hooks s = .ok () s' := by
  unfold rootLifecycle
  split_ifs
  · induction hooks generalizing s with
    | nil => exact ⟨s, rfl⟩
    | cons hook rest ih =>
      have hfirst : ∃ s₁, runRootLifecycle env hook s = .ok () s₁ := by
        unfold runRootLifecycle
        split
        · exact ⟨s, rfl⟩
        · split
          · exact ⟨s, rfl⟩
          · exact ⟨_, rfl⟩
      obtain ⟨s₁, hok⟩ := hfirst
      obtain ⟨s', hrest⟩ := ih s₁
      exact ⟨s', EStateM.bind_eq_ok.mpr ⟨(), s₁, hok, hrest⟩⟩
  · exact ⟨s, rfl⟩

end Roots

section Runs
variable {Text : Type} {env : InstallEnvironment Text} {options : InstallOptions}
  {s s' : Session Text}

/-! ## The steps that run no script of a dependency -/

theorem keeps_linkProject (resolved : ResolvedProject) :
    Keeps Session.events (linkProject env resolved) := by
  unfold linkProject
  cases resolved.plan with
  | none => exact keeps_fromExcept _
  | some plan => exact keeps_bind (keeps_fromExcept _) fun _ => keepsEvents_writeFile _ _

theorem keeps_updateLockfile (lockfile : Lockfile) :
    Keeps Session.events (updateLockfile env options lockfile) := by
  unfold updateLockfile
  split_ifs
  · exact keeps_pure _
  · exact keepsEvents_writeFile _ _

theorem keeps_updateManifest (manifest : ProjectManifest) :
    Keeps Session.events (updateManifest env manifest) := by
  unfold updateManifest
  cases manifest.pending with
  | none => exact keeps_pure _
  | some pkg => exact keepsEvents_writeFile _ _

theorem keeps_projectManifest : Keeps Session.events (projectManifest env options) := by
  have hread : Keeps Session.events (existingManifest env) := by
    intro s
    unfold existingManifest
    split_ifs
    · exact keeps_readPackageJson _ _ s
    · rfl
  unfold projectManifest
  split_ifs
  · exact keeps_bind (keeps_readPackageJson _ _) fun pkg => keeps_pure _
  · refine keeps_bind hread fun pkg => ?_
    refine keeps_bind (keeps_fromExcept _) fun pkg => ?_
    exact keeps_bind (keeps_fromExcept _) fun pkg => keeps_pure _

theorem keeps_resolveProject (manifest : ProjectManifest) :
    Keeps Session.events (resolveProject env options manifest) := by
  unfold resolveProject
  split
  · exact keeps_bind (keeps_fromExcept _) fun _ => keeps_pure _
  · refine keeps_bind (keeps_planWith _ _ _) fun plan => ?_
    refine keeps_bind (keeps_fromExcept _) fun plan => ?_
    exact keeps_bind (keeps_fromExcept _) fun _ => keeps_pure _

theorem keeps_checkFrozen (lockfile : Lockfile) :
    Keeps Session.events (checkFrozen env options lockfile) := by
  unfold checkFrozen
  split_ifs
  · exact keeps_bind (keeps_readLockfile _ _) fun existing => keeps_fromExcept _
  · exact keeps_pure _

theorem keeps_cmdInstallGlobal (packages : List String) (dryRun : Bool) :
    Keeps Session.events (cmdInstallGlobal env packages dryRun) := by
  have hinstall : ∀ globalDir, Keeps Session.events (installGlobal env packages globalDir) := by
    intro globalDir
    refine keeps_bind (keepsEvents_writeFile _ _) fun _ => ?_
    refine keeps_bind (keeps_planWith _ _ _) fun plan => ?_
    refine keeps_bind (keeps_fromExcept _) fun plan => ?_
    refine keeps_bind (keeps_fromExcept _) fun graph => ?_
    refine keeps_bind (keeps_fromExcept _) fun _ => ?_
    refine keeps_bind (keeps_fromExcept _) fun _ => ?_
    exact keeps_bind (keepsEvents_writeFile _ _) fun _ => keeps_fromExcept _
  unfold cmdInstallGlobal
  cases env.home with
  | none =>
    dsimp only
    split_ifs
    · exact keeps_throw _
    · exact keeps_throw _
  | some home =>
    dsimp only
    split_ifs
    · exact keeps_throw _
    · exact keeps_pure ()
    · exact hinstall _

theorem keeps_cmdInstallWorkspace (ws : WorkspaceRoot) (dryRun : Bool) :
    Keeps Session.events (cmdInstallWorkspace env.toEnvironment ws dryRun) := by
  refine keeps_bind (fun _ => rfl) fun current => ?_
  dsimp only
  split_ifs
  · exact keeps_pure ()
  · refine keeps_bind (keeps_bind (keeps_planWith _ _ _) fun _ => keeps_fromExcept _) fun plan => ?_
    refine keeps_bind (keeps_fromExcept _) fun graph => ?_
    refine keeps_bind (keeps_fromExcept _) fun _ => ?_
    refine keeps_bind (keeps_fromExcept _) fun _ => ?_
    exact keeps_bind (keepsEvents_writeFile _ _) fun _ => keepsEvents_writeFile _ _

/-! ## A run that fails -/

/-- A run that fails has run no script of a dependency. -/
def FailsBeforeScripts {α : Type} (x : Command Text α) : Prop :=
  ∀ s message s', x s = .error message s' → RootScriptsOnly s s'

theorem failsBeforeScripts_of_roots {α : Type} {x : Command Text α} (h : RunsOnlyRoots x) :
    FailsBeforeScripts x := by
  intro s message s' hrun
  have hmoved := h s
  rw [hrun] at hmoved
  exact hmoved

theorem failsBeforeScripts_bind {α β : Type} {x : Command Text α} {f : α → Command Text β}
    (hx : RunsOnlyRoots x) (hf : ∀ a, FailsBeforeScripts (f a)) : FailsBeforeScripts (x >>= f) := by
  intro s message s' hrun
  rcases EStateM.bind_eq_error.mp hrun with hfirst | ⟨a, s₁, hfirst, hrest⟩
  · exact failsBeforeScripts_of_roots hx s message s' hfirst
  · have hmoved := hx s
    rw [hfirst] at hmoved
    exact IsTrans.trans _ _ _ hmoved (hf a s₁ message s' hrest)

theorem dependencyScripts_succeeds (options : ScriptOptions) (graph : DepGraph)
    (s : Session Text) : ∃ s', dependencyScripts env.scripts options graph s = .ok () s' := by
  obtain ⟨_, ⟨s', hok, _⟩, _⟩ := forM_dependencyScript_adds env.scripts options graph.nodes.rows s
  exact ⟨s', hok⟩

/-- Once the scripts of the dependencies begin, nothing fails. -/
theorem materialize_fails (manifest : ProjectManifest) (resolved : ResolvedProject)
    (trusted : List String) :
    FailsBeforeScripts (materialize env options manifest resolved trusted) := by
  refine failsBeforeScripts_bind (rootLifecycle_roots _) fun _ => ?_
  refine failsBeforeScripts_bind (runsOnlyRoots_of_keeps (keeps_fromExcept _)) fun _ => ?_
  refine failsBeforeScripts_bind (runsOnlyRoots_of_keeps (keeps_fromExcept _)) fun _ => ?_
  refine failsBeforeScripts_bind (runsOnlyRoots_of_keeps (keeps_linkProject _)) fun _ => ?_
  refine failsBeforeScripts_bind (runsOnlyRoots_of_keeps (keeps_updateLockfile _)) fun _ => ?_
  refine failsBeforeScripts_bind (runsOnlyRoots_of_keeps (keeps_updateManifest _)) fun _ => ?_
  intro s message s' hrun
  rcases EStateM.bind_eq_error.mp hrun with hscripts | ⟨_, s₁, -, hroots⟩
  · obtain ⟨s₁, hok⟩ := dependencyScripts_succeeds (scriptOptions options trusted) resolved.graph s
    cases hok.symm.trans hscripts
  · obtain ⟨s₂, hok⟩ := rootLifecycle_succeeds ["install", "postinstall", "prepare"] s₁
    cases hok.symm.trans hroots

theorem installProject_fails : FailsBeforeScripts (installProject env options) := by
  refine failsBeforeScripts_bind (runsOnlyRoots_of_keeps keeps_projectManifest) fun manifest => ?_
  refine failsBeforeScripts_bind (runsOnlyRoots_of_keeps fun _ => rfl) fun trusted => ?_
  refine failsBeforeScripts_bind (runsOnlyRoots_of_keeps (keeps_resolveProject _)) fun _ => ?_
  refine failsBeforeScripts_bind (runsOnlyRoots_of_keeps (keeps_fromExcept _)) fun finished => ?_
  refine failsBeforeScripts_bind (runsOnlyRoots_of_keeps (keeps_checkFrozen _)) fun _ => ?_
  split_ifs
  · exact failsBeforeScripts_of_roots (EStateM.moves_pure ())
  · exact materialize_fails _ _ _

theorem cmdInstall_fails : FailsBeforeScripts (cmdInstall env options) := by
  unfold cmdInstall
  split_ifs
  · exact failsBeforeScripts_of_roots (runsOnlyRoots_of_keeps (keeps_cmdInstallGlobal _ _))
  · refine failsBeforeScripts_bind (fun s => ?_) fun _ => ?_
    · unfold frozenPreconditions
      split_ifs <;> exact .of_events rfl
    · unfold dispatch
      split
      · split_ifs
        · exact failsBeforeScripts_of_roots (runsOnlyRoots_of_keeps (keeps_cmdInstallWorkspace _ _))
        · exact installProject_fails
      · exact installProject_fails

/-! ## A run that succeeds -/

theorem roots_ok {α : Type} {x : Command Text α} {a : α} (hx : RunsOnlyRoots x)
    (h : x s = .ok a s') : RootScriptsOnly s s' := by
  have hmoved := hx s
  rw [h] at hmoved
  exact hmoved

/-- Between scripts of the project, the run has the events of the script step. -/
theorem materialize_adds {manifest : ProjectManifest} {resolved : ResolvedProject}
    {trusted : List String}
    (h : materialize env options manifest resolved trusted s = .ok () s') :
    ∃ before new after, s'.events = s.events ++ (before ++ new ++ after) ∧
      (∀ event ∈ before ++ after, IsRootScript event) ∧
      RunEvents env.scripts (scriptOptions options trusted) resolved.graph.nodes.rows new := by
  obtain ⟨_, s₁, hbefore, h1⟩ := EStateM.bind_eq_ok.mp h
  obtain ⟨before, hevents₁, hbeforeRoots⟩ := roots_ok (rootLifecycle_roots _) hbefore
  obtain ⟨_, s₂, hage, h2⟩ := EStateM.bind_eq_ok.mp h1
  obtain ⟨-, rfl⟩ := fromExcept_ok.mp hage
  obtain ⟨_, s₃, hdownload, h3⟩ := EStateM.bind_eq_ok.mp h2
  obtain ⟨-, rfl⟩ := fromExcept_ok.mp hdownload
  obtain ⟨_, s₄, hlink, h4⟩ := EStateM.bind_eq_ok.mp h3
  have hevents₄ := keeps_ok (keeps_linkProject resolved) hlink
  obtain ⟨_, s₅, hlock, h5⟩ := EStateM.bind_eq_ok.mp h4
  have hevents₅ := keeps_ok (keeps_updateLockfile _) hlock
  obtain ⟨_, s₆, hmanifest, h6⟩ := EStateM.bind_eq_ok.mp h5
  have hevents₆ := keeps_ok (keeps_updateManifest _) hmanifest
  obtain ⟨_, s₇, hscripts, h7⟩ := EStateM.bind_eq_ok.mp h6
  obtain ⟨new, ⟨s₇', hok₇, hevents₇⟩, hnew⟩ := forM_dependencyScript_adds env.scripts
    (scriptOptions options trusted) resolved.graph.nodes.rows s₆
  obtain ⟨-, rfl⟩ := EStateM.Result.ok.inj (hscripts.symm.trans hok₇)
  obtain ⟨after, hevents₈, hafterRoots⟩ := roots_ok (rootLifecycle_roots _) h7
  refine ⟨before, new, after, ?_, fun event hmem => ?_, hnew⟩
  · rw [hevents₈, hevents₇, hevents₆, hevents₅, hevents₄, hevents₁]
    simp
  · exact (List.mem_append.mp hmem).elim (hbeforeRoots event) (hafterRoots event)

/-- Scripts of the project need no consent and give none. -/
theorem allConsented_between {scripts : ScriptOptions} {policy : OathPolicy}
    {before new after : List Event} (hroot : ∀ event ∈ before ++ after, IsRootScript event) :
    AllConsented scripts policy (before ++ new ++ after) ↔ AllConsented scripts policy new := by
  have hmem : ∀ event, ¬IsRootScript event → (event ∈ before ++ new ++ after ↔ event ∈ new) := by
    intro event hother
    constructor
    · intro hevent
      rcases List.mem_append.mp hevent with hfirst | hafter
      · rcases List.mem_append.mp hfirst with hbefore | hnew
        · exact absurd (hroot event (List.mem_append_left _ hbefore)) hother
        · exact hnew
      · exact absurd (hroot event (List.mem_append_right _ hafter)) hother
    · exact fun hnew => List.mem_append_left _ (List.mem_append_right _ hnew)
  have hran : ∀ package directory hook command,
      ¬IsRootScript (.ranScript package directory hook command) := by
    rintro package directory hook command ⟨_, _, heq⟩
    cases heq
  have hasked : ∀ package decision, ¬IsRootScript (.asked package decision) := by
    rintro package decision ⟨_, _, heq⟩
    cases heq
  unfold AllConsented Consent
  simp only [hmem _ (hran _ _ _ _), hmem _ (hasked _ _)]

theorem RootScriptsOnly.allConsented {scripts : ScriptOptions} {policy : OathPolicy}
    (h : RootScriptsOnly s s') :
    ∃ new, s'.events = s.events ++ new ∧ AllConsented scripts policy new := by
  obtain ⟨new, hevents, hroots⟩ := h
  refine ⟨new, hevents, fun package directory hook command hmem => ?_⟩
  obtain ⟨_, _, heq⟩ := hroots _ hmem
  cases heq

/-! ## Consent in a whole run -/

/-- The project's `trustedDependencies`. -/
def trustedList (env : InstallEnvironment Text) (options : InstallOptions)
    (s : Session Text) : List String :=
  match projectManifest env options s with
  | .error _ _ => []
  | .ok manifest _ => match trustedDeps env manifest s with
    | .error _ _ => []
    | .ok trusted _ => trusted

/-- The graph whose packages the run installs; global and workspace installs run no scripts. -/
structure Installs (env : InstallEnvironment Text) (options : InstallOptions) (s : Session Text)
    (graph : DepGraph) : Prop where
  notGlobal : options.global = false
  notWorkspace : env.workspace.isSome → options.packages.isEmpty = false
  notDryRun : options.dryRun = false
  resolved : ∃ manifest resolved, projectManifest env options s = .ok manifest s ∧
    resolveProject env options manifest s = .ok resolved s ∧ resolved.graph = graph

/-- No package that the run installs runs its scripts unasked. -/
def NoneUnasked (env : InstallEnvironment Text) (options : InstallOptions)
    (s : Session Text) : Prop :=
  ∀ graph, Installs env options s graph → ∀ row ∈ graph.nodes.rows,
    ¬RunsUnasked env.scripts (scriptOptions options (trustedList env options s)) row.1 row.2

def ConsentedIf (env : InstallEnvironment Text) (options : InstallOptions)
    (s s' : Session Text) (p : Prop) : Prop :=
  ∃ new, s'.events = s.events ++ new ∧
    (AllConsented (scriptOptions options (trustedList env options s)) env.policy new ↔ p)

theorem consentedIf_of_roots {p : Prop} (h : RootScriptsOnly s s') (hp : p) :
    ConsentedIf env options s s' p := by
  obtain ⟨new, hevents, hconsented⟩ := h.allConsented
  exact ⟨new, hevents, fun _ => hp, fun _ => hconsented⟩

theorem Prepared.trustedList_eq {manifest finished : ProjectManifest} {trusted : List String}
    {resolved : ResolvedProject}
    (h : Prepared env options s manifest finished trusted resolved) :
    trustedList env options s = trusted := by
  unfold trustedList
  rw [h.projectManifest]
  dsimp only
  rw [h.trustedDeps]

theorem Prepared.graph_eq {manifest finished : ProjectManifest} {trusted : List String}
    {resolved : ResolvedProject} {graph : DepGraph}
    (h : Prepared env options s manifest finished trusted resolved)
    (hinstalls : Installs env options s graph) : resolved.graph = graph := by
  obtain ⟨manifest', resolved', hmanifest, hresolved, rfl⟩ := hinstalls.resolved
  obtain ⟨rfl, -⟩ := EStateM.Result.ok.inj (h.projectManifest.symm.trans hmanifest)
  obtain ⟨rfl, -⟩ := EStateM.Result.ok.inj (h.resolveProject.symm.trans hresolved)
  rfl

theorem installProject_consented (hglobal : options.global = false)
    (hworkspace : env.workspace.isSome → options.packages.isEmpty = false)
    (h : installProject env options s = .ok () s') :
    ConsentedIf env options s s' (NoneUnasked env options s) := by
  obtain ⟨manifest, finished, trusted, resolved, hprepared, hrest⟩ := installProject_prepared h
  split_ifs at hrest with hdryRun
  · subst hrest
    refine consentedIf_of_roots (.of_events rfl) fun graph hinstalls => ?_
    exact Bool.noConfusion (hdryRun.symm.trans hinstalls.notDryRun)
  · obtain ⟨before, new, after, hevents, hroots, hnew⟩ := materialize_adds hrest
    refine ⟨_, hevents, ?_⟩
    rw [hprepared.trustedList_eq, allConsented_between hroots]
    refine hnew.allConsented_iff.trans ?_
    unfold NoneUnasked
    rw [hprepared.trustedList_eq]
    constructor
    · intro hasked graph hinstalls
      rw [← hprepared.graph_eq hinstalls]
      exact hasked
    · exact fun hasked => hasked resolved.graph ⟨hglobal, hworkspace, by simpa using hdryRun,
        manifest, resolved, hprepared.projectManifest, hprepared.resolveProject, rfl⟩

theorem cmdInstall_consented (h : cmdInstall env options s = .ok () s') :
    ConsentedIf env options s s' (NoneUnasked env options s) := by
  unfold cmdInstall at h
  split_ifs at h with hglobal
  · refine consentedIf_of_roots (.of_events (keeps_ok (keeps_cmdInstallGlobal _ _) h))
      fun graph hinstalls => ?_
    exact Bool.noConfusion (hglobal.symm.trans hinstalls.notGlobal)
  · rw [Bool.not_eq_true] at hglobal
    obtain ⟨_, s₁, hpreconditions, hdispatch⟩ := EStateM.bind_eq_ok.mp h
    unfold frozenPreconditions at hpreconditions
    split_ifs at hpreconditions
    obtain rfl := (EStateM.Result.ok.inj hpreconditions).2
    unfold dispatch at hdispatch
    cases hworkspace : env.workspace with
    | none =>
      rw [hworkspace] at hdispatch
      exact installProject_consented hglobal (by simp [hworkspace]) hdispatch
    | some ws =>
      rw [hworkspace] at hdispatch
      dsimp only at hdispatch
      split_ifs at hdispatch with hpackages
      · refine consentedIf_of_roots
          (.of_events (keeps_ok (keeps_cmdInstallWorkspace ws _) hdispatch))
          fun graph hinstalls => ?_
        have hadding := hinstalls.notWorkspace (by rw [hworkspace]; rfl)
        exact Bool.noConfusion (hpackages.symm.trans hadding)
      · exact installProject_consented hglobal (fun _ => by simpa using hpackages) hdispatch

end Runs

/-! ## A package with a script -/

def scriptNode : PlacementNode := { demoNode with hasInstallScript := true }

def scriptSite : ScriptSite where
  linkedExists := true
  storeExists := true
  storeDirectory := ""
  packageJson := some (.object [("scripts", .object [("postinstall", .string "node setup.js")])])
  scanSucceeds := true

def scriptEnvironment : InstallEnvironment (Except String Value) :=
  { demoInstallEnvironment none with
    toEnvironment := demoEnvironment [scriptNode]
    site := fun _ => scriptSite }

def runScriptsOptions : InstallOptions :=
  ⟨[], false, false, false, false, true, false, false, false, none⟩

end Oath.Cli
