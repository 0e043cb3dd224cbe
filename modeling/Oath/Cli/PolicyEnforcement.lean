import Oath.Cli.LinkStep

/-! What an `install` makes of the policy. Only the step of the install scripts asks it, and
a script that is trusted, wanted by `--yes` or agreed to at the prompt runs all the same. -/

namespace Oath.Cli
open Contracts Core Resolve Workspace

/-! ## What the policy forbids -/

/-- What there is to know about a package: its license, what the scanner makes of it, and
whether somebody approved it. -/
structure PackageFacts where
  license : DepNode → Option String
  risk : DepNode → OathPolicy.RiskLevel
  approved : DepNode → Bool

def PackageFacts.admitted (facts : PackageFacts) (policy : OathPolicy) (node : DepNode) : Bool :=
  !policy.isPackageBanned node.name &&
    !(facts.license node).any policy.isLicenseBanned &&
    decide ((facts.risk node).rank ≤ policy.maxRisk.rank) &&
    (!policy.requireApproval.contains node.name || facts.approved node)

/-- A script ran of a package that is not on the list. -/
def RanOutside (policy : OathPolicy) (events : List Event) : Prop :=
  ∃ package directory hook command,
    .ranScript package directory hook command ∈ events ∧ policy.inScriptAllowlist package = false

/-- The run keeps to the policy. -/
structure Enforced {Text : Type} (env : InstallEnvironment Text) (options : InstallOptions)
    (facts : PackageFacts) (s s' : Session Text) : Prop where
  links : ¬Links env options s fun node => !facts.admitted env.policy node
  scripts : env.policy.blockInstallScripts →
    ∃ new, s'.events = s.events ++ new ∧ ¬RanOutside env.policy new

/-! ## Who runs a script -/

section Scripts
variable {Text : Type} (env : ScriptEnvironment Text) (options : ScriptOptions)

/-- The step comes to the prompt, and the policy does not answer for the user. -/
def prompts (location : String) (node : DepNode) : Bool :=
  !(options.ignoreScripts || !node.hasInstallScript) && !env.policy.isPackageBanned node.name &&
    !(options.trusted.contains node.name || options.yes) && options.runScripts &&
    (siteExists env location && (env.site location).scanSucceeds) &&
    !env.policy.allowsInstallScript node.name

/-- What is decided about the scripts of a package that the policy does not list, and the
input that is left. -/
def decide? (location : String) (node : DepNode) (lines : List String) :
    ScriptDecision × List String :=
  if options.trusted.contains node.name || options.yes then (.allow, lines)
  else if prompts env options location node then readDecision lines
  else (.deny, lines)

def decisions : List (String × DepNode) → List String → List ((String × DepNode) × ScriptDecision)
  | [], _ => []
  | row :: rest, lines =>
    let (decision, left) := decide? env options row.1 row.2 lines
    (row, decision) :: decisions rest left

/-- A script of the package is there to run, and the policy does not list the package. -/
def hasScriptOutside (location : String) (node : DepNode) : Bool :=
  !(options.ignoreScripts || !node.hasInstallScript) && !env.policy.isPackageBanned node.name &&
    siteExists env location && !(hookCommands (env.site location).packageJson).isEmpty &&
    !env.policy.inScriptAllowlist node.name

/-- Every package with such a script is refused. -/
def AllRefused (rows : List (String × DepNode)) (lines : List String) : Prop :=
  ∀ entry ∈ decisions env options rows lines,
    hasScriptOutside env options entry.1.1 entry.1.2 → entry.2 = .deny

variable {env options}

theorem ranOutside_append {policy : OathPolicy} {first later : List Event} :
    RanOutside policy (first ++ later) ↔ RanOutside policy first ∨ RanOutside policy later := by
  constructor
  · rintro ⟨package, directory, hook, command, hmem, hlisted⟩
    rcases List.mem_append.mp hmem with hfirst | hlater
    · exact Or.inl ⟨package, directory, hook, command, hfirst, hlisted⟩
    · exact Or.inr ⟨package, directory, hook, command, hlater, hlisted⟩
  · rintro (⟨package, directory, hook, command, hmem, hlisted⟩ |
      ⟨package, directory, hook, command, hmem, hlisted⟩)
    · exact ⟨package, directory, hook, command, List.mem_append_left _ hmem, hlisted⟩
    · exact ⟨package, directory, hook, command, List.mem_append_right _ hmem, hlisted⟩

variable (env) in
theorem ranOutside_scriptEvents (location : String) (node : DepNode) :
    RanOutside env.policy (scriptEvents env location node) ↔
      hookCommands (env.site location).packageJson ≠ [] ∧
        env.policy.inScriptAllowlist node.name = false := by
  constructor
  · rintro ⟨package, directory, hook, command, hmem, hlisted⟩
    obtain ⟨_, _, _, heq⟩ := mem_scriptEvents hmem
    obtain ⟨rfl, -⟩ := Event.ranScript.inj heq
    refine ⟨?_, hlisted⟩
    intro hnone
    rw [scriptEvents, hnone] at hmem
    cases hmem
  · rintro ⟨hhooks, hlisted⟩
    obtain ⟨hook, hhook⟩ := List.exists_mem_of_ne_nil _ hhooks
    exact ⟨_, _, _, _, List.mem_map.mpr ⟨hook, hhook, rfl⟩, hlisted⟩

/-- The command succeeds, adds events and leaves input. -/
def Leaves (x : Command Text Unit) (s : Session Text) (new : List Event)
    (lines : List String) : Prop :=
  ∃ s', x s = .ok () s' ∧ s'.events = s.events ++ new ∧ s'.stdin = lines

variable (env) in
theorem runFor_leaves (location : String) (node : DepNode) (s : Session Text) :
    Leaves (runFor env location node) s (scriptEvents env location node) s.stdin := by
  have hkeeps : Keeps Session.stdin (runFor env location node) :=
    keeps_forM fun _ => keeps_bind (fun _ => rfl) fun _ _ => rfl
  obtain ⟨s', hok, hevents⟩ := runFor_adds env location node s
  exact ⟨s', hok, hevents, keeps_ok hkeeps hok⟩

theorem leaves_pure (s : Session Text) : Leaves (pure ()) s [] s.stdin := ⟨s, rfl, by simp, rfl⟩

theorem promptInstallScript_asks {package : String} (s : Session Text)
    (h : env.policy.allowsInstallScript package = false) :
    promptInstallScript env package false s =
      .ok (readDecision s.stdin).1 { s with
        stdin := (readDecision s.stdin).2
        events := s.events ++ [.asked package (readDecision s.stdin).1] } := by
  rw [promptInstallScript, h, if_neg Bool.false_ne_true, if_neg Bool.false_ne_true]
  rfl

theorem decide?_of_not_prompts {location : String} {node : DepNode} (lines : List String)
    (h : prompts env options location node = false) :
    (decide? env options location node lines).2 = lines ∧
      ((options.trusted.contains node.name || options.yes) = false →
        (decide? env options location node lines).1 = .deny) := by
  unfold decide?
  rw [h, if_neg Bool.false_ne_true]
  split_ifs with hagreed
  · exact ⟨rfl, fun hnot => absurd (hnot.symm.trans hagreed) Bool.false_ne_true⟩
  · exact ⟨rfl, fun _ => rfl⟩

/-- The answer at the prompt decides whether the scripts run. -/
theorem prompt_leaves (location : String) {node : DepNode} (s : Session Text)
    (h : env.policy.allowsInstallScript node.name = false) :
    ∃ new, Leaves (promptInstallScript env node.name false >>= runDecided env location node) s new
        (readDecision s.stdin).2 ∧
      (RanOutside env.policy new ↔
        RanOutside env.policy (scriptEvents env location node) ∧
          (readDecision s.stdin).1 ≠ .deny) := by
  have hprompt := promptInstallScript_asks s h
  generalize readDecision s.stdin = answer at hprompt ⊢
  obtain ⟨decision, left⟩ := answer
  have hasked : ∀ events, RanOutside env.policy (.asked node.name decision :: events) ↔
      RanOutside env.policy events := by
    intro events
    unfold RanOutside
    simp only [List.mem_cons, reduceCtorEq, false_or]
  have hruns := runFor_leaves env location node
    { s with stdin := left, events := s.events ++ [.asked node.name decision] }
  obtain ⟨s', hok, hevents, hstdin⟩ := hruns
  have hran : runDecided env location node decision = runFor env location node →
      decision ≠ .deny →
      ∃ new, Leaves (promptInstallScript env node.name false >>= runDecided env location node) s
          new left ∧
        (RanOutside env.policy new ↔ RanOutside env.policy (scriptEvents env location node) ∧
          decision ≠ .deny) := by
    intro hdecided hne
    refine ⟨.asked node.name decision :: scriptEvents env location node, ⟨s', ?_, ?_, hstdin⟩, ?_⟩
    · rw [bind_ok hprompt, hdecided]
      exact hok
    · rw [hevents, List.append_assoc]
      rfl
    · rw [hasked, and_iff_left hne]
  cases decision with
  | allow => exact hran rfl (by decide)
  | always => exact hran rfl (by decide)
  | deny =>
    refine ⟨[.asked node.name .deny], ⟨_, bind_ok hprompt, rfl, rfl⟩, ?_⟩
    rw [hasked]
    unfold RanOutside
    simp

/-- One package under a policy that blocks scripts. -/
theorem dependencyScript_leaves (hblock : env.policy.blockInstallScripts)
    (location : String) (node : DepNode) (s : Session Text) :
    ∃ new, Leaves (dependencyScript env options location node) s new
        (decide? env options location node s.stdin).2 ∧
      (RanOutside env.policy new ↔ hasScriptOutside env options location node ∧
        (decide? env options location node s.stdin).1 ≠ .deny) := by
  have hallows : env.policy.allowsInstallScript node.name =
      env.policy.inScriptAllowlist node.name := by
    rw [OathPolicy.allowsInstallScript, hblock]
    cases env.policy.inScriptAllowlist node.name <;> rfl
  have hempty : ¬RanOutside env.policy [] := by
    rintro ⟨_, _, _, _, hmem, -⟩
    cases hmem
  have hscripts := ranOutside_scriptEvents env location node
  have hquiet : prompts env options location node = false →
      ¬(hasScriptOutside env options location node ∧
        (decide? env options location node s.stdin).1 ≠ .deny) →
      ∃ new, Leaves (pure ()) s new (decide? env options location node s.stdin).2 ∧
        (RanOutside env.policy new ↔ hasScriptOutside env options location node ∧
          (decide? env options location node s.stdin).1 ≠ .deny) := by
    intro hprompts hnone
    rw [(decide?_of_not_prompts s.stdin hprompts).1]
    exact ⟨[], leaves_pure s, iff_of_false hempty hnone⟩
  unfold dependencyScript
  split_ifs with hskipped hbanned hagreed hfound hwanted hready
  · apply hquiet
    · simp [prompts, hskipped]
    · simp [hasScriptOutside, hskipped]
  · apply hquiet
    · simp [prompts, hbanned]
    · simp [hasScriptOutside, hbanned]
  · have hdecide : decide? env options location node s.stdin = (.allow, s.stdin) := by
      rw [decide?, if_pos hagreed]
    rw [hdecide]
    refine ⟨_, runFor_leaves env location node s, hscripts.trans ?_⟩
    rw [Bool.not_eq_true] at hskipped hbanned
    simp [hasScriptOutside, hskipped, hbanned, hfound]
  · apply hquiet
    · rw [prompts, hagreed]
      simp
    · simp [hasScriptOutside, hfound]
  · rw [Bool.not_eq_true] at hskipped hbanned hagreed
    obtain ⟨hsite, hscan⟩ := (Bool.and_eq_true _ _).mp hready
    by_cases hlisted : env.policy.allowsInstallScript node.name
    · -- the policy lists the package
      have hprompt : promptInstallScript env node.name false s = .ok .allow s := by
        rw [promptInstallScript, if_pos hlisted]
        rfl
      have hnot : prompts env options location node = false := by simp [prompts, hlisted]
      rw [(decide?_of_not_prompts s.stdin hnot).1]
      obtain ⟨s', hok, hleft⟩ := runFor_leaves env location node s
      refine ⟨_, ⟨s', (bind_ok hprompt).trans hok, hleft⟩, hscripts.trans ?_⟩
      rw [hallows] at hlisted
      simp [hasScriptOutside, hlisted]
    · rw [Bool.not_eq_true] at hlisted
      have hprompts : prompts env options location node := by
        rw [prompts, hskipped, hbanned, hagreed, hwanted, hsite, hscan, hlisted]
        rfl
      have hdecide : decide? env options location node s.stdin = readDecision s.stdin := by
        rw [decide?, hagreed, if_neg Bool.false_ne_true, if_pos hprompts]
      rw [hdecide]
      obtain ⟨new, hleaves, hiff⟩ := prompt_leaves location s hlisted
      refine ⟨new, hleaves, hiff.trans (and_congr_left fun _ => hscripts.trans ?_)⟩
      rw [hallows] at hlisted
      simp [hasScriptOutside, hskipped, hbanned, hsite, hlisted]
  · rw [Bool.not_eq_true] at hagreed hready
    have hnot : prompts env options location node = false := by simp [prompts, hready]
    apply hquiet hnot
    intro hand
    exact hand.2 ((decide?_of_not_prompts s.stdin hnot).2 hagreed)
  · rw [Bool.not_eq_true] at hagreed
    have hnot : prompts env options location node = false := by simp [prompts, hwanted]
    apply hquiet hnot
    intro hand
    exact hand.2 ((decide?_of_not_prompts s.stdin hnot).2 hagreed)

/-- The script step of a whole graph. -/
theorem forM_dependencyScript_leaves (hblock : env.policy.blockInstallScripts)
    (rows : List (String × DepNode)) (s : Session Text) :
    ∃ new lines,
      Leaves (rows.forM fun row => dependencyScript env options row.1 row.2) s new lines ∧
        (¬RanOutside env.policy new ↔ AllRefused env options rows s.stdin) := by
  induction rows generalizing s with
  | nil =>
    refine ⟨[], s.stdin, leaves_pure s, iff_of_true ?_ ?_⟩
    · rintro ⟨_, _, _, _, hmem, -⟩
      cases hmem
    · intro entry hentry
      cases hentry
  | cons row rest ih =>
    obtain ⟨first, ⟨s₁, hok₁, hevents₁, hstdin₁⟩, hfirst⟩ :=
      dependencyScript_leaves hblock row.1 row.2 s
    obtain ⟨later, lines, ⟨s₂, hok₂, hevents₂, hstdin₂⟩, hlater⟩ := ih s₁
    refine ⟨first ++ later, lines, ⟨s₂, (bind_ok hok₁).trans hok₂, ?_, hstdin₂⟩, ?_⟩
    · rw [hevents₂, hevents₁, List.append_assoc]
    · have hcons : AllRefused env options (row :: rest) s.stdin ↔
          (hasScriptOutside env options row.1 row.2 →
            (decide? env options row.1 row.2 s.stdin).1 = .deny) ∧
          AllRefused env options rest (decide? env options row.1 row.2 s.stdin).2 := by
        unfold AllRefused
        rw [decisions, List.forall_mem_cons]
      rw [ranOutside_append, not_or, hlater, hcons, hstdin₁, hfirst, not_and, not_not]

end Scripts

/-! ## A whole run -/

section Runs
variable {Text : Type} {env : InstallEnvironment Text} {options : InstallOptions}
  {s s' : Session Text}

theorem keepsStdin_rootLifecycle (hooks : List String) :
    Keeps Session.stdin (rootLifecycle env options hooks) := by
  unfold rootLifecycle
  split_ifs
  · apply keeps_forM
    intro hook s
    unfold runRootLifecycle
    split
    · rfl
    · split
      · rfl
      · rfl
  · exact keeps_pure ()

theorem keepsStdin_linkProject (resolved : ResolvedProject) :
    Keeps Session.stdin (linkProject env resolved) := by
  unfold linkProject
  cases resolved.plan with
  | none => exact keeps_fromExcept _
  | some plan => exact keeps_bind (keeps_fromExcept _) fun _ _ => rfl

theorem keepsStdin_updateLockfile (lockfile : Lockfile) :
    Keeps Session.stdin (updateLockfile env options lockfile) := by
  unfold updateLockfile
  split_ifs
  · exact keeps_pure _
  · exact fun _ => rfl

theorem keepsStdin_updateManifest (manifest : ProjectManifest) :
    Keeps Session.stdin (updateManifest env manifest) := by
  unfold updateManifest
  cases manifest.pending with
  | none => exact keeps_pure _
  | some pkg => exact fun _ => rfl

/-- The scripts of the dependencies run between those of the project, with all of the input. -/
theorem materialize_scripts {manifest : ProjectManifest} {resolved : ResolvedProject}
    {trusted : List String}
    (hblock : env.policy.blockInstallScripts)
    (h : materialize env options manifest resolved trusted s = .ok () s') :
    ∃ new, s'.events = s.events ++ new ∧
      (¬RanOutside env.policy new ↔ AllRefused env.scripts (scriptOptions options trusted)
        resolved.graph.nodes.rows s.stdin) := by
  obtain ⟨_, s₁, hbefore, h1⟩ := EStateM.bind_eq_ok.mp h
  obtain ⟨before, hevents₁, hbeforeRoots⟩ := roots_ok (rootLifecycle_roots _) hbefore
  have hstdin₁ := keeps_ok (keepsStdin_rootLifecycle _) hbefore
  obtain ⟨_, s₂, hage, h2⟩ := EStateM.bind_eq_ok.mp h1
  obtain ⟨-, rfl⟩ := fromExcept_ok.mp hage
  obtain ⟨_, s₃, hdownload, h3⟩ := EStateM.bind_eq_ok.mp h2
  obtain ⟨-, rfl⟩ := fromExcept_ok.mp hdownload
  obtain ⟨_, s₄, hlink, h4⟩ := EStateM.bind_eq_ok.mp h3
  have hevents₄ := keeps_ok (keeps_linkProject resolved) hlink
  have hstdin₄ := keeps_ok (keepsStdin_linkProject resolved) hlink
  obtain ⟨_, s₅, hlock, h5⟩ := EStateM.bind_eq_ok.mp h4
  have hevents₅ := keeps_ok (keeps_updateLockfile _) hlock
  have hstdin₅ := keeps_ok (keepsStdin_updateLockfile _) hlock
  obtain ⟨_, s₆, hmanifest, h6⟩ := EStateM.bind_eq_ok.mp h5
  have hevents₆ := keeps_ok (keeps_updateManifest _) hmanifest
  have hstdin₆ := keeps_ok (keepsStdin_updateManifest _) hmanifest
  obtain ⟨_, s₇, hscripts, h7⟩ := EStateM.bind_eq_ok.mp h6
  have hstep := @forM_dependencyScript_leaves Text env.scripts (scriptOptions options trusted)
    hblock resolved.graph.nodes.rows s₆
  obtain ⟨new, lines, ⟨s₇', hok₇, hevents₇, -⟩, hnew⟩ := hstep
  obtain ⟨-, rfl⟩ := EStateM.Result.ok.inj (hscripts.symm.trans hok₇)
  obtain ⟨after, hevents₈, hafterRoots⟩ := roots_ok (rootLifecycle_roots _) h7
  rw [hstdin₆, hstdin₅, hstdin₄, hstdin₁] at hnew
  have hroots : ∀ events, (∀ event ∈ events, IsRootScript event) →
      ¬RanOutside env.policy events := by
    rintro events hall ⟨_, _, _, _, hmem, -⟩
    obtain ⟨_, _, heq⟩ := hall _ hmem
    cases heq
  refine ⟨before ++ new ++ after, ?_, ?_⟩
  · rw [hevents₈, hevents₇, hevents₆, hevents₅, hevents₄, hevents₁]
    simp
  · rw [← hnew, ranOutside_append, ranOutside_append]
    have hbeforeNone := hroots before hbeforeRoots
    have hafterNone := hroots after hafterRoots
    show ¬_ ↔ ¬RanOutside env.policy new
    simp [hbeforeNone, hafterNone]

/-- Whoever has a script that the policy does not list is refused. -/
def NoScriptForced (env : InstallEnvironment Text) (options : InstallOptions)
    (s : Session Text) : Prop :=
  ∀ graph, Installs env options s graph →
    AllRefused env.scripts (scriptOptions options (trustedList env options s))
      graph.nodes.rows s.stdin

theorem installProject_scripts (hblock : env.policy.blockInstallScripts)
    (hglobal : options.global = false)
    (hworkspace : env.workspace.isSome → options.packages.isEmpty = false)
    (h : installProject env options s = .ok () s') :
    ∃ new, s'.events = s.events ++ new ∧
      (¬RanOutside env.policy new ↔ NoScriptForced env options s) := by
  obtain ⟨manifest, finished, trusted, resolved, hprepared, hrest⟩ := installProject_prepared h
  have hnone : ¬RanOutside env.policy [] := by
    rintro ⟨_, _, _, _, hmem, -⟩
    cases hmem
  split_ifs at hrest with hdryRun
  · subst hrest
    refine ⟨[], by simp, iff_of_true hnone ?_⟩
    intro graph hinstalls
    exact Bool.noConfusion (hdryRun.symm.trans hinstalls.notDryRun)
  · obtain ⟨new, hevents, hiff⟩ := materialize_scripts hblock hrest
    refine ⟨new, hevents, hiff.trans ?_⟩
    unfold NoScriptForced
    rw [hprepared.trustedList_eq]
    constructor
    · intro hrefused graph hinstalls
      rw [← hprepared.graph_eq hinstalls]
      exact hrefused
    · intro hrefused
      exact hrefused resolved.graph ⟨hglobal, hworkspace, by simpa using hdryRun, manifest,
        resolved, hprepared.projectManifest, hprepared.resolveProject, rfl⟩

theorem cmdInstall_scripts (hblock : env.policy.blockInstallScripts)
    (h : cmdInstall env options s = .ok () s') :
    ∃ new, s'.events = s.events ++ new ∧
      (¬RanOutside env.policy new ↔ NoScriptForced env options s) := by
  have hnone : ¬RanOutside env.policy [] := by
    rintro ⟨_, _, _, _, hmem, -⟩
    cases hmem
  unfold cmdInstall at h
  split_ifs at h with hglobal
  · refine ⟨[], ?_, iff_of_true hnone ?_⟩
    · rw [List.append_nil, keeps_ok (keeps_cmdInstallGlobal _ _) h]
    · intro graph hinstalls
      exact Bool.noConfusion (hglobal.symm.trans hinstalls.notGlobal)
  · rw [Bool.not_eq_true] at hglobal
    obtain ⟨_, s₁, hpreconditions, hdispatch⟩ := EStateM.bind_eq_ok.mp h
    unfold frozenPreconditions at hpreconditions
    split_ifs at hpreconditions
    obtain rfl := (EStateM.Result.ok.inj hpreconditions).2
    unfold dispatch at hdispatch
    cases hworkspace : env.workspace with
    | none =>
      rw [hworkspace] at hdispatch
      exact installProject_scripts hblock hglobal (by simp [hworkspace]) hdispatch
    | some ws =>
      rw [hworkspace] at hdispatch
      dsimp only at hdispatch
      split_ifs at hdispatch with hpackages
      · refine ⟨[], ?_, iff_of_true hnone ?_⟩
        · rw [List.append_nil, keeps_ok (keeps_cmdInstallWorkspace ws _) hdispatch]
        · intro graph hinstalls
          have hadding := hinstalls.notWorkspace (by rw [hworkspace]; rfl)
          exact Bool.noConfusion (hpackages.symm.trans hadding)
      · exact installProject_scripts hblock hglobal (fun _ => by simpa using hpackages) hdispatch

/-- Every package that there is to link is admitted. -/
def AllAdmitted (env : InstallEnvironment Text) (options : InstallOptions) (facts : PackageFacts)
    (s : Session Text) : Prop :=
  ∀ target, linkTarget? env options s = some target →
    ∀ node ∈ target.packages, facts.admitted env.policy node

end Runs

/-! ## A project with a policy of its own -/

def policyEnvironment (raw : RawPolicy) : InstallEnvironment (Except String Value) :=
  { scriptEnvironment with policy := .load none (some raw) }

def plainFacts : PackageFacts := ⟨fun _ => some "Apache-2.0", fun _ => .low, fun _ => false⟩

def yesOptions : InstallOptions :=
  ⟨[], false, false, false, true, false, false, false, false, none⟩

def licensePolicy : RawPolicy := ⟨["left-pad"], ["GPL-3.0"], [], [], none, some "high"⟩

def banningPolicy : RawPolicy := ⟨["typescript"], [], [], [], none, none⟩

def blockingPolicy : RawPolicy := ⟨[], [], [], [], some true, none⟩

end Oath.Cli
