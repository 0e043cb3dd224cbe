import Mathlib.Data.List.Forall2
import Oath.Cli.Session
import Oath.Core.Policy

/-! Install scripts of dependencies: who may run one, and what it takes to run it. They are read
and run in the directory of the node's install name right below `node_modules`, wherever the node itself
is. -/

namespace Oath.Cli
open Contracts Core Resolve

/-- What the script step finds for a node of the graph. -/
structure ScriptSite where
  linkedExists : Bool
  storeExists : Bool
  storeDirectory : String
  /-- The `package.json` of the directory, if it can be read. -/
  packageJson : Option Value
  scanSucceeds : Bool

structure ScriptOptions where
  yes : Bool
  runScripts : Bool
  ignoreScripts : Bool
  trusted : List String

structure ScriptEnvironment (Text : Type) where
  cwd : String
  policy : OathPolicy
  /-- By the location of the node. -/
  site : String → ScriptSite
  /-- A script is any program. -/
  afterScript : Event → Files Text → Files Text

def installHooks : List String := ["preinstall", "install", "postinstall"]

/-- The hooks of a package with their commands, in the order in which they run. -/
def hookCommands (packageJson : Option Value) : List (String × String) :=
  match packageJson.bind fun value => (value.get? "scripts").bind Value.asObject? with
  | none => []
  | some scripts => installHooks.filterMap fun hook =>
    ((scripts.lookup hook).bind Value.asStr?).map fun command => (hook, command)

section Steps
variable {Text : Type} (env : ScriptEnvironment Text)

def record (event : Event) : Command Text Unit :=
  modify fun s => { s with events := s.events ++ [event] }

/-- A script runs to its end; its exit code only gives a warning. -/
def runCommand (event : Event) : Command Text Unit := do
  record event
  modify fun s => { s with files := env.afterScript event s.files }

def runInstallScript (package directory : String) (packageJson : Option Value) :
    Command Text Unit :=
  (hookCommands packageJson).forM fun hook =>
    runCommand env (.ranScript package directory hook.1 hook.2)

/-- Lines are read until one is an answer; the end of the input denies. -/
def readDecision : List String → ScriptDecision × List String
  | [] => (.deny, [])
  | line :: rest =>
    let answer := (trim line).toList.map Char.toLower
    if answer = "y".toList ∨ answer = "yes".toList then (.allow, rest)
    else if answer = [] ∨ answer = "n".toList ∨ answer = "no".toList then (.deny, rest)
    else if answer = "a".toList ∨ answer = "always".toList then (.always, rest)
    else readDecision rest

def ask (package : String) : Command Text ScriptDecision := fun s =>
  let (decision, rest) := readDecision s.stdin
  .ok decision { s with stdin := rest, events := s.events ++ [.asked package decision] }

def promptInstallScript (package : String) (yes : Bool) : Command Text ScriptDecision :=
  if env.policy.allowsInstallScript package then pure .allow
  else if yes then pure .allow
  else ask package

def scriptDirectory (location : String) (node : DepNode) : String :=
  let site := env.site location
  if site.linkedExists then env.cwd ++ "/node_modules/" ++ node.aliasName.getD node.name
  else site.storeDirectory

def siteExists (location : String) : Bool :=
  (env.site location).linkedExists || (env.site location).storeExists

def runFor (location : String) (node : DepNode) : Command Text Unit :=
  runInstallScript env node.name (scriptDirectory env location node)
    (env.site location).packageJson

def runDecided (location : String) (node : DepNode) : ScriptDecision → Command Text Unit
  | .allow => runFor env location node
  | .always => runFor env location node
  | .deny => pure ()

def dependencyScript (options : ScriptOptions) (location : String) (node : DepNode) :
    Command Text Unit :=
  if options.ignoreScripts || !node.hasInstallScript then pure ()
  else if env.policy.isPackageBanned node.name then pure ()
  else if options.trusted.contains node.name || options.yes then
    if siteExists env location then runFor env location node else pure ()
  else if options.runScripts then
    if siteExists env location && (env.site location).scanSucceeds then do
      let decision ← promptInstallScript env node.name false
      runDecided env location node decision
    else pure ()
  -- blocked
  else pure ()

def dependencyScripts (options : ScriptOptions) (graph : DepGraph) : Command Text Unit :=
  graph.nodes.rows.forM fun row => dependencyScript env options row.1 row.2

end Steps

/-! ## The events of a run -/

section Events
variable {Text : Type} {env : ScriptEnvironment Text} {options : ScriptOptions}

/-- The command succeeds and adds these events. -/
def Adds (x : Command Text Unit) (s : Session Text) (new : List Event) : Prop :=
  ∃ s', x s = .ok () s' ∧ s'.events = s.events ++ new

theorem adds_pure (s : Session Text) : Adds (pure ()) s [] := ⟨s, rfl, by simp⟩

theorem adds_bind {x y : Command Text Unit} {s : Session Text} {first second : List Event}
    (hx : Adds x s first) (hy : ∀ s', x s = .ok () s' → Adds y s' second) :
    Adds (x >>= fun _ => y) s (first ++ second) := by
  obtain ⟨s', hok, hevents⟩ := hx
  obtain ⟨s'', hok', hevents'⟩ := hy s' hok
  refine ⟨s'', EStateM.bind_eq_ok.mpr ⟨(), s', hok, hok'⟩, ?_⟩
  rw [hevents', hevents, List.append_assoc]

def scriptEvents (env : ScriptEnvironment Text) (location : String) (node : DepNode) :
    List Event :=
  (hookCommands (env.site location).packageJson).map fun hook =>
    .ranScript node.name (scriptDirectory env location node) hook.1 hook.2

theorem runCommand_adds (event : Event) (s : Session Text) :
    Adds (runCommand env event) s [event] := ⟨_, rfl, rfl⟩

variable (env) in
theorem runFor_adds (location : String) (node : DepNode) (s : Session Text) :
    Adds (runFor env location node) s (scriptEvents env location node) := by
  unfold runFor runInstallScript scriptEvents
  generalize hookCommands (env.site location).packageJson = hooks
  induction hooks generalizing s with
  | nil => exact adds_pure s
  | cons hook rest ih => exact adds_bind (runCommand_adds _ s) fun s' _ => ih s'

/-- A script of the package runs though nobody agreed to it: scripts are to be prompted for,
but the policy blocks none and so lets all pass. -/
structure RunsUnasked (env : ScriptEnvironment Text) (options : ScriptOptions) (location : String)
    (node : DepNode) : Prop where
  hasInstallScript : node.hasInstallScript
  notIgnored : options.ignoreScripts = false
  notBanned : env.policy.isPackageBanned node.name = false
  notTrusted : node.name ∉ options.trusted
  notYes : options.yes = false
  runScripts : options.runScripts
  found : siteExists env location
  scanned : (env.site location).scanSucceeds
  notListed : env.policy.inScriptAllowlist node.name = false
  notBlocking : env.policy.blockInstallScripts = false
  hooks : hookCommands (env.site location).packageJson ≠ []

/-- What the step of a node adds to the events. -/
inductive StepEvents (env : ScriptEnvironment Text) (options : ScriptOptions) (location : String)
    (node : DepNode) : List Event → Prop
  | unasked (h : RunsUnasked env options location node) :
      StepEvents env options location node (scriptEvents env location node)
  | nothing (h : ¬RunsUnasked env options location node) : StepEvents env options location node []
  | agreed (h : node.name ∈ options.trusted ∨ env.policy.inScriptAllowlist node.name ∨ options.yes) :
      StepEvents env options location node (scriptEvents env location node)
  | refused (h : env.policy.blockInstallScripts) :
      StepEvents env options location node [.asked node.name .deny]
  | granted (h : env.policy.blockInstallScripts) {decision : ScriptDecision}
      (hdecision : decision = .allow ∨ decision = .always) :
      StepEvents env options location node
        (.asked node.name decision :: scriptEvents env location node)

variable (env options) in
theorem dependencyScript_adds (location : String) (node : DepNode) (s : Session Text) :
    ∃ new, Adds (dependencyScript env options location node) s new ∧
      StepEvents env options location node new := by
  have hrun := runFor_adds env location node
  unfold dependencyScript
  split_ifs with hskipped hbanned hagreed hfound hprompts hready
  · refine ⟨[], adds_pure s, .nothing fun h => ?_⟩
    simp [h.notIgnored, h.hasInstallScript] at hskipped
  · refine ⟨[], adds_pure s, .nothing fun h => ?_⟩
    simp [h.notBanned] at hbanned
  · refine ⟨_, hrun s, .agreed ?_⟩
    rcases (Bool.or_eq_true _ _).mp hagreed with htrusted | hyes
    · exact Or.inl (List.contains_iff_mem.mp htrusted)
    · exact Or.inr (Or.inr hyes)
  · refine ⟨[], adds_pure s, .nothing fun h => ?_⟩
    exact hfound h.found
  · obtain ⟨hsite, hscanned⟩ := (Bool.and_eq_true _ _).mp hready
    by_cases hallowed : env.policy.allowsInstallScript node.name
    · have hprompt : promptInstallScript env node.name false s = .ok .allow s := by
        rw [promptInstallScript, if_pos hallowed]
        rfl
      obtain ⟨s', hok, hevents⟩ := hrun s
      refine ⟨_, ⟨s', EStateM.bind_eq_ok.mpr ⟨_, s, hprompt, hok⟩, hevents⟩, ?_⟩
      by_cases hlisted : env.policy.inScriptAllowlist node.name
      · exact .agreed (Or.inr (Or.inl hlisted))
      · -- the policy blocks nothing
        rw [OathPolicy.allowsInstallScript, if_neg hlisted] at hallowed
        by_cases hhooks : hookCommands (env.site location).packageJson = []
        · have hempty : scriptEvents env location node = [] := by rw [scriptEvents, hhooks]; rfl
          rw [hempty]
          exact .nothing fun h => h.hooks hhooks
        · simp only [Bool.or_eq_true, not_or, Bool.not_eq_true, Bool.not_eq_false'] at hskipped
          simp only [Bool.or_eq_true, not_or, Bool.not_eq_true] at hagreed
          refine .unasked ⟨hskipped.2, hskipped.1, by simpa using hbanned, ?_, hagreed.2, hprompts,
            hsite, hscanned, by simpa using hlisted, by simpa using hallowed, hhooks⟩
          simpa using hagreed.1
    · have hblocking : env.policy.blockInstallScripts := by
        unfold OathPolicy.allowsInstallScript at hallowed
        split_ifs at hallowed
        · simp at hallowed
        · simpa using hallowed
      obtain ⟨decision, s₁, hprompt, hevents⟩ : ∃ decision s₁,
          promptInstallScript env node.name false s = .ok decision s₁ ∧
            s₁.events = s.events ++ [.asked node.name decision] := by
        rw [promptInstallScript, if_neg hallowed, if_neg Bool.false_ne_true]
        exact ⟨_, _, rfl, rfl⟩
      have hdecided : ∀ new, Adds (runDecided env location node decision) s₁ new →
          Adds (promptInstallScript env node.name false >>= runDecided env location node) s
            (.asked node.name decision :: new) := by
        rintro new ⟨s', hok, hadded⟩
        refine ⟨s', EStateM.bind_eq_ok.mpr ⟨decision, s₁, hprompt, hok⟩, ?_⟩
        rw [hadded, hevents, List.append_assoc]
        rfl
      cases decision with
      | allow => exact ⟨_, hdecided _ (hrun s₁), .granted hblocking (Or.inl rfl)⟩
      | always => exact ⟨_, hdecided _ (hrun s₁), .granted hblocking (Or.inr rfl)⟩
      | deny => exact ⟨_, hdecided _ (adds_pure s₁), .refused hblocking⟩
  · refine ⟨[], adds_pure s, .nothing fun h => ?_⟩
    simp [h.found, h.scanned] at hready
  · refine ⟨[], adds_pure s, .nothing fun h => ?_⟩
    exact hprompts h.runScripts

/-! ## Consent -/

def Consent (options : ScriptOptions) (policy : OathPolicy) (events : List Event)
    (package : String) : Prop :=
  package ∈ options.trusted ∨ policy.inScriptAllowlist package ∨ options.yes ∨
    .asked package .allow ∈ events ∨ .asked package .always ∈ events

/-- Every script that ran belongs to a package that somebody agreed to. -/
def AllConsented (options : ScriptOptions) (policy : OathPolicy) (events : List Event) : Prop :=
  ∀ package directory hook command, .ranScript package directory hook command ∈ events →
    Consent options policy events package

theorem Consent.mono {policy : OathPolicy} {events more : List Event} {package : String}
    (h : Consent options policy events package) (hmore : events ⊆ more) :
    Consent options policy more package := by
  rcases h with htrusted | hlisted | hyes | hallow | halways
  · exact Or.inl htrusted
  · exact Or.inr (Or.inl hlisted)
  · exact Or.inr (Or.inr (Or.inl hyes))
  · exact Or.inr (Or.inr (Or.inr (Or.inl (hmore hallow))))
  · exact Or.inr (Or.inr (Or.inr (Or.inr (hmore halways))))

theorem AllConsented.append {policy : OathPolicy} {first second : List Event}
    (hfirst : AllConsented options policy first) (hsecond : AllConsented options policy second) :
    AllConsented options policy (first ++ second) := by
  intro package directory hook command hmem
  rcases List.mem_append.mp hmem with hran | hran
  · exact (hfirst _ _ _ _ hran).mono (List.subset_append_left _ _)
  · exact (hsecond _ _ _ _ hran).mono (List.subset_append_right _ _)

theorem mem_scriptEvents {location : String} {node : DepNode} {event : Event}
    (h : event ∈ scriptEvents env location node) :
    ∃ directory hook command, event = .ranScript node.name directory hook command := by
  obtain ⟨hook, -, rfl⟩ := List.mem_map.mp h
  exact ⟨_, _, _, rfl⟩

theorem StepEvents.consented {location : String} {node : DepNode} {new : List Event}
    (h : StepEvents env options location node new)
    (hasked : ¬RunsUnasked env options location node) : AllConsented options env.policy new := by
  intro package directory hook command hmem
  cases h with
  | unasked hunasked => exact absurd hunasked hasked
  | nothing _ => cases hmem
  | agreed hagreed =>
    obtain ⟨_, _, _, heq⟩ := mem_scriptEvents hmem
    obtain ⟨rfl, -⟩ := Event.ranScript.inj heq
    rcases hagreed with htrusted | hlisted | hyes
    · exact Or.inl htrusted
    · exact Or.inr (Or.inl hlisted)
    · exact Or.inr (Or.inr (Or.inl hyes))
  | refused _ => simp at hmem
  | granted _ hdecision =>
    rcases List.mem_cons.mp hmem with heq | hran
    · cases heq
    · obtain ⟨_, _, _, heq⟩ := mem_scriptEvents hran
      obtain ⟨rfl, -⟩ := Event.ranScript.inj heq
      rcases hdecision with rfl | rfl
      · exact Or.inr (Or.inr (Or.inr (Or.inl List.mem_cons_self)))
      · exact Or.inr (Or.inr (Or.inr (Or.inr List.mem_cons_self)))

/-- When nothing is blocked nobody is asked. -/
theorem StepEvents.silent {location : String} {node : DepNode} {new : List Event}
    (h : StepEvents env options location node new) (hblock : env.policy.blockInstallScripts = false)
    (package : String) (decision : ScriptDecision) : .asked package decision ∉ new := by
  intro hmem
  cases h with
  | unasked _ =>
    obtain ⟨_, _, _, heq⟩ := mem_scriptEvents hmem
    cases heq
  | nothing _ => cases hmem
  | agreed _ =>
    obtain ⟨_, _, _, heq⟩ := mem_scriptEvents hmem
    cases heq
  | refused hblocking => simp [hblock] at hblocking
  | granted hblocking _ => simp [hblock] at hblocking

theorem StepEvents.ran {location : String} {node : DepNode} {new : List Event}
    (h : StepEvents env options location node new)
    (hunasked : RunsUnasked env options location node) :
    ∃ directory hook command, .ranScript node.name directory hook command ∈ new := by
  have hscripts : ∃ event, event ∈ scriptEvents env location node := by
    apply List.exists_mem_of_ne_nil
    unfold scriptEvents
    rw [Ne, List.map_eq_nil_iff]
    exact hunasked.hooks
  obtain ⟨event, hevent⟩ := hscripts
  obtain ⟨directory, hook, command, rfl⟩ := mem_scriptEvents hevent
  refine ⟨directory, hook, command, ?_⟩
  cases h with
  | unasked _ => exact hevent
  | nothing hasked => exact absurd hunasked hasked
  | agreed _ => exact hevent
  | refused hblocking => simp [hunasked.notBlocking] at hblocking
  | granted hblocking _ => simp [hunasked.notBlocking] at hblocking

/-- What the whole script step adds to the events. -/
structure RunEvents (env : ScriptEnvironment Text) (options : ScriptOptions)
    (rows : List (String × DepNode)) (new : List Event) : Prop where
  consented : (∀ row ∈ rows, ¬RunsUnasked env options row.1 row.2) →
    AllConsented options env.policy new
  ran : ∀ row ∈ rows, RunsUnasked env options row.1 row.2 →
    ∃ directory hook command, .ranScript row.2.name directory hook command ∈ new
  silent : env.policy.blockInstallScripts = false →
    ∀ package decision, .asked package decision ∉ new

variable (env options) in
theorem forM_dependencyScript_adds (rows : List (String × DepNode)) (s : Session Text) :
    ∃ new, Adds (rows.forM fun row => dependencyScript env options row.1 row.2) s new ∧
      RunEvents env options rows new := by
  induction rows generalizing s with
  | nil =>
    refine ⟨[], adds_pure s, fun _ _ _ _ _ hmem => ?_, fun _ hmem => ?_, fun _ _ _ hmem => ?_⟩
    · cases hmem
    · cases hmem
    · cases hmem
  | cons row rest ih =>
    obtain ⟨first, ⟨s₁, hok, hevents⟩, hstep⟩ := dependencyScript_adds env options row.1 row.2 s
    obtain ⟨later, hlater, hrest⟩ := ih s₁
    have hadds : Adds ((row :: rest).forM fun row => dependencyScript env options row.1 row.2) s
        (first ++ later) := by
      refine adds_bind ⟨s₁, hok, hevents⟩ fun s' hok' => ?_
      obtain ⟨-, rfl⟩ := EStateM.Result.ok.inj (hok.symm.trans hok')
      exact hlater
    refine ⟨first ++ later, hadds, fun hasked => ?_, fun other hother hunasked => ?_,
      fun hblock package decision hmem => ?_⟩
    · have hfirst := hstep.consented (hasked row List.mem_cons_self)
      exact hfirst.append (hrest.consented fun other hother =>
        hasked other (List.mem_cons_of_mem _ hother))
    · rcases List.mem_cons.mp hother with rfl | hother
      · obtain ⟨directory, hook, command, hran⟩ := hstep.ran hunasked
        exact ⟨directory, hook, command, List.mem_append_left _ hran⟩
      · obtain ⟨directory, hook, command, hran⟩ := hrest.ran other hother hunasked
        exact ⟨directory, hook, command, List.mem_append_right _ hran⟩
    · rcases List.mem_append.mp hmem with hfirst | hlater
      · exact hstep.silent hblock package decision hfirst
      · exact hrest.silent hblock package decision hlater

/-- The scripts that ran are those of packages somebody agreed to if and only if no package
runs its scripts unasked. -/
theorem RunEvents.allConsented_iff {rows : List (String × DepNode)} {new : List Event}
    (h : RunEvents env options rows new) :
    AllConsented options env.policy new ↔ ∀ row ∈ rows, ¬RunsUnasked env options row.1 row.2 := by
  refine ⟨fun hall row hrow hunasked => ?_, h.consented⟩
  obtain ⟨directory, hook, command, hran⟩ := h.ran row hrow hunasked
  have hsilent := h.silent hunasked.notBlocking row.2.name
  rcases hall _ _ _ _ hran with htrusted | hlisted | hyes | hallow | halways
  · exact hunasked.notTrusted htrusted
  · rw [hunasked.notListed] at hlisted
    cases hlisted
  · rw [hunasked.notYes] at hyes
    cases hyes
  · exact hsilent _ hallow
  · exact hsilent _ halways

end Events

end Oath.Cli

/-! ## Where a script is read and run -/

namespace Oath.Cli
open Contracts Core Registry Resolve

section Directories
variable {Text : Type} (env : ScriptEnvironment Text)

/-- The package directory of the node at a location. -/
def ownDirectory (location : String) : String := env.cwd ++ "/" ++ location

/-- What is found as the `package.json` of a node is that of the directory of its scripts. -/
def ReadsDirectories (packageJsonOf : String → Option Value) (graph : DepGraph) : Prop :=
  ∀ row ∈ graph.nodes.rows,
    (env.site row.1).packageJson = packageJsonOf (scriptDirectory env row.1 row.2)

/-- The node is linked right below `node_modules`, or else its store directory is its own. -/
def AtOwnDirectory (location : String) (node : DepNode) : Prop :=
  if (env.site location).linkedExists then
    location = "node_modules/" ++ node.aliasName.getD node.name
  else (env.site location).storeDirectory = ownDirectory env location

/-- The script is one of the package in the directory of the node, and runs there. -/
def OwnScript (packageJsonOf : String → Option Value) (location directory hook command : String) :
    Prop :=
  directory = ownDirectory env location ∧
    (hook, command) ∈ hookCommands (packageJsonOf (ownDirectory env location))

variable {env} {location directory hook command : String} {node : DepNode} {new : List Event}

theorem scriptDirectory_eq_iff :
    scriptDirectory env location node = ownDirectory env location ↔
      AtOwnDirectory env location node := by
  unfold scriptDirectory AtOwnDirectory ownDirectory
  dsimp only
  split_ifs with hlinked
  · have hpath : "/node_modules/" = "/" ++ "node_modules/" := by decide
    rw [hpath, String.append_assoc, String.append_assoc, String.append_assoc,
      String.append_right_inj, String.append_right_inj]
    exact eq_comm
  · exact Iff.rfl

/-- A script of a node runs in the script directory and is one of the `package.json` there. -/
theorem StepEvents.mem_ranScript {options : ScriptOptions} {package : String}
    (h : StepEvents env options location node new)
    (hran : .ranScript package directory hook command ∈ new) :
    package = node.name ∧ directory = scriptDirectory env location node ∧
      (hook, command) ∈ hookCommands (env.site location).packageJson := by
  have hscript : .ranScript package directory hook command ∈ scriptEvents env location node := by
    cases h with
    | unasked _ => exact hran
    | nothing _ => cases hran
    | agreed _ => exact hran
    | refused _ =>
      rw [List.mem_singleton] at hran
      cases hran
    | granted _ _ =>
      rcases List.mem_cons.mp hran with hasked | hscript
      · cases hasked
      · exact hscript
  obtain ⟨row, hrow, heq⟩ := List.mem_map.mp hscript
  obtain ⟨rfl, rfl, rfl, rfl⟩ := Event.ranScript.inj heq
  exact ⟨rfl, rfl, hrow⟩

theorem StepEvents.ownScript_iff {options : ScriptOptions} {package : String}
    {packageJsonOf : String → Option Value}
    (hread : (env.site location).packageJson = packageJsonOf (scriptDirectory env location node))
    (h : StepEvents env options location node new)
    (hran : .ranScript package directory hook command ∈ new) :
    OwnScript env packageJsonOf location directory hook command ↔
      AtOwnDirectory env location node := by
  obtain ⟨-, rfl, hhook⟩ := h.mem_ranScript hran
  rw [hread] at hhook
  constructor
  · rintro ⟨hdirectory, -⟩
    exact scriptDirectory_eq_iff.mp hdirectory
  · intro hown
    have hdirectory := scriptDirectory_eq_iff.mpr hown
    rw [hdirectory] at hhook
    exact ⟨hdirectory, hhook⟩

/-- The events of the whole script step, node after node. -/
theorem forM_dependencyScript_events (options : ScriptOptions) (rows : List (String × DepNode))
    {s s' : Session Text}
    (h : (rows.forM fun row => dependencyScript env options row.1 row.2) s = .ok () s') :
    ∃ news, s'.events = s.events ++ news.flatten ∧
      List.Forall₂ (fun row new => StepEvents env options row.1 row.2 new) rows news := by
  induction rows generalizing s with
  | nil =>
    obtain ⟨-, rfl⟩ := EStateM.Result.ok.inj h
    exact ⟨[], (List.append_nil _).symm, .nil⟩
  | cons row rest ih =>
    obtain ⟨⟨⟩, s₁, hfirst, hrest⟩ := EStateM.bind_eq_ok.mp h
    obtain ⟨new, ⟨s₂, hok, hevents⟩, hstep⟩ := dependencyScript_adds env options row.1 row.2 s
    obtain ⟨-, rfl⟩ := EStateM.Result.ok.inj (hfirst.symm.trans hok)
    obtain ⟨news, hnews, hsteps⟩ := ih hrest
    refine ⟨new :: news, ?_, .cons hstep hsteps⟩
    rw [hnews, hevents, List.flatten_cons, List.append_assoc]

/-- Every script that the step of a node runs is one of the node's own directory exactly when the
node is there. -/
theorem dependencyScripts_own_iff {options : ScriptOptions} {graph : DepGraph}
    {packageJsonOf : String → Option Value} {s s' : Session Text}
    (hread : ReadsDirectories env packageJsonOf graph)
    (h : dependencyScripts env options graph s = .ok () s') :
    ∃ news, s'.events = s.events ++ news.flatten ∧
      List.Forall₂ (fun row new => StepEvents env options row.1 row.2 new ∧
        ∀ package directory hook command, .ranScript package directory hook command ∈ new →
          (OwnScript env packageJsonOf row.1 directory hook command ↔
            AtOwnDirectory env row.1 row.2)) graph.nodes.rows news := by
  obtain ⟨news, hevents, hsteps⟩ := forM_dependencyScript_events options graph.nodes.rows h
  refine ⟨news, hevents, ?_⟩
  have hrows : List.Forall₂ (fun row new => row ∈ graph.nodes.rows ∧
      StepEvents env options row.1 row.2 new) graph.nodes.rows news :=
    (List.forall₂_and_left _ _).mpr ⟨fun _ hrow => hrow, hsteps⟩
  refine hrows.imp ?_
  rintro row new ⟨hrow, hstep⟩
  exact ⟨hstep, fun package directory hook command hran =>
    hstep.ownScript_iff (hread row hrow) hran⟩

end Directories

/-! ## A package that is there twice -/

def hoistedEsbuild : PlacementNode :=
  { demoNode with
    location := "node_modules/esbuild"
    installName := "esbuild"
    name := "esbuild"
    version := "0.21.5"
    resolved := some "https://registry.npmjs.org/esbuild/-/esbuild-0.21.5.tgz"
    hasInstallScript := true }

def nestedEsbuild : PlacementNode :=
  { hoistedEsbuild with
    location := "node_modules/vite/node_modules/esbuild"
    version := "0.18.20"
    resolved := some "https://registry.npmjs.org/esbuild/-/esbuild-0.18.20.tgz" }

def esbuildJson : String → Option Value
  | "/repo/node_modules/esbuild" =>
    some (.object [("scripts", .object [("postinstall", .string "node install.js")])])
  | "/repo/node_modules/vite/node_modules/esbuild" =>
    some (.object [("scripts", .object [("postinstall", .string "node setup.js")])])
  | _ => none

def esbuildEnvironment : ScriptEnvironment Unit where
  cwd := "/repo"
  policy := .default
  site _ := ⟨true, true, "/store/esbuild", esbuildJson "/repo/node_modules/esbuild", true⟩
  afterScript _ files := files

def trustEsbuild : ScriptOptions := ⟨false, false, false, ["esbuild"]⟩

def noFiles : Session Unit := ⟨fun _ => none, [], []⟩

/-- The script of the hoisted copy runs twice, that of the nested one never. -/
theorem dependencyScripts_nested : ∃ graph s',
    (demoPlan [hoistedEsbuild, nestedEsbuild]).toDepGraph = .ok graph ∧
    ReadsDirectories esbuildEnvironment esbuildJson graph ∧
    dependencyScripts esbuildEnvironment trustEsbuild graph noFiles = .ok () s' ∧
    s'.events =
      [.ranScript "esbuild" "/repo/node_modules/esbuild" "postinstall" "node install.js",
        .ranScript "esbuild" "/repo/node_modules/esbuild" "postinstall" "node install.js"] ∧
    graph.nodes.keys = ["node_modules/esbuild", "node_modules/vite/node_modules/esbuild"] ∧
    ¬OwnScript esbuildEnvironment esbuildJson "node_modules/vite/node_modules/esbuild"
      "/repo/node_modules/esbuild" "postinstall" "node install.js" := by
  refine ⟨_, _, rfl, ?_, rfl, rfl, rfl, ?_⟩
  · exact List.forall_mem_cons.mpr ⟨rfl, List.forall_mem_cons.mpr ⟨rfl, List.forall_mem_nil _⟩⟩
  · rintro ⟨hdirectory, -⟩
    exact absurd hdirectory (by decide)

def esbuildGraph : DepGraph where
  nodes := .ofList ([hoistedEsbuild].filterMap graphRow?)
  roots := ["node_modules/esbuild"]

theorem dependencyScripts_own_iff_demo : ∃ s' news,
    dependencyScripts esbuildEnvironment trustEsbuild esbuildGraph noFiles = .ok () s' ∧
    s'.events = noFiles.events ++ news.flatten ∧
    List.Forall₂ (fun row new => StepEvents esbuildEnvironment trustEsbuild row.1 row.2 new ∧
      ∀ package directory hook command, .ranScript package directory hook command ∈ new →
        (OwnScript esbuildEnvironment esbuildJson row.1 directory hook command ↔
          AtOwnDirectory esbuildEnvironment row.1 row.2)) esbuildGraph.nodes.rows news := by
  have hread : ReadsDirectories esbuildEnvironment esbuildJson esbuildGraph :=
    List.forall_mem_cons.mpr ⟨rfl, List.forall_mem_nil _⟩
  have hrun : ∃ s', dependencyScripts esbuildEnvironment trustEsbuild esbuildGraph noFiles =
      .ok () s' := ⟨_, rfl⟩
  obtain ⟨s', hrun⟩ := hrun
  obtain ⟨news, hnews⟩ := dependencyScripts_own_iff hread hrun
  exact ⟨s', news, hrun, hnews⟩

end Oath.Cli
