import Oath.Cli.Exec

/-! `--min-age`: what the string says, and what each command that takes it refuses. The commands
compare with different numbers of seconds, and some do not compare at all. -/

namespace Oath.Cli
open Contracts Core Registry Resolve Workspace

/-! ## Durations -/

inductive DurationUnit
  | hours
  | days
  | weeks
deriving DecidableEq, Repr

def DurationUnit.seconds : DurationUnit → ℕ
  | .hours => 3600
  | .days => 86400
  | .weeks => 604800

/-- `str::parse` for 64-bit numbers: one plus sign may stand in front. -/
def parseU64 (s : String) : Option UInt64 :=
  let digits := if s.toList.head? = some '+' then s.toList.tail else s.toList
  if digits = [] ∨ ¬digits.all Char.isDigit then none
  else
    let n := Nat.ofDigitChars 10 digits 0
    if n < 2 ^ 64 then some (UInt64.ofNat n) else none

def stripSuffix (c : Char) (s : String) : Option String :=
  if s.toList.getLast? = some c then some (String.ofList s.toList.dropLast) else none

/-- Days are the default. -/
def splitUnit (s : String) : String × DurationUnit :=
  match stripSuffix 'd' s with
  | some num => (num, .days)
  | none => match stripSuffix 'h' s with
    | some num => (num, .hours)
    | none => match stripSuffix 'w' s with
      | some num => (num, .weeks)
      | none => (s, .days)

def durationParts (s : String) : Option (UInt64 × DurationUnit) :=
  let s := Core.trim s
  if s = "" then none else (parseU64 (splitUnit s).1).map fun num => (num, (splitUnit s).2)

/-- The products are taken without a check, modulo 2⁶⁴. -/
def parseDurationSecs (s : String) : Option UInt64 :=
  (durationParts s).map fun (num, unit) => match unit with
    | .hours => num * 3600
    | .days => num * 86400
    | .weeks => num * 7 * 86400

/-- The exact number of seconds. -/
def exactDurationSecs (s : String) : Option ℕ :=
  (durationParts s).map fun (num, unit) => num.toNat * unit.seconds

/-! ## The gate of an install -/

/-- How long ago a version was published, as far as the full packument says. -/
def releaseAgeSecs (isoAgeSecs : String → Option ℕ) (full : Option Value) (version : String) :
    Option ℕ :=
  ((((full.bind (Value.get? "time")).bind (Value.get? version)).bind Value.asStr?).bind
    isoAgeSecs)

/-- Versions from git have no time of publication. -/
def isGitResolved (resolved : String) : Bool :=
  ["git+", "github:", "gitlab:", "bitbucket:"].any (beginsWith resolved)

section Gate
variable (ages : String → String → Option ℕ)

def ageViolation (minAgeSecs : UInt64) (node : DepNode) : Option (String × String × ℕ) :=
  if isGitResolved node.resolved then none
  else match ages node.name node.version with
    | some ageSecs =>
      if ageSecs < minAgeSecs.toNat then some (node.name, node.version, ageSecs / 86400) else none
    | none => none

def ageViolations (minAgeSecs : UInt64) (toDownload : List DepNode) : List (String × String × ℕ) :=
  toDownload.filterMap (ageViolation ages minAgeSecs)

/-- A string that does not parse is ignored with a warning. -/
def checkReleaseAge (minAge : Option String) (toDownload : List DepNode) : Except String Unit :=
  match minAge.bind parseDurationSecs with
  | none => .ok ()
  | some minAgeSecs =>
    let violations := ageViolations ages minAgeSecs toDownload
    let minDays := max (minAgeSecs.toNat / 86400) 1
    if violations = [] then .ok ()
    else .error (s!"{violations.length} package(s) newer than the {minDays}-day minimum " ++
      "release age")

theorem mem_ageViolations {minAgeSecs : UInt64} {toDownload : List DepNode} {node : DepNode}
    {ageSecs : ℕ} (hmem : node ∈ toDownload) (hregistry : isGitResolved node.resolved = false)
    (hage : ages node.name node.version = some ageSecs) :
    (∃ days, (node.name, node.version, days) ∈ ageViolations ages minAgeSecs toDownload) ↔
      ageSecs < minAgeSecs.toNat := by
  constructor
  · rintro ⟨days, hviolation⟩
    obtain ⟨other, -, hother⟩ := List.mem_filterMap.mp hviolation
    unfold ageViolation at hother
    split_ifs at hother
    split at hother
    · next secs hsecs =>
      split_ifs at hother with hyoung
      obtain ⟨hname, hrest⟩ := Prod.mk.inj (Option.some.inj hother)
      obtain ⟨hversion, -⟩ := Prod.mk.inj hrest
      rw [hname, hversion, hage] at hsecs
      rw [Option.some.inj hsecs]
      exact hyoung
    · cases hother
  · intro hyoung
    refine ⟨ageSecs / 86400, List.mem_filterMap.mpr ⟨node, hmem, ?_⟩⟩
    rw [ageViolation, hregistry, if_neg Bool.false_ne_true, hage]
    exact if_pos hyoung

theorem checkReleaseAge_eq_ok {minAge : Option String} {toDownload : List DepNode} :
    checkReleaseAge ages minAge toDownload = .ok () ↔ ∀ minAgeSecs,
      minAge.bind parseDurationSecs = some minAgeSecs →
        ageViolations ages minAgeSecs toDownload = [] := by
  unfold checkReleaseAge
  cases minAge.bind parseDurationSecs with
  | none =>
    refine ⟨fun _ _ hno => ?_, fun _ => rfl⟩
    cases hno
  | some minAgeSecs =>
    dsimp only
    split_ifs with hnone
    · exact ⟨fun _ _ hsecs => Option.some.inj hsecs ▸ hnone, fun _ => rfl⟩
    · refine ⟨fun hok => ?_, fun hall => absurd (hall _ rfl) hnone⟩
      cases hok

end Gate

/-! ## The gate of `exec` -/

/-- Whole days are compared, and never less than one. -/
def execTooNew (ageSecs : Option ℕ) (minAge : Option String) : Bool :=
  match ageSecs.map (· / 86400), minAge.bind parseDurationSecs with
  | some days, some minSecs => days < max (minSecs.toNat / 86400) 1
  | _, _ => false

theorem execTooNew_iff {ageSecs : ℕ} {minAge : String} {minSecs : UInt64}
    (h : parseDurationSecs minAge = some minSecs) :
    execTooNew (some ageSecs) (some minAge) ↔ ageSecs < max (minSecs.toNat / 86400) 1 * 86400 := by
  rw [execTooNew, Option.bind_some, h, Option.map_some, decide_eq_true_eq]
  exact Nat.div_lt_iff_lt_mul (by decide)

/-! ## Every command -/

/-- The commands that take the option; `exec` by the release that it resolves to. -/
inductive MinAgeCommand
  | install
  | installWorkspace
  | exec (name version : String)
deriving DecidableEq, Repr

/-- The command refuses the version of a node that it is about to download: an install lists it
among its violations, the install of a workspace has no gate, and `exec` has one for the package
that it runs. -/
def Refuses (ages : String → String → Option ℕ) (minAge : String) (toDownload : List DepNode)
    (node : DepNode) : MinAgeCommand → Prop
  | .install => ∃ minAgeSecs days, parseDurationSecs minAge = some minAgeSecs ∧
      (node.name, node.version, days) ∈ ageViolations ages minAgeSecs toDownload
  | .installWorkspace => False
  | .exec name version => (node.name = name ∧ node.version = version) ∧
      execTooNew (ages name version) (some minAge)

/-- The age in seconds below which the command refuses the node. -/
def ageLimit (minAgeSecs : UInt64) (node : DepNode) : MinAgeCommand → ℕ
  | .install => minAgeSecs.toNat
  | .installWorkspace => 0
  | .exec name version => if node.name = name ∧ node.version = version then
      max (minAgeSecs.toNat / 86400) 1 * 86400 else 0

section Commands
variable {ages : String → String → Option ℕ} {minAge : String} {minAgeSecs : UInt64}
  {toDownload : List DepNode} {node : DepNode} {ageSecs : ℕ}

theorem refuses_iff_limit (h : parseDurationSecs minAge = some minAgeSecs)
    (hmem : node ∈ toDownload) (hregistry : isGitResolved node.resolved = false)
    (hage : ages node.name node.version = some ageSecs) (command : MinAgeCommand) :
    Refuses ages minAge toDownload node command ↔ ageSecs < ageLimit minAgeSecs node command := by
  cases command with
  | install =>
    rw [ageLimit, ← mem_ageViolations ages hmem hregistry hage]
    constructor
    · rintro ⟨secs, days, hsecs, hviolation⟩
      rw [h] at hsecs
      rw [Option.some.inj hsecs]
      exact ⟨days, hviolation⟩
    · rintro ⟨days, hviolation⟩
      exact ⟨minAgeSecs, days, h, hviolation⟩
  | installWorkspace => exact ⟨False.elim, fun hlt => absurd hlt (Nat.not_lt_zero _)⟩
  | exec name version =>
    rw [ageLimit]
    split_ifs with hpackage
    · rw [← execTooNew_iff h, ← hage, hpackage.1, hpackage.2]
      exact and_iff_right hpackage
    · exact ⟨fun hrefused => absurd hrefused.1 hpackage, fun hlt => absurd hlt (Nat.not_lt_zero _)⟩

end Commands

/-! ## The gates in the commands -/

section Gates
variable {Text : Type} {ages : String → String → Option ℕ} {minAge : String}
  {toDownload : List DepNode} {node : DepNode}

/-- An install that goes through has downloaded nothing that it refuses. -/
theorem materialize_not_refused {env : InstallEnvironment Text} {options : InstallOptions}
    {manifest : ProjectManifest} {resolved : ResolvedProject} {trusted : List String}
    {s s' : Session Text} (hgate : env.checkReleaseAge = checkReleaseAge ages)
    (hoption : options.minAge = some minAge)
    (h : materialize env options manifest resolved trusted s = .ok () s') :
    ¬Refuses ages minAge
      (missingStoreNodes env.toEnvironment (resolved.graph.nodes.rows.map Prod.snd) []).1 node
      .install := by
  rintro ⟨minAgeSecs, days, hsecs, hviolation⟩
  obtain ⟨⟨⟩, s₁, -, h1⟩ := EStateM.bind_eq_ok.mp h
  obtain ⟨⟨⟩, s₂, hcheck, -⟩ := EStateM.bind_eq_ok.mp h1
  obtain ⟨hcheck, -⟩ := fromExcept_ok.mp hcheck
  rw [hgate, hoption] at hcheck
  have hnone := (checkReleaseAge_eq_ok ages).mp hcheck minAgeSecs hsecs
  rw [hnone] at hviolation
  exact absurd hviolation List.not_mem_nil

/-- The install of a workspace does not look at the option. -/
theorem cmdInstall_workspace_minAge {env : InstallEnvironment Text} {options : InstallOptions}
    {ws : WorkspaceRoot} (hworkspace : env.workspace = some ws)
    (hpackages : options.packages.isEmpty) (other : Option String) :
    cmdInstall env { options with minAge := other } = cmdInstall env options := by
  have hdispatch : dispatch env { options with minAge := other } = dispatch env options := by
    unfold dispatch
    rw [hworkspace]
    dsimp only
    rw [if_pos hpackages, if_pos hpackages]
  unfold cmdInstall
  rw [hdispatch]
  rfl

theorem tooNew_eq {env : ExecEnvironment Text} {options : ExecOptions}
    (hparse : env.parseDurationSecs = fun s => (parseDurationSecs s).map UInt64.toNat)
    (full : Option Value) (version : String) : tooNew env options full version =
      execTooNew (releaseAgeSecs env.isoAgeSecs full version) options.minAge := by
  have hage : publishAgeDays env full version =
      (releaseAgeSecs env.isoAgeSecs full version).map (· / 86400) := rfl
  unfold tooNew execTooNew
  rw [hage, hparse]
  cases (releaseAgeSecs env.isoAgeSecs full version).map (· / 86400) with
  | none => rfl
  | some days =>
    cases options.minAge with
    | none => rfl
    | some minAge =>
      rw [Option.bind_some, Option.bind_some]
      cases parseDurationSecs minAge with
      | none => rfl
      | some secs => rfl

/-- A release that `exec` goes on to install is not refused. -/
theorem inspect_not_refused {env : ExecEnvironment Text} {options : ExecOptions}
    {sandbox : ExecSandboxDecision} {inspection : Inspection} {version : String} {info : DistInfo}
    {s s' : ExecSession}
    (hparse : env.parseDurationSecs = fun s => (parseDurationSecs s).map UInt64.toNat)
    (hoption : options.minAge = some minAge)
    (hversion : env.resolveVersion (parsePackageSpec options.package).1
      (parsePackageSpec options.package).2 = .ok (version, info))
    (h : inspect env options sandbox s = .ok inspection s') :
    ¬Refuses (fun name => releaseAgeSecs env.isoAgeSecs (env.fullPackument name)) minAge toDownload
      node (.exec (parsePackageSpec options.package).1 version) := by
  rintro ⟨-, hnew⟩
  obtain ⟨⟨version', info'⟩, s₁, hresolved, h1⟩ := EStateM.bind_eq_ok.mp h
  rw [hversion] at hresolved
  obtain ⟨hsame, -⟩ := EStateM.Result.ok.inj hresolved
  obtain ⟨rfl, rfl⟩ := Prod.mk.inj hsame
  obtain ⟨⟨⟩, s₂, hgate, -⟩ := EStateM.bind_eq_ok.mp h1
  rw [ageGate, tooNew_eq hparse, hoption, if_pos hnew] at hgate
  obtain ⟨⟨⟩, s₃, -, hstop⟩ := EStateM.bind_eq_ok.mp hgate
  cases hstop

end Gates

/-! ## Ages on the wrong side -/

def padNode : DepNode where
  name := "left-pad"
  aliasName := none
  version := "1.3.0"
  resolved := "https://registry.npmjs.org/left-pad/-/left-pad-1.3.0.tgz"
  integrity := none
  dependencies := .empty
  hasInstallScript := false
  dev := false
  optional := false
  peerDependencies := .empty
  optionalPeers := .empty
  resolvedPeers := .empty

end Oath.Cli
