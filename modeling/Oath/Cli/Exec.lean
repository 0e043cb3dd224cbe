import Mathlib.Data.List.Sort
import Oath.Analyze.Scanner
import Oath.Cli.Install

/-! `exec`: a package is resolved, installed into a directory of its own, scanned and run. -/

namespace Oath.Cli
open Analyze Contracts Core Registry Resolve Unix

/-! ## Sandboxes -/

inductive ExecSandboxMode
  | off
  | node
  | native
  | auto
deriving DecidableEq, Repr

structure BackendCapabilities where
  backend : String
  available : Bool
  filesystemIsolation : Bool
  networkIsolation : Bool
  processIsolation : Bool
  resourceLimits : Bool
  degradedReason : Option String
deriving DecidableEq, Repr

structure ExecSandboxDecision where
  requestedMode : ExecSandboxMode
  effectiveMode : ExecSandboxMode
  agentMode : Bool
deriving DecidableEq, Repr

def BackendCapabilities.complete (native : BackendCapabilities) : Bool :=
  native.available && native.filesystemIsolation && native.networkIsolation &&
    native.processIsolation && native.resourceLimits

def BackendCapabilities.missing (native : BackendCapabilities) : String :=
  native.degradedReason.getD "required controls did not pass the runtime probe"

def resolveExecSandboxCapabilities (requestedMode : ExecSandboxMode)
    (allowDegradedSandbox nodePermissionsAvailable : Bool) (native : BackendCapabilities) :
    Except String ExecSandboxMode :=
  match requestedMode with
  | .off => .ok .off
  | .native =>
    if native.complete then .ok .native
    else .error ("native sandbox unavailable or incomplete: " ++ (native.missing))
  | .node =>
    if !allowDegradedSandbox then .error ("Node permissions do not provide process or resource " ++
      "isolation; pass --allow-degraded-sandbox only when policy explicitly accepts that limitation")
    else if !nodePermissionsAvailable then
      .error "Node permission sandbox is unavailable on this Node runtime"
    else .ok .node
  | .auto =>
    if native.complete then .ok .native
    else if allowDegradedSandbox && nodePermissionsAvailable then .ok .node
    else .error ("verified native containment is unavailable: " ++ (native.missing) ++
      "; Oath refused to downgrade automatically" ++
      if nodePermissionsAvailable then "; pass --allow-degraded-sandbox only when policy accepts " ++
        "Node's missing process and resource isolation" else "")

def requestedMode (sandbox agentMode : Bool) (sandboxMode : ExecSandboxMode) : ExecSandboxMode :=
  if (sandbox || agentMode) && sandboxMode = .off then .auto else sandboxMode

def sandboxCapabilities (native : BackendCapabilities) : ExecSandboxMode → BackendCapabilities
  | .native => native
  | .node => ⟨"node-permissions", true, true, true, false, false,
      some "Node permissions are not an OS process sandbox"⟩
  | _ => ⟨"off", true, false, false, false, false, some "sandbox disabled"⟩

/-! ## Assessment and approval -/

structure PackageIdentity where
  name : String
  version : String
  binary : Option String
  registry : String
  integrity : Option String
  publisher : Option String
  publishAgeDays : Option ℕ
  repository : Option String
deriving DecidableEq, Repr

structure PackageEvidence where
  unpackedBytes : ℕ
  dependencyCount : ℕ
  readableSource : Bool
  obfuscated : Bool
  nativeCode : Bool
  lifecycleHooks : Bool
  capabilities : List String
  findings : List String
  limitations : List String
deriving DecidableEq, Repr

structure ExecPolicyDecision where
  decision : String
  grade : String
  score : ℕ
deriving DecidableEq, Repr

structure ExecAssessment where
  identity : PackageIdentity
  evidence : PackageEvidence
  policy : ExecPolicyDecision
  sandbox : BackendCapabilities
deriving DecidableEq, Repr

structure ExecApproval where
  package : String
  version : String
  integrity : String
  capabilities : List String
  sandboxBackend : String
  denyNetwork : Bool
deriving DecidableEq, Repr

structure ApprovalFile where
  schemaVersion : ℕ
  approvals : List ExecApproval

def ExecApproval.key (approval : ExecApproval) : String ×ₗ String ×ₗ String :=
  toLex (approval.package, toLex (approval.version, approval.integrity))

def ApprovalFile.add (file : ApprovalFile) (approval : ExecApproval) : ApprovalFile where
  schemaVersion := file.schemaVersion
  approvals := (if approval ∈ file.approvals then file.approvals
    else file.approvals ++ [approval]).insertionSort fun a b => a.key ≤ b.key

/-! ## Runs -/

inductive ExecEvent
  | ranLocal (binary : String) (args : List String)
  /-- The assessment of a release that is too young; it was not downloaded. -/
  | refused (assessment : ExecAssessment)
  | printed (assessment : ExecAssessment) (previouslyApproved : Bool)
  | card (assessment : ExecAssessment)
  | lookedUp (approval : ExecApproval)
  | asked (answer : String)
  | remembered (approval : ExecApproval)
  | ran (binary : String) (args : List String)
deriving DecidableEq, Repr

structure ExecSession where
  /-- The approvals of `~/.oath`; the file may be missing or unreadable. -/
  approvalFile : Option (Except String ApprovalFile)
  stdin : List String
  events : List ExecEvent

inductive ExecStop
  | failed (message : String)
  | exit (code : ℕ)
deriving DecidableEq, Repr

abbrev ExecCommand (α : Type) := EStateM ExecStop ExecSession α

def exitGrade : ℕ := 10
def exitAge : ℕ := 11
def exitUser : ℕ := 13

def orFail {α : Type} : Except String α → ExecCommand α
  | .ok a => pure a
  | .error message => throw (.failed message)

def report (event : ExecEvent) : ExecCommand Unit :=
  modify fun s => { s with events := s.events ++ [event] }

structure ExecOptions where
  package : String
  args : List String
  yes : Bool
  minAge : Option String
  json : Bool
  schemaVersion : ℕ
  requireGrade : Option String
  dryRun : Bool
  sandbox : Bool
  sandboxMode : ExecSandboxMode
  denyNetwork : Bool
  allowDegradedSandbox : Bool
  remember : Bool

structure SafetyScore where
  score : ℕ
  grade : Char

/-- What `exec` finds outside, over what every command finds. -/
structure ExecEnvironment (Text : Type) extends Environment Text where
  home : Option String
  /-- A new directory without files. -/
  execDir : Except String String
  localBin : String → Bool
  runLocal : Except String ℕ
  agentMode : Bool
  /-- `OATH_ALLOW_ALL` is set. -/
  allowAll : Bool
  nodePermissions : Bool
  native : BackendCapabilities
  /-- The version that a specification resolves to in the packument of the name. -/
  resolveVersion : String → String → Except String (String × DistInfo)
  fullPackument : String → Option Value
  isoAgeSecs : String → Option ℕ
  parseDurationSecs : String → Option ℕ
  /-- The files below a directory once the plan is linked. -/
  packageFiles : PlacementPlan → String → FileSystem
  parseJson : List UInt8 → Except String Value
  analysis : FileAnalysis
  safetyScore : AnalysisReport → FileSystem → SafetyScore
  dirSize : FileSystem → ℕ
  signAssessment : ExecAssessment → Except String Unit
  writeApprovals : Except String Unit
  runNode : String → Except String ℕ

/-! ## The binary of a package -/

def packageBinBasename (name : String) : String :=
  String.ofList ((splitChars '/' name.toList).getLastD [])

def isSafePathPart (part : List Char) : Bool :=
  !part.isEmpty && part ≠ ['.'] && part ≠ ['.', '.'] && !part.contains '\\' &&
    !part.contains (Char.ofNat 0)

def isSafeBinName (name : List Char) : Bool := isSafePathPart name && !name.contains '/'

/-- Empty and `.` components drop out; no other special one is allowed. -/
def packageRelativePath (path : String) : Option String :=
  let parts := (splitChars '/' path.toList).filter fun part => !part.isEmpty && part ≠ ['.']
  if path.toList.head? = some '/' || parts.isEmpty || !parts.all isSafePathPart then none
  else some (String.ofList (['/'].intercalate parts))

def safeBinEntries (pkg : Value) (installName : String) : List (String × String) :=
  match pkg.get? "bin" with
  | some (.string path) =>
    if isSafeBinName (packageBinBasename installName).toList then
      ((packageRelativePath path).map fun path => (packageBinBasename installName, path)).toList
    else []
  | some (.object fields) =>
    (fields.filterMap fun field => do
      let path ← field.2.asStr?
      if isSafeBinName field.1.toList then (packageRelativePath path).map (field.1, ·)
      else none).insertionSort fun a b => a.1 ≤ b.1
  | _ => []

def preferredBinPath (pkg : Value) (installName : String) : Option String :=
  let bins := safeBinEntries pkg installName
  ((bins.find? fun bin => bin.1 = installName || bin.1 = packageBinBasename installName).or
    bins.head?).map Prod.snd

/-! ## What is known of a release -/

def publishAgeDays {Text : Type} (env : ExecEnvironment Text) (full : Option Value)
    (version : String) : Option ℕ :=
  ((((full.bind (Value.get? "time")).bind (Value.get? version)).bind Value.asStr?).bind
    env.isoAgeSecs).map (· / 86400)

def lastPublisher (full : Option Value) (version : String) : Option String :=
  let released := (full.bind (Value.get? "versions")).bind (Value.get? version)
  let user := ((released.bind (Value.get? "_npmUser")).bind (Value.get? "name")).bind Value.asStr?
  let maintainers := (full.bind (Value.get? "maintainers")).bind Value.asArray?
  user.or (((maintainers.bind List.head?).bind (Value.get? "name")).bind Value.asStr?)

def repositoryOf (full : Option Value) : Option String :=
  (full.bind (Value.get? "repository")).bind fun repository =>
    ((repository.get? "url").bind Value.asStr?).or repository.asStr?

def gradeRank (grade : Char) : ℕ :=
  match grade.toUpper with
  | 'A' => 5
  | 'B' => 4
  | 'C' => 3
  | 'D' => 2
  | 'F' => 1
  | _ => 0

def gradeBlocked (requireGrade : Option String) (score : SafetyScore) : Bool :=
  match requireGrade with
  | some required => gradeRank score.grade < gradeRank (required.toList.headD 'A')
  | none => false

/-- The capabilities of a report by the names under which they are approved. -/
def permissions (caps : Capabilities) : List String :=
  [(caps.network, "network"), (caps.filesystem, "filesystem"), (caps.envAccess, "env"),
    (caps.subprocess, "subprocess"), (caps.dynamicExec, "eval"),
    (caps.hasInstallScripts, "install-scripts")].filterMap
      fun capability => if capability.1 then some capability.2 else none

def isSerious (risk : RiskLevel) : Bool := risk = .high || risk = .critical

def seriousFindings (report : AnalysisReport) : List String :=
  if isSerious report.overallRisk then report.verdictReasons else []

def isObfuscated (report : AnalysisReport) : Bool :=
  report.findings.any fun finding => finding.kind = .obfuscation && isSerious finding.risk

/-! ## The command -/

/-- What has been found when the decision is due. -/
structure Inspection where
  name : String
  version : String
  info : DistInfo
  full : Option Value
  execPath : String
  plan : PlacementPlan
  graph : DepGraph
  report : AnalysisReport
  preferredBinary : Option String

section Command
variable {Text : Type} (env : ExecEnvironment Text)

def resolveExecSandbox (options : ExecOptions) : Except String ExecSandboxDecision :=
  let requested := requestedMode options.sandbox env.agentMode options.sandboxMode
  (resolveExecSandboxCapabilities requested options.allowDegradedSandbox env.nodePermissions
    env.native).map fun effective => ⟨requested, effective, env.agentMode⟩

def effectiveDenyNetwork (options : ExecOptions) : Bool := options.denyNetwork || env.agentMode

def Inspection.packageDir (inspection : Inspection) : String :=
  inspection.execPath ++ "/node_modules/" ++ inspection.name

def Inspection.files (inspection : Inspection) : FileSystem :=
  env.packageFiles inspection.plan inspection.packageDir

def Inspection.score (inspection : Inspection) : SafetyScore :=
  env.safetyScore inspection.report (inspection.files env)

def identityOfRelease (name version : String) (info : DistInfo) (full : Option Value)
    (binary : Option String) : PackageIdentity where
  name := name
  version := version
  binary := binary
  registry := "https://registry.npmjs.org"
  integrity := info.integrity
  publisher := lastPublisher full version
  publishAgeDays := publishAgeDays env full version
  repository := repositoryOf full

/-! ### The age of the release -/

def refusedAssessment (name version : String) (info : DistInfo) (full : Option Value)
    (sandbox : ExecSandboxDecision) : ExecAssessment where
  identity := identityOfRelease env name version info full none
  evidence := ⟨0, 0, false, false, false, false, [], [],
    ["Artifact analysis was skipped because release-age policy denied execution before download"]⟩
  policy := ⟨"block", "unknown", 0⟩
  sandbox := sandboxCapabilities env.native sandbox.effectiveMode

/-- The release is younger than `--min-age` asks. -/
def tooNew (options : ExecOptions) (full : Option Value) (version : String) : Bool :=
  match publishAgeDays env full version, options.minAge.bind env.parseDurationSecs with
  | some days, some minSecs => days < max (minSecs / 86400) 1
  | _, _ => false

/-- The signature of an assessment of the third schema can fail. -/
def printAssessment (options : ExecOptions) (assessment : ExecAssessment) (event : ExecEvent) :
    ExecCommand Unit := do
  orFail (if options.schemaVersion = 2 then .ok () else env.signAssessment assessment)
  report event

def refuse (options : ExecOptions) (assessment : ExecAssessment) : ExecCommand Unit :=
  if options.json then printAssessment env options assessment (.refused assessment) else pure ()

def ageGate (options : ExecOptions) (sandbox : ExecSandboxDecision) (name version : String)
    (info : DistInfo) (full : Option Value) : ExecCommand Unit :=
  if tooNew env options full version then do
    refuse env options (refusedAssessment env name version info full sandbox)
    throw (.exit exitAge)
  else pure ()

/-! ### Installation and scan -/

def execManifest (name version : String) : Value :=
  .json [("name", .string "oath-exec-tmp"), ("version", .string "0.0.0"),
    ("dependencies", .json [(name, .string version)])]

/-- The plan for a project whose one file is the manifest. -/
def planExec (execPath name version : String) : Except String PlacementPlan :=
  match planWith env.toEnvironment execPath .default
      ⟨Function.update (fun _ => none) (packageJsonPath execPath)
        (some (env.json.pretty (execManifest name version))), [], []⟩ with
  | .ok plan _ => hydrateMissingRegistryMetadata env.toEnvironment plan
  | .error message _ => .error message

def readPackage (files : FileSystem) : Except String (Option Value) :=
  if files.exists? [] [packageJson] then
    match files.read [] [packageJson] with
    | .error e => .error e.text
    | .ok content =>
      if Utf8.isValid content then (env.parseJson content).map some
      else .error "stream did not contain valid UTF-8"
  else .ok none

def inspectPackage (name version : String) (info : DistInfo) (full : Option Value) :
    Except String Inspection := do
  let execPath ← env.execDir
  let plan ← planExec env execPath name version
  let graph ← plan.toDepGraph
  let _ ← downloadMissing env.toEnvironment graph
  env.linkPlacementPlan plan execPath
  let files := env.packageFiles plan (execPath ++ "/node_modules/" ++ name)
  let report ← scan env.parseJson env.analysis files [] name version
  let pkg ← readPackage env files
  .ok ⟨name, version, info, full, execPath, plan, graph, report,
    pkg.bind fun pkg => preferredBinPath pkg name⟩

def inspect (options : ExecOptions) (sandbox : ExecSandboxDecision) : ExecCommand Inspection := do
  let spec := parsePackageSpec options.package
  let (version, info) ← orFail (env.resolveVersion spec.1 spec.2)
  let full := env.fullPackument spec.1
  ageGate env options sandbox spec.1 version info full
  orFail (inspectPackage env spec.1 version info full)

/-! ### The decision -/

def assess (options : ExecOptions) (sandbox : ExecSandboxDecision) (inspection : Inspection) :
    ExecAssessment where
  identity := identityOfRelease env inspection.name inspection.version inspection.info
    inspection.full inspection.preferredBinary
  evidence := {
    unpackedBytes := env.dirSize (inspection.files env)
    dependencyCount := inspection.graph.nodes.rows.length
    readableSource := !isObfuscated inspection.report
    obfuscated := isObfuscated inspection.report
    nativeCode := (inspection.files env).exists? [] [asBytes "binding.gyp"] ||
      (inspection.files env).exists? [] [asBytes "prebuilds"]
    lifecycleHooks := inspection.report.capabilities.hasInstallScripts
    capabilities := permissions inspection.report.capabilities
    findings := seriousFindings inspection.report
    limitations := ["Static analysis cannot prove safety",
      "Remote second-stage payloads and opaque binaries may evade inspection"] }
  policy := {
    decision := if gradeBlocked options.requireGrade (inspection.score env) then "block" else "allow"
    grade := (inspection.score env).grade.toString
    score := (inspection.score env).score }
  sandbox := sandboxCapabilities env.native sandbox.effectiveMode

def approvalOf (options : ExecOptions) (sandbox : ExecSandboxDecision) (inspection : Inspection) :
    ExecApproval where
  package := inspection.name
  version := inspection.version
  integrity := inspection.info.integrity.getD ""
  capabilities := permissions inspection.report.capabilities
  sandboxBackend := (sandboxCapabilities env.native sandbox.effectiveMode).backend
  denyNetwork := effectiveDenyNetwork env options

def load : ExecCommand ApprovalFile := fun s =>
  match s.approvalFile with
  | none => .ok ⟨1, []⟩ s
  | some (.ok file) => .ok file s
  | some (.error _) => .error (.failed "invalid exec approval store") s

/-- An approval without an integrity is never looked up. -/
def previouslyApproved (approval : ExecApproval) : ExecCommand Bool :=
  if approval.integrity = "" then pure false
  else do
    report (.lookedUp approval)
    let file ← load
    pure (approval ∈ file.approvals)

def remember (approval : ExecApproval) : ExecCommand Unit := do
  orFail (if approval.integrity = "" then
    .error "cannot remember an approval without registry integrity" else .ok ())
  let file ← load
  orFail env.writeApprovals
  modify fun s => { s with approvalFile := some (.ok (file.add approval)) }
  report (.remembered approval)

def checkGrade (options : ExecOptions) (inspection : Inspection) : ExecCommand Unit :=
  if gradeBlocked options.requireGrade (inspection.score env) then throw (.exit exitGrade)
  else pure ()

/-- A line of the input; there is none at its end. -/
def readAnswer : ExecCommand String := fun s =>
  .ok (s.stdin.headD "") { s with
    stdin := s.stdin.tail, events := s.events ++ [.asked (s.stdin.headD "")] }

def isYes (answer : String) : Bool := eqIgnoreAsciiCase (trim answer) "y"

def promptRun : ExecCommand Unit := do
  let answer ← readAnswer
  if isYes answer then pure () else throw (.exit exitUser)

def needsPrompt (options : ExecOptions) (inspection : Inspection) (approved : Bool) : Bool :=
  !(seriousFindings inspection.report).isEmpty && !options.yes && !approved && !env.allowAll

def findBinary (inspection : Inspection) : ExecCommand String :=
  let candidates := ["cli.js", "bin/index.js", "index.js", "bin.js"].filter fun candidate =>
    (inspection.files env).exists? [] (pieces (asBytes candidate))
  match inspection.preferredBinary.or candidates.head? with
  | some path => pure (inspection.packageDir ++ "/" ++ path)
  | none => throw (.exit 1)

def runBinary (options : ExecOptions) (inspection : Inspection) : ExecCommand Unit := do
  let binary ← findBinary env inspection
  report (.ran binary options.args)
  let code ← orFail (env.runNode binary)
  throw (.exit code)

def rememberChoice (options : ExecOptions) (approval : ExecApproval) : ExecCommand Unit :=
  if options.remember then remember env approval else pure ()

def rememberAndRun (options : ExecOptions) (sandbox : ExecSandboxDecision)
    (inspection : Inspection) : ExecCommand Unit := do
  rememberChoice env options (approvalOf env options sandbox inspection)
  runBinary env options inspection

/-- Only without `--json` is the user asked. -/
def confirm (options : ExecOptions) (inspection : Inspection) (approved : Bool) :
    ExecCommand Unit :=
  if !options.json && needsPrompt env options inspection approved then promptRun else pure ()

def showAssessment (options : ExecOptions) (assessment : ExecAssessment) (approved : Bool) :
    ExecCommand Unit :=
  if options.json then printAssessment env options assessment (.printed assessment approved)
  else report (.card assessment)

def decideAndRun (options : ExecOptions) (sandbox : ExecSandboxDecision)
    (inspection : Inspection) : ExecCommand Unit := do
  orFail (if env.home.isSome then .ok ()
    else .error "HOME or USERPROFILE is required for approval storage")
  let approved ← previouslyApproved (approvalOf env options sandbox inspection)
  showAssessment env options (assess env options sandbox inspection) approved
  checkGrade env options inspection
  if options.dryRun then pure ()
  else do
    confirm env options inspection approved
    rememberAndRun env options sandbox inspection

def usesLocalBin (options : ExecOptions) (sandbox : ExecSandboxDecision) : Bool :=
  env.localBin (parsePackageSpec options.package).1 && !options.dryRun &&
    sandbox.effectiveMode = .off

def runLocalBin (options : ExecOptions) : ExecCommand Unit := do
  report (.ranLocal ("node_modules/.bin/" ++ (parsePackageSpec options.package).1) options.args)
  let code ← orFail env.runLocal
  throw (.exit code)

def inspectAndRun (options : ExecOptions) (sandbox : ExecSandboxDecision) : ExecCommand Unit := do
  let inspection ← inspect env options sandbox
  decideAndRun env options sandbox inspection

def cmdExec (options : ExecOptions) : ExecCommand Unit := do
  orFail (if options.schemaVersion = 2 ∨ options.schemaVersion = 3 then .ok ()
    else .error ("unsupported exec assessment schema " ++ toString options.schemaVersion ++
      "; supported versions are 2 and 3"))
  let sandbox ← orFail (resolveExecSandbox env options)
  if usesLocalBin env options sandbox then runLocalBin env options
  else inspectAndRun env options sandbox

end Command

end Oath.Cli
