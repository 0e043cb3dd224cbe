import Oath.Analyze.Report
import Oath.Library.Checked

/-! The safety score of a package: penalties for the findings and capabilities of its report,
small corrections for what its directory holds, a floor for the verdict, and the corrections
for the context it is installed in. -/

namespace Oath.Analyze
open Machine

structure ScoreFactor where
  name : String
  weight : ℤ
  description : String
deriving DecidableEq, Repr

structure SafetyScore where
  score : ℕ
  grade : Char
  factors : List ScoreFactor
deriving DecidableEq, Repr

def scoreToGrade (score : ℕ) : Char :=
  if 90 ≤ score ∧ score ≤ 100 then 'A'
  else if 75 ≤ score ∧ score ≤ 89 then 'B'
  else if 60 ≤ score ∧ score ≤ 74 then 'C'
  else if 40 ≤ score ∧ score ≤ 59 then 'D'
  else 'F'

structure ScoreContext where
  isDev : Bool := false
  /-- 0 is unknown. -/
  weeklyDownloads : ℕ := 0
  ageDays : ℕ := 0
deriving DecidableEq, Repr

section KnownPackages

def knownNetworkPackages : List String :=
  ["axios", "node-fetch", "undici", "got", "request", "superagent", "ky", "cross-fetch",
    "isomorphic-fetch", "whatwg-fetch", "needle", "phin"]

def knownFsPackages : List String :=
  ["fs-extra", "graceful-fs", "glob", "globby", "chokidar", "rimraf", "del", "mkdirp",
    "make-dir", "find-up", "locate-path", "fast-glob"]

def knownEnvPackages : List String := ["dotenv", "cross-env", "env-ci", "envinfo"]

def knownExecPackages : List String := ["execa", "cross-spawn", "shelljs", "npm-run-all"]

def isKnownSafeForCapability (name capability : String) : Bool :=
  match capability with
  | "network" => knownNetworkPackages.contains name
  | "filesystem" => knownFsPackages.contains name
  | "env_access" => knownEnvPackages.contains name
  | "subprocess" | "dynamic_exec" => knownExecPackages.contains name
  | _ => false

end KnownPackages

section Counts

structure RiskCounts where
  critical : ℕ
  high : ℕ
  medium : ℕ
  low : ℕ
deriving DecidableEq, Repr

def RiskCounts.add (counts : RiskCounts) (finding : Finding) : Checked RiskCounts :=
  match finding.risk with
  | .critical => do
    let count ← unsigned 32 (counts.critical + 1)
    pure { counts with critical := count }
  | .high => do
    let count ← unsigned 32 (counts.high + 1)
    pure { counts with high := count }
  | .medium => do
    let count ← unsigned 32 (counts.medium + 1)
    pure { counts with medium := count }
  | .low => do
    let count ← unsigned 32 (counts.low + 1)
    pure { counts with low := count }
  | _ => pure counts

def countRisks (findings : List Finding) : Checked RiskCounts :=
  findings.foldlM RiskCounts.add ⟨0, 0, 0, 0⟩

/-- The findings of one kind whose message holds this text. -/
def patternCount (kind : FindingKind) (text : String) (findings : List Finding) : ℕ :=
  findings.countP fun f => f.kind = kind && containsStr f.message.toList text

end Counts

section Penalties

structure Tally where
  rawScore : ℤ
  factors : List ScoreFactor
deriving DecidableEq, Repr

def Tally.push (tally : Tally) (name description : String) (weight : ℤ) : Checked Tally := do
  let rawScore ← signed 32 (tally.rawScore + weight)
  pure { rawScore := rawScore, factors := tally.factors ++ [⟨name, weight, description⟩] }

/-- The count is narrowed to 16 bits before it is multiplied. -/
def riskPenalty (name noun : String) (unit : ℤ) (count : ℕ) (tally : Tally) : Checked Tally :=
  if count > 0 then do
    let narrowed ← signed 16 count
    let product ← signed 16 (narrowed * unit)
    let penalty ← signed 16 (-product)
    tally.push name s!"{count} {noun}" penalty
  else pure tally

def criticalPenalty := riskPenalty "critical_findings" "critical finding(s)" 30
def highPenalty := riskPenalty "high_findings" "high finding(s)" 15
def mediumPenalty := riskPenalty "medium_findings" "medium finding(s)" 5
def lowPenalty := riskPenalty "low_findings" "low finding(s)" 2

def flagFactor (name description : String) (weight : ℤ) (applies : Bool) (tally : Tally) :
    Checked Tally :=
  if applies then tally.push name description weight else pure tally

def installScriptsFactor (report : AnalysisReport) :=
  flagFactor "install_scripts" "Package has install scripts" (-10)
    report.capabilities.hasInstallScripts

def networkEnvCombo (report : AnalysisReport) :=
  flagFactor "network_env_combo" "Network access combined with environment variable access" (-20)
    (report.capabilities.network && report.capabilities.envAccess &&
      !isKnownSafeForCapability report.packageName "network" &&
      !isKnownSafeForCapability report.packageName "env_access")

def dynamicExecPenalty (report : AnalysisReport) :=
  flagFactor "dynamic_exec" "Uses dynamic code execution (eval/Function)" (-10)
    (report.capabilities.dynamicExec &&
      !isKnownSafeForCapability report.packageName "dynamic_exec")

def highObfuscation (findings : List Finding) : Bool :=
  findings.any fun f => f.kind = .obfuscation && (f.risk = .high || f.risk = .critical)

def obfuscatedCode (report : AnalysisReport) :=
  flagFactor "obfuscated_code" "Obfuscated code detected" (-25) (highObfuscation report.findings)

/-- The product is capped, then negated and narrowed to 16 bits. -/
def patternPenalty (name noun : String) (unit cap : ℤ) (found : ℕ) (tally : Tally) :
    Checked Tally := do
  let count ← signed 32 found
  if count > 0 then do
    let product ← signed 32 (count * unit)
    let negated ← signed 32 (-(min product cap))
    let penalty ← signed 16 negated
    tally.push name s!"{count} {noun}" penalty
  else pure tally

def base64Payload (report : AnalysisReport) :=
  patternPenalty "base64_payload"
    "base64 payload detection(s) (Buffer.from/atob with encoded data)" 30 60
    (patternCount .obfuscation "Base64 payload" report.findings)

def dynamicRequireObfuscation (report : AnalysisReport) :=
  patternPenalty "dynamic_require_obfuscation"
    "dynamic require obfuscation(s) (concatenated module names)" 25 50
    (patternCount .obfuscation "Dynamic require" report.findings)

def hexStringExecution (report : AnalysisReport) :=
  patternPenalty "hex_string_execution"
    "hex string execution(s) (eval+fromCharCode or hex eval)" 40 80
    (patternCount .obfuscation "Hex string execution" report.findings)

def envExfiltrationCombo (report : AnalysisReport) :=
  patternPenalty "env_exfiltration_combo"
    "file(s) with process.env read + HTTP request (possible exfiltration)" 35 70
    (patternCount .dataExfiltration "Environment variable exfiltration" report.findings)

def cryptoWalletPatterns (report : AnalysisReport) :=
  patternPenalty "crypto_wallet_patterns" "cryptocurrency wallet address(es) detected" 20 60
    (patternCount .cryptoMiner "wallet address" report.findings)

end Penalties

section Directory

/-- What the walk yields of an entry it could read: the name and the extension are there when
they are Unicode. -/
structure WalkEntry where
  depth : ℕ
  isFile : Bool
  fileName : Option String
  extension : Option String
deriving DecidableEq, Repr

structure PackageDir where
  /-- `package_dir.join(name).exists()`. -/
  has : String → Bool
  walk : List WalkEntry

namespace PackageDir

def hasReadme (dir : PackageDir) : Bool :=
  dir.has "README.md" || dir.has "readme.md" || dir.has "README" || dir.has "README.txt" ||
    dir.has "README.rst"

def fileCount (dir : PackageDir) : ℕ := (dir.walk.filter WalkEntry.isFile).length

def hasMinified (dir : PackageDir) : Bool :=
  (dir.walk.filter WalkEntry.isFile).any fun entry =>
    match entry.fileName with
    | some name => name.endsWith ".min.js" || name.endsWith ".min.cjs"
    | none => false

def hasTypes (dir : PackageDir) : Bool :=
  dir.has "index.d.ts" ||
    (dir.walk.filter fun entry => entry.depth ≤ 3).any fun entry =>
      (entry.extension.map (· == "d.ts")).getD false ||
        (entry.fileName.map (·.endsWith ".d.ts")).getD false

def hasLicense (dir : PackageDir) : Bool :=
  dir.has "LICENSE" || dir.has "LICENSE.md" || dir.has "LICENSE.txt" || dir.has "LICENCE" ||
    dir.has "license"

def hasTests (dir : PackageDir) : Bool := dir.has "test" || dir.has "tests" || dir.has "__tests__"

end PackageDir

def noReadme (dir : PackageDir) :=
  flagFactor "no_readme" "Package has no README" (-5) (!dir.hasReadme)

def largeSurfaceArea (dir : PackageDir) :=
  flagFactor "large_surface_area" s!"Package has {dir.fileCount} files (large surface area)" (-5)
    (dir.fileCount > 200)

def readableSource (dir : PackageDir) :=
  flagFactor "readable_source" "All source is readable (no minified files)" 5 (!dir.hasMinified)

def typescriptTypes (dir : PackageDir) :=
  flagFactor "typescript_types" "Has TypeScript type definitions" 5 dir.hasTypes

def licenseFile (dir : PackageDir) :=
  flagFactor "has_license" "Has LICENSE file" 5 dir.hasLicense

def testDirectory (dir : PackageDir) :=
  flagFactor "has_tests" "Has test directory" 5 dir.hasTests

end Directory

section Score

def clamp (low high x : ℤ) : ℤ := max low (min x high)

def verdictFloor : RiskLevel → Option (ℤ × String)
  | .info => some (75, "AST analysis found no correlated dangerous behavior")
  | .high => some (60, "AST analysis found reviewable behavior without block-tier corroboration")
  | _ => none

def behavioralVerdict (report : AnalysisReport) (tally : Tally) : Checked Tally :=
  match verdictFloor report.overallRisk with
  | some (floor, description) =>
    if tally.rawScore < floor then do
      let recovered ← signed 32 (floor - max tally.rawScore 0)
      let weight ← signed 16 (clamp 0 32767 recovered)
      pure { rawScore := floor,
             factors := tally.factors ++ [⟨"behavioral_verdict", weight, description⟩] }
    else pure tally
  | none => pure tally

def riskPenalties (counts : RiskCounts) (tally : Tally) : Checked Tally := do
  let tally ← criticalPenalty counts.critical tally
  let tally ← highPenalty counts.high tally
  let tally ← mediumPenalty counts.medium tally
  lowPenalty counts.low tally

def capabilityPenalties (report : AnalysisReport) (tally : Tally) : Checked Tally := do
  let tally ← installScriptsFactor report tally
  let tally ← networkEnvCombo report tally
  let tally ← dynamicExecPenalty report tally
  obfuscatedCode report tally

def patternPenalties (report : AnalysisReport) (tally : Tally) : Checked Tally := do
  let tally ← base64Payload report tally
  let tally ← dynamicRequireObfuscation report tally
  let tally ← hexStringExecution report tally
  let tally ← envExfiltrationCombo report tally
  cryptoWalletPatterns report tally

def directoryFactors (dir : PackageDir) (tally : Tally) : Checked Tally := do
  let tally ← noReadme dir tally
  let tally ← largeSurfaceArea dir tally
  let tally ← readableSource dir tally
  let tally ← typescriptTypes dir tally
  let tally ← licenseFile dir tally
  testDirectory dir tally

def computeSafetyScore (report : AnalysisReport) (dir : PackageDir) : Checked SafetyScore := do
  let counts ← countRisks report.findings
  let tally ← riskPenalties counts ⟨100, []⟩
  let tally ← capabilityPenalties report tally
  let tally ← patternPenalties report tally
  let tally ← directoryFactors dir tally
  let tally ← behavioralVerdict report tally
  let score ← unsigned 8 (clamp 0 100 tally.rawScore)
  pure { score := score, grade := scoreToGrade score, factors := tally.factors }

end Score

section Context

/-- Forty parts in a hundred of what was lost are given back. -/
def devDiscount (ctx : ScoreContext) (score : SafetyScore) : Checked SafetyScore :=
  if ctx.isDev && score.score < 100 then do
    let lost ← signed 32 (100 - score.score)
    let product ← signed 32 (lost * 40)
    let recovered := product.tdiv 100
    let sum ← signed 32 (score.score + recovered)
    let next ← unsigned 8 (clamp 0 100 sum)
    if recovered > 0 then do
      let weight ← signed 16 recovered
      pure { score := next, grade := scoreToGrade next,
             factors := score.factors ++
               [⟨"dev_dependency", weight, "Dev dependency (reduced severity)"⟩] }
    else pure { score with score := next, grade := scoreToGrade next }
  else pure score

def hasCritical (findings : List Finding) : Bool := findings.any fun f => f.risk = .critical

def popularityTrust (report : AnalysisReport) (ctx : ScoreContext) (score : SafetyScore) :
    Checked SafetyScore :=
  if ctx.weeklyDownloads ≥ 1000000 && !hasCritical report.findings && score.score < 90 then do
    let recovered ← signed 16 (90 - score.score)
    pure { score := 90, grade := scoreToGrade 90,
           factors := score.factors ++ [⟨"trusted_popular", recovered,
             s!"{ctx.weeklyDownloads / 1000000}M+ weekly downloads, no critical findings " ++
               "(heuristic flags treated as false positives)"⟩] }
  else pure score

def suspicionBoost (ctx : ScoreContext) (score : SafetyScore) : Checked SafetyScore :=
  if ctx.weeklyDownloads > 0 && ctx.weeklyDownloads < 100 && ctx.ageDays < 30 then do
    let sum ← signed 32 (score.score + -15)
    let next ← unsigned 8 (max sum 0)
    pure { score := next, grade := scoreToGrade next,
           factors := score.factors ++
             [⟨"new_unpopular", -15, "New package with very few downloads"⟩] }
  else pure score

def computeSafetyScoreContextual (report : AnalysisReport) (dir : PackageDir)
    (ctx : ScoreContext) : Checked SafetyScore := do
  let score ← computeSafetyScore report dir
  let score ← devDiscount ctx score
  let score ← popularityTrust report ctx score
  suspicionBoost ctx score

end Context

end Oath.Analyze
