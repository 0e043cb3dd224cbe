import Mathlib.Data.List.Infix
import Oath.Contracts.Json

/-! Behavioural facts about source files and the verdict on their combinations, and the scanner's
report on a package. -/

namespace Oath.Analyze

structure Behavior where
  net : Bool := false
  fs : Bool := false
  subprocess : Bool := false
  codeExec : Bool := false
  envRead : Bool := false
  envWhole : Bool := false
  sensitiveEnv : Bool := false
  credPath : Bool := false
  decode : Bool := false
  decodeIntoExec : Bool := false
  handCodeExec : Bool := false
  handDecode : Bool := false
  fetchIntoExec : Bool := false
  suspiciousHost : Bool := false
  wormMarker : Bool := false
  shellDownload : Bool := false
deriving DecidableEq, Repr

namespace Behavior

def merge (b o : Behavior) : Behavior where
  net := b.net || o.net
  fs := b.fs || o.fs
  subprocess := b.subprocess || o.subprocess
  codeExec := b.codeExec || o.codeExec
  envRead := b.envRead || o.envRead
  envWhole := b.envWhole || o.envWhole
  sensitiveEnv := b.sensitiveEnv || o.sensitiveEnv
  credPath := b.credPath || o.credPath
  decode := b.decode || o.decode
  decodeIntoExec := b.decodeIntoExec || o.decodeIntoExec
  handCodeExec := b.handCodeExec || o.handCodeExec
  handDecode := b.handDecode || o.handDecode
  fetchIntoExec := b.fetchIntoExec || o.fetchIntoExec
  suspiciousHost := b.suspiciousHost || o.suspiciousHost
  wormMarker := b.wormMarker || o.wormMarker
  shellDownload := b.shellDownload || o.shellDownload

def strongSource (b : Behavior) : Bool := b.sensitiveEnv || b.credPath

end Behavior

inductive Verdict
  | info
  | warn
  | block
deriving DecidableEq, Repr

def blockReasons (b : Behavior) (hasInstallScript : Bool) : List String :=
  (if b.envWhole && b.net && (b.suspiciousHost || b.wormMarker) then
    ["exfiltration: full environment captured and sent to a network sink"] else []) ++
  (if b.decodeIntoExec then
    ["decoded payload executed (decode -> eval/Function/require)"] else []) ++
  (if b.fetchIntoExec then
    ["second-stage payload: remote content passed to eval/Function"] else []) ++
  (if b.wormMarker && (b.net || b.subprocess) then
    ["worm/secret-stealer markers (trufflehog / cloud metadata / republish)"] else []) ++
  (if b.suspiciousHost && (b.net || b.strongSource || b.subprocess) then
    ["contacts known exfiltration/C2 infrastructure"] else []) ++
  (if hasInstallScript &&
      (b.shellDownload || b.suspiciousHost || b.decodeIntoExec || b.wormMarker) then
    ["install hook runs payload behavior (shell/C2/decode-exec/worm)"] else []) ++
  (if b.shellDownload && b.subprocess then
    ["spawns a shell download chain (curl/wget/certutil)"] else [])

def warnReasons (b : Behavior) : List String :=
  (if (b.sensitiveEnv || b.credPath) && b.net then
    ["sensitive credentials and network access occur in the same file; review the destination"]
    else []) ++
  (if b.strongSource && b.subprocess then ["reads secrets and spawns processes"] else [])

/-- Each reason goes with the flag of its tier, so a tier applies when it has a reason. -/
def verdict (b : Behavior) (hasInstallScript : Bool) : Verdict × List String :=
  if !(blockReasons b hasInstallScript).isEmpty then (.block, blockReasons b hasInstallScript)
  else if !(warnReasons b).isEmpty then (.warn, warnReasons b)
  else (.info, [])

def suspiciousHosts : List String := [
  ".ngrok.io", ".ngrok-free.app", "webhook.site", "burpcollaborator", "requestbin",
  "pipedream.net", "interact.sh", ".oast.", "oastify.com", "dnslog.cn", ".nip.io",
  "transfer.sh", "0x0.st", "discord.com/api/webhooks", "discordapp.com/api/webhooks",
  "api.telegram.org/bot", "file.io", "anonfiles", "gofile.io", "paste.ee", "termbin.com"]

def wormMarkers : List String := [
  "trufflehog", "169.254.169.254", "metadata.google.internal", "shai-hulud", "npm publish",
  "npm_package_description"]

def shellDownloads : List String := [
  "curl ", "wget ", "certutil", "Invoke-WebRequest", "bitsadmin", "| bash", "| sh",
  "powershell -", "regsvr32", "rundll32"]

def shellFragments : List String := [
  "/dev/tcp", "base64 -d", "base64 --decode", "|sh", "| sh", "|bash", "| bash", "python -c",
  "python3 -c", "node -e", "eval("]

/-- `str::contains`. -/
def containsStr (text : List Char) (word : String) : Bool := word.toList <:+: text

def scanInstallCommand (cmd : String) (b : Behavior) : Behavior :=
  let text := cmd.toList
  let lc := text.map Char.toLower
  { b with
    shellDownload := b.shellDownload || shellDownloads.any (containsStr text) ||
      shellFragments.any (containsStr lc)
    suspiciousHost := b.suspiciousHost ||
      suspiciousHosts.any fun host => containsStr lc (String.ofList (host.toList.map Char.toLower))
    wormMarker := b.wormMarker || wormMarkers.any (containsStr text) }

end Oath.Analyze

/-! ## The report -/

namespace Oath.Analyze
open Contracts

inductive RiskLevel
  | clean
  | info
  | low
  | medium
  | high
  | critical
deriving DecidableEq, Repr

def RiskLevel.asStr : RiskLevel → String
  | clean => "CLEAN"
  | info => "INFO"
  | low => "LOW"
  | medium => "MEDIUM"
  | high => "HIGH"
  | critical => "CRITICAL"

inductive FindingKind
  | network
  | filesystem
  | envAccess
  | subprocess
  | dynamicExec
  | obfuscation
  | installScript
  | typosquatting
  | dataExfiltration
  | cryptoMiner
  | shadowDep
  | credentialHarvest
  | conditionalPayload
  | slopsquatting
  | bracketNotation
  | ciTargeting
  | silentSubprocess
  | envPathOverwrite
  | moduleLoaderPatch
  | nativeAddon
deriving DecidableEq, Repr

def FindingKind.asStr : FindingKind → String
  | network => "network"
  | filesystem => "filesystem"
  | envAccess => "env_access"
  | subprocess => "subprocess"
  | dynamicExec => "dynamic_exec"
  | obfuscation => "obfuscation"
  | installScript => "install_script"
  | typosquatting => "typosquatting"
  | dataExfiltration => "data_exfiltration"
  | cryptoMiner => "crypto_miner"
  | shadowDep => "shadow_dep"
  | credentialHarvest => "credential_harvest"
  | conditionalPayload => "conditional_payload"
  | slopsquatting => "slopsquatting"
  | bracketNotation => "bracket_notation"
  | ciTargeting => "ci_targeting"
  | silentSubprocess => "silent_subprocess"
  | envPathOverwrite => "env_path_overwrite"
  | moduleLoaderPatch => "module_loader_patch"
  | nativeAddon => "native_addon"

structure Finding where
  kind : FindingKind
  risk : RiskLevel
  message : String
  file : String
  line : ℕ
  snippet : Option String
deriving DecidableEq, Repr

structure Capabilities where
  network : Bool := false
  filesystem : Bool := false
  envAccess : Bool := false
  subprocess : Bool := false
  dynamicExec : Bool := false
  hasInstallScripts : Bool := false
  nativeAddon : Bool := false
deriving DecidableEq, Repr

structure AnalysisReport where
  packageName : String
  packageVersion : String
  overallRisk : RiskLevel
  findings : List Finding
  filesScanned : ℕ
  linesScanned : ℕ
  capabilities : Capabilities
  verdictReasons : List String
deriving DecidableEq, Repr

open Value

def Finding.toValue (f : Finding) : Value := json [
  ("kind", .string f.kind.asStr),
  ("risk", .string f.risk.asStr),
  ("message", .string f.message),
  ("file", .string f.file),
  ("line", .int f.line),
  ("snippet", optString f.snippet)]

def Capabilities.toValue (c : Capabilities) : Value := json [
  ("network", .bool c.network),
  ("filesystem", .bool c.filesystem),
  ("env_access", .bool c.envAccess),
  ("subprocess", .bool c.subprocess),
  ("dynamic_exec", .bool c.dynamicExec),
  ("has_install_scripts", .bool c.hasInstallScripts),
  ("native_addon", .bool c.nativeAddon)]

end Oath.Analyze
