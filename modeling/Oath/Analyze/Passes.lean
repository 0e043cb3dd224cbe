import Oath.Analyze.Report
import Oath.Analyze.Scanner
import Oath.Core.Policy
import Oath.Library.KeyedLists
import Oath.Transparency.Log

/-! The texts that the analyzer looks for in a source, and the passes that report findings on it.
Regular expressions, ratios in floating point and the syntax tree of JavaScript are parameters; what
is reported of them is not. -/

namespace Oath.Analyze

structure Pattern where
  kind : FindingKind
  risk : RiskLevel
  description : String
  strings : List String

def patterns : List Pattern := [
  ⟨.network, .info, "Uses fetch() API for network requests",
    ["fetch(", "fetch ("]⟩,
  ⟨.network, .low, "Requires http/https/net module",
    ["require('http')", "require(\"http\")", "require('https')", "require(\"https\")",
      "require('net')", "require(\"net\")", "require('tls')", "require(\"tls\")", "require('dns')",
      "require(\"dns\")"]⟩,
  ⟨.network, .info, "Uses axios for HTTP requests",
    ["require('axios')", "require(\"axios\")", "from 'axios'", "from \"axios\""]⟩,
  ⟨.network, .info, "Uses got/node-fetch for HTTP requests",
    ["require('got')", "require('node-fetch')", "require(\"got\")", "require(\"node-fetch\")"]⟩,
  ⟨.network, .medium, "Creates raw TCP/socket connection",
    [".connect(", "net.createConnection", "new net.Socket"]⟩,
  ⟨.filesystem, .low, "Requires fs module",
    ["require('fs')", "require(\"fs\")", "require('fs/promises')", "require(\"fs/promises\")",
      "require('node:fs')", "require(\"node:fs\")"]⟩,
  ⟨.filesystem, .high, "Writes to home directory or system paths",
    ["process.env.HOME", "os.homedir()", "~/.ssh", "~/.aws", "~/.npmrc", "/.ssh/",
      "/.aws/credentials"]⟩,
  ⟨.filesystem, .high, "Reads SSH keys, credential paths, or /etc/passwd",
    ["id_rsa", "id_ed25519", "/.ssh/", "/.aws/credentials", "/etc/passwd", "/etc/shadow"]⟩,
  ⟨.envAccess, .high, "Accesses sensitive environment variables (tokens/keys/secrets)",
    ["NPM_TOKEN", "AWS_SECRET", "AWS_ACCESS_KEY", "GITHUB_TOKEN", "GH_TOKEN", "API_KEY",
      "SECRET_KEY", "PRIVATE_KEY", "DATABASE_URL", "CI_TOKEN", "SLACK_TOKEN", "DISCORD_TOKEN"]⟩,
  ⟨.envAccess, .info, "Reads environment variables",
    ["process.env"]⟩,
  ⟨.subprocess, .medium, "Requires child_process module",
    ["require('child_process')", "require(\"child_process\")", "require('node:child_process')",
      "require(\"node:child_process\")"]⟩,
  ⟨.subprocess, .high, "Executes shell commands",
    [".execSync(", ".spawnSync(", ".execFileSync(", "child_process.exec(", "shelljs",
      "shell.exec(", "require('shelljs')", "require(\"shelljs\")"]⟩,
  ⟨.dynamicExec, .high, "Uses eval() for dynamic code execution",
    ["eval(", " eval "]⟩,
  ⟨.dynamicExec, .high, "Uses new Function() for dynamic code execution",
    ["new Function(", "new Function ("]⟩,
  ⟨.dynamicExec, .high, "Uses Node.js vm module for dynamic execution",
    ["require('vm')", "require(\"vm\")", "vm.runInNewContext", "vm.runInThisContext", "vm.Script"]⟩,
  ⟨.dynamicExec, .high, "Passes string to setTimeout/setInterval (dynamic exec)",
    ["setTimeout(\"", "setInterval(\"", "setTimeout('", "setInterval('"]⟩,
  ⟨.obfuscation, .info, "Uses atob/btoa base64 encoding",
    ["atob(", "btoa("]⟩,
  ⟨.obfuscation, .info, "Builds strings from char codes",
    ["fromCharCode(", "String.fromCharCode"]⟩,
  ⟨.dataExfiltration, .critical, "Hardcoded DNS-tunnel / out-of-band exfiltration domain",
    [".nip.io", ".burpcollaborator", ".ngrok.io", ".oast.", ".dnslog."]⟩,
  ⟨.cryptoMiner, .high, "Possible cryptocurrency mining code",
    ["coinhive", "CoinHive", "CryptoNight", "cryptonight", "stratum+tcp://", "monero", "xmrig",
      "wasm-pack-template", "WebAssembly.instantiate", "mining", "hashrate"]⟩,
  ⟨.dynamicExec, .critical, "Downloads and executes remote code at runtime (second-stage payload)",
    ["eval(require('https')", "eval(require(\"https\")", "new Function(await",
      "vm.runInContext(await", "vm.runInNewContext(await", ".then(eval)", ".then(r=>eval(",
      ".then(r => eval(", "eval(await fetch", "eval(await res"]⟩,
  ⟨.credentialHarvest, .critical, "Reads SSH private keys, browser cookies, or the OS keychain",
    [".ssh/id_rsa", ".ssh/id_ed25519", ".ssh/id_dsa", "Library/Application Support/Google/Chrome",
      "Login Data", "keychain"]⟩,
  ⟨.credentialHarvest, .high, "References cloud / CI credential paths or tokens (AWS, GitHub, npm)",
    [".aws/credentials", ".aws/config", "AWS_ACCESS_KEY_ID", "AWS_SECRET_ACCESS_KEY",
      "GITHUB_TOKEN", "npm_token", "NPM_TOKEN", ".npmrc"]⟩,
  ⟨.dataExfiltration, .high,
    "Sends env var contents over network (suspicious exfiltration pattern)",
    ["process.env.AWS_SECRET", "process.env.GITHUB_TOKEN", "process.env.NPM_TOKEN",
      "process.env.CI_JOB_TOKEN", "process.env.DATABASE_URL", "process.env.SECRET_KEY"]⟩,
  ⟨.installScript, .high, "Heavy postinstall lifecycle manipulation (path probing, env inspection)",
    ["npm_lifecycle_event", "npm_package_name", "npm_lifecycle_script", "INIT_CWD"]⟩,
  ⟨.conditionalPayload, .high, "Conditional payload gated on locale, timezone, or IP geolocation",
    ["Intl.DateTimeFormat", "process.env.LANG", "process.env.TZ", "geoiplookup", "ipapi.co",
      "ip-api.com", "ipinfo.io", "freegeoip", "geolocation-db.com"]⟩,
  ⟨.bracketNotation, .medium,
    "Bracket notation property access used to evade static string detection",
    ["process['env']", "process[\"env\"]", "require['child_process']",
      "require[\"child_process\"]", "process['env']['", "process[\"env\"][\""]⟩,
  ⟨.ciTargeting, .high,
    "Reads CI pipeline environment variables (often used to detect and steal tokens)",
    ["process.env.CI", "process.env.GITHUB_ACTIONS", "process.env.TRAVIS", "process.env.CIRCLECI",
      "process.env.GITHUB_TOKEN", "process.env.NPM_TOKEN", "GITHUB_ACTIONS", "TRAVIS_BUILD",
      "CIRCLECI"]⟩,
  ⟨.envPathOverwrite, .high,
    "Overwrites process.env.PATH or LD_PRELOAD -- can redirect executables to malicious binaries",
    ["process.env.PATH =", "process.env.PATH=", "process.env['PATH']", "process.env[\"PATH\"]",
      "process.env.LD_PRELOAD", "process.env['LD_PRELOAD']", "process.env[\"LD_PRELOAD\"]",
      "LD_PRELOAD="]⟩,
  ⟨.moduleLoaderPatch, .high,
    "Patches Node.js module loader (require hijacking) -- can intercept all module loads",
    ["Module._resolveFilename", "Module.prototype.require", "Module._load",
      "require('module')._resolveFilename", "require(\"module\")._resolveFilename",
      "_resolveFilename", "prototype.require ="]⟩,
  ⟨.dataExfiltration, .critical,
    "Hardcoded data-exfil domain detected (ngrok, requestbin, pipedream, webhook.site, etc.)",
    ["ngrok.io", "ngrok.app", "requestbin", "pipedream.net", "webhook.site", "burpcollaborator",
      "duckdns.org", "freemyip.com"]⟩,
  ⟨.dataExfiltration, .critical,
    "DNS exfiltration: data tunnelled through DNS queries to attacker domain",
    [".burpcollaborator.net", ".oastify.com", ".interact.sh", ".canarytokens.com"]⟩
]

end Oath.Analyze

/-! ## Passes -/

namespace Oath.Analyze
open Core

/-- What the visitor of the syntax tree reports. -/
inductive Visited
  | exfilCombo
  | eval
  | bufferFrom
  | functionConstructor
  | processEnv
deriving DecidableEq, Repr

def Visited.kind : Visited → FindingKind
  | exfilCombo => .dataExfiltration
  | eval => .dynamicExec
  | bufferFrom => .obfuscation
  | functionConstructor => .dynamicExec
  | processEnv => .envAccess

def Visited.risk : Visited → RiskLevel
  | exfilCombo => .critical
  | eval => .high
  | bufferFrom => .medium
  | functionConstructor => .high
  | processEnv => .info

def Visited.message : Visited → String
  | exfilCombo => "Sends environment variables over network (likely credential theft)"
  | eval => "Direct eval() -- dynamic code execution"
  | bufferFrom => "Buffer.from() with base64/hex (obfuscation pattern)"
  | functionConstructor => "Function.constructor() -- dynamic code execution"
  | processEnv => "Reads process.env"

structure SourceFacts where
  /-- How often a regular expression matches. -/
  findCount : String → List Char → ℕ
  /-- The share of hex escapes in the strings, in tenths of a percent, when there are more than 100
  bytes of strings and it is above 20 percent. -/
  hexDensity : List Char → Option ℕ
  /-- The mean length of the identifiers, in tenths, and their number, when there are more than 100
  and the mean is below 2. -/
  shortNames : List Char → Option (ℕ × ℕ)
  /-- What the visitor reports of a text under its path, with the lines, as it walks. -/
  visit : List Char → List Char → List (Visited × ℕ)

/-! ## Lines -/

def lineNumber (before : List Char) : ℕ := before.count '\n' + 1

/-- What stands in front of the first place where the text is found. -/
def before? (needle : List Char) : List Char → Option (List Char)
  | [] => if needle = [] then some [] else none
  | c :: rest => if needle <+: c :: rest then some [] else (before? needle rest).map (c :: ·)

def extractLine (text : List Char) (line : ℕ) : String :=
  let found := ((Transparency.lines (String.ofList text))[line - 1]?).getD ""
  String.ofList ((trim found).toList.take 120)

/-- How often the text is found, one time after the other; `skip` characters are used up. -/
def matchCount (needle : List Char) : ℕ → List Char → ℕ
  | _, [] => 0
  | skip + 1, _ :: rest => matchCount needle skip rest
  | 0, c :: rest =>
    if needle <+: c :: rest then 1 + matchCount needle (needle.length - 1) rest
    else matchCount needle 0 rest

/-- A number that is given in tenths, with one decimal. -/
def tenths (n : ℕ) : String := s!"{n / 10}.{n % 10}"

section Passes
variable (facts : SourceFacts) (text relative : List Char)

/-- A finding on the first line. -/
def onFirstLine (kind : FindingKind) (risk : RiskLevel) (message : String)
    (snippet : Option String) : Finding :=
  ⟨kind, risk, message, String.ofList relative, 1, snippet⟩

/-! ## Obfuscation -/

def minification : List Finding :=
  let lines := Transparency.lines (String.ofList text)
  let average := (lines.map String.utf8ByteSize).sum / lines.length
  if 50 < lines.length ∧ 500 < average then
    let vendor := containsStr relative "node_modules" || containsStr relative "vendor/"
    let description := if vendor then "Minified vendor bundle detected"
      else "Minified source code detected (not vendor)"
    [onFirstLine relative .obfuscation (if vendor then .info else .medium)
      s!"{description}: avg line length {average} chars across {lines.length} lines"
      (some (String.ofList ((lines.headD "").toList.take 120)))]
  else []

def hexEncoding : List Finding :=
  ((facts.hexDensity text).map fun density => onFirstLine relative .obfuscation .high
    s!"High hex encoding density: {tenths density}% of string content is \\\\xNN encoded"
    none).toList

def charCodes : List Finding :=
  let count := matchCount "String.fromCharCode".toList 0 text
  if !containsStr relative "test" && !containsStr relative "spec" && 25 < count then
    [onFirstLine relative .obfuscation .info
      s!"Builds {count} strings from char codes (informational)" none]
  else []

def shortVariableNames : List Finding :=
  ((facts.shortNames text).map fun (average, count) =>
    onFirstLine relative .obfuscation .medium
      (s!"Short variable names: avg identifier length {tenths average} chars " ++
        s!"across {count} identifiers") none).toList

def detectObfuscation : List Finding :=
  minification text relative ++ hexEncoding facts text relative ++ charCodes text relative ++
    shortVariableNames facts text relative

/-! ## Advanced obfuscation -/

def b64BufRe : String :=
  "Buffer\\.from\\(\\s*['\"]([A-Za-z0-9+/=]\x7b24,\x7d)['\"]\\s*,\\s*['\"]base64['\"]\\s*\\)"

def atobRe : String := "atob\\(\\s*['\"]([A-Za-z0-9+/=]\x7b24,\x7d)['\"]\\s*\\)"

def dynReqPatterns : List String :=
  ["require\\s*\\(\\s*\\[", "require\\s*\\('[^']*'\\s*\\+", "require\\s*\\(\"[^\"]*\"\\s*\\+"]

def evalCharcodeRe : String := "eval\\s*\\(\\s*String\\.fromCharCode\\s*\\("

def evalHexRe : String :=
  "eval\\s*\\(\\s*['\"](?:\\\\x[0-9a-fA-F]\x7b2\x7d)\x7b20,\x7d['\"]\\s*\\)"

def ethWalletRe : String := "\\b0x[0-9a-fA-F]\x7b40\x7d\\b"

def btcWalletRe : String := "\\b[13][a-km-zA-HJ-NP-Z1-9]\x7b25,34\x7d\\b"

def b64Count : ℕ := facts.findCount b64BufRe text + facts.findCount atobRe text

def dynReqCount : ℕ := (dynReqPatterns.map fun pattern => facts.findCount pattern text).sum

def hexExecCount : ℕ := facts.findCount evalCharcodeRe text + facts.findCount evalHexRe text

def walletCount : ℕ := facts.findCount ethWalletRe text + facts.findCount btcWalletRe text

def sensitiveEnv : Bool :=
  ["process.env.NPM_TOKEN", "process.env.AWS", "process.env.GITHUB_TOKEN", "process.env.GH_TOKEN",
    "process.env.SECRET", "process.env.PRIVATE", "process.env.TOKEN", "process.env.PASSWORD",
    "stringify(process.env", "...process.env", "keys(process.env", "entries(process.env",
    "assign(\x7b\x7d, process.env"].any (containsStr text)

def outboundSink : Bool :=
  ["require('http')", "require(\"http\")", "require('https')", "require(\"https\")", "fetch(",
    "axios", ".request(", "net.connect", "dns."].any (containsStr text)

def exfilCount : ℕ := if sensitiveEnv text && outboundSink text then 1 else 0

def decodeExec : List String :=
  ["eval(atob(", "eval(Buffer.from(", "eval(String.fromCharCode(", "Function(atob(",
    "Function(Buffer.from(", "Function(String.fromCharCode(", "require(atob(",
    "require(Buffer.from(", "require(String.fromCharCode("]

def decodeExecCount : ℕ :=
  let compact := text.filter fun c => !isWhitespace c
  decodeExec.countP (containsStr compact)

def base64Finding : Finding := onFirstLine relative .obfuscation .medium
  "Base64 payload detected: Buffer.from(..., 'base64') or atob() with long string" none

def dynamicRequireFinding : Finding := onFirstLine relative .obfuscation .low
  "Dynamic require with a computed/concatenated module name" none

def hexExecFinding : Finding := onFirstLine relative .obfuscation .critical
  "Hex string execution: eval(String.fromCharCode(...)) or eval() with hex-encoded string" none

def exfilFinding : Finding := onFirstLine relative .dataExfiltration .high
  ("Possible secret exfiltration: sensitive environment variables read alongside an outbound " ++
    "network call") none

def decodeExecFinding : Finding := onFirstLine relative .dynamicExec .critical
  ("Decoded payload executed: a base64/charcode decode feeds directly into " ++
    "eval/Function/require") none

def walletFinding : Finding := onFirstLine relative .cryptoMiner .medium
  "Cryptocurrency wallet address detected (Bitcoin/Ethereum pattern)" none

def detectAdvancedObfuscation : List Finding :=
  List.replicate (b64Count facts text) (base64Finding relative) ++
    List.replicate (dynReqCount facts text) (dynamicRequireFinding relative) ++
    List.replicate (hexExecCount facts text) (hexExecFinding relative) ++
    List.replicate (exfilCount text) (exfilFinding relative) ++
    List.replicate (decodeExecCount text) (decodeExecFinding relative) ++
    List.replicate (walletCount facts text) (walletFinding relative)

/-! ## The analyzer -/

/-- What a pattern reports: the first of its texts that is found. -/
def patternFinding? (pattern : Pattern) : Option Finding :=
  (pattern.strings.findSome? fun needle => before? needle.toList text).map fun before =>
    let line := lineNumber before
    ⟨pattern.kind, pattern.risk, pattern.description, String.ofList relative, line,
      some (extractLine text line)⟩

def stringScan : List Finding := patterns.filterMap (patternFinding? text relative)

def visitedFinding (visited : Visited × ℕ) : Finding :=
  ⟨visited.1.kind, visited.1.risk, visited.1.message, String.ofList relative, visited.2,
    some (extractLine text visited.2)⟩

def astScan : List Finding := (facts.visit text relative).map (visitedFinding text relative)

/-- A finding is not pushed when one of its kind and line is there. -/
def analyzer : List Finding :=
  KeyedLists.keepFirst (fun f : Finding => (f.kind, f.line))
    (stringScan text relative ++ astScan facts text relative)

end Passes

def fileAnalysis (facts : SourceFacts) (analyzeFile : List UInt8 → List Char → Behavior) :
    FileAnalysis where
  analyzeFile := analyzeFile
  detectObfuscation source relative := detectObfuscation facts (Utf8.lossy source) relative
  detectAdvancedObfuscation source relative :=
    detectAdvancedObfuscation facts (Utf8.lossy source) relative
  analyzer source relative := analyzer facts (Utf8.lossy source) relative

end Oath.Analyze
