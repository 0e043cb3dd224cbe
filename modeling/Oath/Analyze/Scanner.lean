import Oath.Analyze.Report
import Oath.Library.FileSystem
import Oath.Library.Utf8

/-! The package scanner: install hooks of `package.json`, then a walk over the sources.
What is found inside one source file rests on a JavaScript parser and regular
expressions; it is a parameter, called on the same files with the same arguments. -/

namespace Oath.Analyze
open Contracts Unix

/-- The analyses of one source text under its package-relative path. -/
structure FileAnalysis where
  analyzeFile : List UInt8 → List Char → Behavior
  detectObfuscation : List UInt8 → List Char → List Finding
  detectAdvancedObfuscation : List UInt8 → List Char → List Finding
  analyzer : List UInt8 → List Char → List Finding

/-! ## Which files are analysed -/

/-- The text after the last dot of a name that does not start with its only dot. -/
def extension (name : Name) : Name :=
  let after := (name.reverse.takeWhile (· ≠ dot)).reverse
  if name.length ≤ after.length + 1 then [] else after

open Registry in
def sourceExtensions : List Name := ["js", "mjs", "cjs", "ts", "tsx"].map asBytes

open Registry in
def isDeclaration (name : Name) : Bool :=
  Utf8.isValid name &&
    ([".d.ts", ".d.cts", ".d.mts"].map asBytes).any fun ending => ending <:+ name

def relativePath (rel : List Name) : List Char :=
  (Utf8.lossy ([slash].intercalate rel)).map fun c => if c = '\\' then '/' else c

def splitChars (sep : Char) : List Char → List (List Char)
  | [] => [[]]
  | c :: cs =>
    if c = sep then [] :: splitChars sep cs
    else match splitChars sep cs with
      | [] => [[c]]
      | piece :: rest => (c :: piece) :: rest

def testDirectories : List String :=
  ["test", "tests", "__tests__", "spec", "specs", "fixtures", "__fixtures__"]

def isTestSource (relative : List Char) : Bool :=
  let normalized := (relative.map fun c => if c = '\\' then '/' else c).map Char.toLower
  let fileName := (splitChars '/' normalized).getLastD normalized
  (splitChars '/' normalized).any (fun component => testDirectories.any (·.toList = component)) ||
    containsStr fileName ".test." || containsStr fileName ".spec." ||
    "test-".toList.isPrefixOf fileName || "spec-".toList.isPrefixOf fileName

def maxSourceBytes : ℕ := 500_000

def newline : UInt8 := 10

/-- `str::lines` gives no line for what follows a final newline. -/
def lineCount (source : List UInt8) : ℕ :=
  source.count newline + if source.getLast? = none ∨ source.getLast? = some newline then 0 else 1

/-! ## Findings and capabilities -/

def rank : Verdict → ℕ
  | .info => 0
  | .warn => 1
  | .block => 2

def mergeVerdict (current : Verdict × List String) (next : Verdict × List String) :
    Verdict × List String :=
  (if rank current.1 < rank next.1 then next.1 else current.1,
    next.2.foldl (fun reasons reason => if reason ∈ reasons then reasons else reasons ++ [reason])
      current.2)

/-- A finding goes when it repeats the last one kept. -/
def dedupFindings : Option Finding → List Finding → List Finding
  | _, [] => []
  | none, f :: fs => f :: dedupFindings (some f) fs
  | some last, f :: fs =>
    if f.kind = last.kind ∧ f.file = last.file ∧ f.line = last.line then
      dedupFindings (some last) fs
    else f :: dedupFindings (some f) fs

def addCapability (c : Capabilities) (f : Finding) : Capabilities :=
  match f.kind with
  | .network | .dataExfiltration => { c with network := true }
  | .filesystem => { c with filesystem := true }
  | .envAccess => { c with envAccess := true }
  | .subprocess => { c with subprocess := true }
  | .dynamicExec => { c with dynamicExec := true }
  | .installScript => { c with hasInstallScripts := true }
  | _ => c

/-! ## The scan -/

structure ScanState where
  findings : List Finding
  filesScanned : ℕ := 0
  linesScanned : ℕ := 0
  behavior : Behavior := {}
  verdict : Verdict × List String := (.info, [])

def hooks : List String := ["preinstall", "install", "postinstall"]

/-- The hooks a parsed `package.json` declares, with their commands. -/
def installScripts (manifest : Value) : List (String × String) :=
  hooks.filterMap fun hook =>
    (((manifest.get? "scripts").bind (Value.get? hook)).bind Value.asStr?).map (hook, ·)

def hookFinding (hook : String × String) : Finding where
  kind := .installScript
  risk := .medium
  message := hook.1 ++ " script: " ++ hook.2
  file := "package.json"
  line := 0
  snippet := some (String.ofList (hook.2.toList.take 120))

section Scan
variable (parseJson : List UInt8 → Except String Value) (analysis : FileAnalysis)
  (fs : FileSystem) (packageDir : Location)

open Registry in
def packageJson : Name := asBytes "package.json"

/-- The hooks the scanner finds. A `package.json` it cannot reach counts as absent; one it
can reach but not read as text is an error. -/
def readHooks : Except String (List (String × String)) :=
  if fs.exists? packageDir [packageJson] then
    match fs.read packageDir [packageJson] with
    | .error e => .error e.text
    | .ok content =>
      if Utf8.isValid content then
        match parseJson content with
        | .ok manifest => .ok (installScripts manifest)
        | .error _ => .ok []
      else .error "stream did not contain valid UTF-8"
  else .ok []

/-- The text of a file that is analysed. -/
def source? (rel : List Name) : Option (List UInt8) :=
  let name := (packageDir ++ rel).getLastD []
  if extension name ∉ sourceExtensions then none
  else if isDeclaration name then none
  else if isTestSource (relativePath rel) then none
  else match fs.read packageDir rel with
    | .error _ => none
    | .ok source =>
      if !Utf8.isValid source then none
      else if maxSourceBytes < source.length then none
      else some source

def scanFile (s : ScanState) (rel : List Name) : ScanState :=
  match source? fs packageDir rel with
  | none => s
  | some source =>
    let relative := relativePath rel
    let behavior := analysis.analyzeFile source relative
    { findings := s.findings ++ analysis.detectObfuscation source relative ++
        analysis.detectAdvancedObfuscation source relative ++ analysis.analyzer source relative
      filesScanned := s.filesScanned + 1
      linesScanned := s.linesScanned + lineCount source
      behavior := s.behavior.merge behavior
      verdict := mergeVerdict s.verdict (verdict behavior false) }

def overallRisk : Verdict → RiskLevel
  | .block => .critical
  | .warn => .high
  | .info => .info

def capabilitiesOf (findings : List Finding) (b : Behavior) (hasInstallScript : Bool) :
    Capabilities :=
  let c := findings.foldl addCapability {}
  { c with
    network := c.network || b.net
    filesystem := c.filesystem || b.fs
    subprocess := c.subprocess || b.subprocess
    envAccess := c.envAccess || b.envRead
    dynamicExec := c.dynamicExec || b.codeExec
    hasInstallScripts := c.hasInstallScripts || hasInstallScript }

def scan (packageName packageVersion : String) : Except String AnalysisReport := do
  let scripts ← readHooks parseJson fs packageDir
  let hasInstallScript := !scripts.isEmpty
  let installBehavior := scripts.foldl (fun b hook => scanInstallCommand hook.2 b) {}
  let walked := (fs.walkFiles packageDir).foldl (scanFile analysis fs packageDir)
    { findings := scripts.map hookFinding }
  let findings := dedupFindings none walked.findings
  let installVerdict := verdict installBehavior hasInstallScript
  let packageVerdict := mergeVerdict walked.verdict installVerdict
  .ok {
    packageName
    packageVersion
    overallRisk := overallRisk packageVerdict.1
    findings
    filesScanned := walked.filesScanned
    linesScanned := walked.linesScanned
    capabilities := capabilitiesOf findings walked.behavior hasInstallScript
    verdictReasons := packageVerdict.2 }

end Scan

/-! ## What the report says -/

theorem addCapability_hasInstallScripts (c : Capabilities) (f : Finding) :
    (addCapability c f).hasInstallScripts = (c.hasInstallScripts || f.kind == .installScript) := by
  unfold addCapability
  cases h : f.kind <;> simp

theorem addCapability_nativeAddon (c : Capabilities) (f : Finding) :
    (addCapability c f).nativeAddon = c.nativeAddon := by
  unfold addCapability
  cases h : f.kind <;> simp

theorem foldl_hasInstallScripts (findings : List Finding) (c : Capabilities) :
    (findings.foldl addCapability c).hasInstallScripts ↔
      c.hasInstallScripts ∨ ∃ f ∈ findings, f.kind = .installScript := by
  induction findings generalizing c with
  | nil => simp
  | cons f fs ih =>
    rw [List.foldl_cons, ih, addCapability_hasInstallScripts]
    simp [or_assoc]

/-- No finding of any kind counts as a native addon. -/
theorem foldl_nativeAddon (findings : List Finding) (c : Capabilities) :
    (findings.foldl addCapability c).nativeAddon = c.nativeAddon := by
  induction findings generalizing c with
  | nil => rfl
  | cons f fs ih => rw [List.foldl_cons, ih, addCapability_nativeAddon]

theorem mem_of_mem_dedup {last : Option Finding} {findings : List Finding} {f : Finding}
    (h : f ∈ dedupFindings last findings) : f ∈ findings := by
  induction findings generalizing last with
  | nil => simp [dedupFindings] at h
  | cons g gs ih =>
    unfold dedupFindings at h
    split at h
    · contradiction
    · next heq =>
      obtain ⟨rfl, rfl⟩ := List.cons.inj heq
      rcases List.mem_cons.mp h with rfl | h
      · exact List.mem_cons_self
      · exact List.mem_cons_of_mem _ (ih h)
    · next heq =>
      obtain ⟨rfl, rfl⟩ := List.cons.inj heq
      split at h
      · exact List.mem_cons_of_mem _ (ih h)
      · rcases List.mem_cons.mp h with rfl | h
        · exact List.mem_cons_self
        · exact List.mem_cons_of_mem _ (ih h)

/-- A finding only goes when one of its kind has been kept. -/
theorem kind_mem_dedup {last : Option Finding} {findings : List Finding} {f : Finding}
    (h : f ∈ findings) :
    (∃ g ∈ dedupFindings last findings, g.kind = f.kind) ∨
      ∃ g, last = some g ∧ g.kind = f.kind := by
  induction findings generalizing last with
  | nil => contradiction
  | cons g gs ih =>
    have hkept : ∀ {tail : List Finding}, tail = dedupFindings (some g) gs →
        ∃ g' ∈ g :: tail, g'.kind = f.kind := by
      rintro tail rfl
      rcases List.mem_cons.mp h with rfl | hmem
      · exact ⟨f, List.mem_cons_self, rfl⟩
      · rcases @ih (some g) hmem with ⟨g', hg', hkind⟩ | ⟨g', hg', hkind⟩
        · exact ⟨g', List.mem_cons_of_mem _ hg', hkind⟩
        · obtain rfl := Option.some.inj hg'
          exact ⟨g, List.mem_cons_self, hkind⟩
    cases last with
    | none => exact Or.inl (hkept rfl)
    | some l =>
      rw [dedupFindings]
      split
      · next hsame =>
        rcases List.mem_cons.mp h with rfl | hmem
        · exact Or.inr ⟨l, rfl, hsame.1.symm⟩
        · exact ih hmem
      · exact Or.inl (hkept rfl)

theorem exists_kind_dedup (findings : List Finding) (kind : FindingKind) :
    (∃ f ∈ dedupFindings none findings, f.kind = kind) ↔ ∃ f ∈ findings, f.kind = kind := by
  constructor
  · rintro ⟨f, hf, hkind⟩
    exact ⟨f, mem_of_mem_dedup hf, hkind⟩
  · rintro ⟨f, hf, rfl⟩
    have hkept := @kind_mem_dedup none findings f hf
    rcases hkept with h | ⟨g, hg, -⟩
    · exact h
    · cases hg

section Report
variable (analysis : FileAnalysis) (fs : FileSystem) (packageDir : Location)

/-- The findings of the analyses of one source text. -/
def fileFindings (source : List UInt8) (relative : List Char) : List Finding :=
  analysis.detectObfuscation source relative ++
    analysis.detectAdvancedObfuscation source relative ++ analysis.analyzer source relative

/-- The walk meets a source file in which some analysis finds this kind of thing. -/
def SourceFinding (kind : FindingKind) : Prop :=
  ∃ rel ∈ fs.walkFiles packageDir, ∃ source, source? fs packageDir rel = some source ∧
    ∃ f ∈ fileFindings analysis source (relativePath rel), f.kind = kind

theorem scanFile_findings (s : ScanState) (rel : List Name) :
    (scanFile analysis fs packageDir s rel).findings = s.findings ++
      ((source? fs packageDir rel).map fun source =>
        fileFindings analysis source (relativePath rel)).getD [] := by
  unfold scanFile fileFindings
  split <;> next h => simp [h, List.append_assoc]

theorem foldl_scanFile_findings (rels : List (List Name)) (s : ScanState) (f : Finding) :
    f ∈ (rels.foldl (scanFile analysis fs packageDir) s).findings ↔
      f ∈ s.findings ∨ ∃ rel ∈ rels, ∃ source, source? fs packageDir rel = some source ∧
        f ∈ fileFindings analysis source (relativePath rel) := by
  induction rels generalizing s with
  | nil => simp
  | cons rel rels ih =>
    rw [List.foldl_cons, ih, scanFile_findings]
    cases hs : source? fs packageDir rel <;> simp [hs, or_assoc]

end Report

theorem scan_ok {parseJson : List UInt8 → Except String Value} {analysis : FileAnalysis}
    {fs : FileSystem} {packageDir : Location} {name version : String} {report : AnalysisReport}
    (h : scan parseJson analysis fs packageDir name version = .ok report) :
    ∃ scripts, readHooks parseJson fs packageDir = .ok scripts ∧
      report.capabilities.nativeAddon = false ∧
      (report.overallRisk = .info ∨ report.overallRisk = .high ∨
        report.overallRisk = .critical) ∧
      (report.capabilities.hasInstallScripts ↔
        scripts ≠ [] ∨ SourceFinding analysis fs packageDir .installScript) := by
  obtain ⟨scripts, hscripts, h⟩ := Except.bind_eq_ok.mp h
  obtain rfl := Except.ok.inj h
  refine ⟨scripts, hscripts, ?_, ?_, ?_⟩
  · exact foldl_nativeAddon _ _
  · show overallRisk _ = _ ∨ overallRisk _ = _ ∨ overallRisk _ = _
    unfold overallRisk
    split <;> simp
  · show (capabilitiesOf _ _ _).hasInstallScripts ↔ _
    rw [capabilitiesOf, Bool.or_eq_true, foldl_hasInstallScripts, exists_kind_dedup]
    simp only [foldl_scanFile_findings, SourceFinding]
    constructor
    · rintro ((hfalse | ⟨f, hf | ⟨rel, hrel, source, hsource, hf⟩, hkind⟩) | hscript)
      · simp at hfalse
      · obtain ⟨hook, hhook, rfl⟩ := List.mem_map.mp hf
        exact Or.inl (List.ne_nil_of_mem hhook)
      · exact Or.inr ⟨rel, hrel, source, hsource, f, hf, hkind⟩
      · exact Or.inl (by simpa using hscript)
    · rintro (hne | ⟨rel, hrel, source, hsource, f, hf, hkind⟩)
      · exact Or.inr (by simpa using hne)
      · exact Or.inl (Or.inr ⟨f, Or.inr ⟨rel, hrel, source, hsource, hf⟩, hkind⟩)

/-! ## Reasons -/

/-- What is more than information has a reason. -/
def Reasoned (v : Verdict × List String) : Prop := v.1 ≠ .info → v.2 ≠ []

theorem verdict_reasoned (b : Behavior) (hasInstallScript : Bool) :
    Reasoned (verdict b hasInstallScript) := by
  unfold Reasoned verdict
  split_ifs with hblock hwarn
  · exact fun _ => by simpa using hblock
  · exact fun _ => by simpa using hwarn
  · exact fun h => absurd rfl h

theorem foldl_reasons (added reasons : List String) (h : reasons ≠ [] ∨ added ≠ []) :
    added.foldl (fun reasons reason => if reason ∈ reasons then reasons else reasons ++ [reason])
      reasons ≠ [] := by
  induction added generalizing reasons with
  | nil => simpa using h
  | cons reason rest ih =>
    rw [List.foldl_cons]
    apply ih
    split_ifs with hmem
    · exact Or.inl (List.ne_nil_of_mem hmem)
    · simp

theorem mergeVerdict_reasoned {current next : Verdict × List String} (hcurrent : Reasoned current)
    (hnext : Reasoned next) : Reasoned (mergeVerdict current next) := by
  intro h
  apply foldl_reasons
  unfold mergeVerdict at h
  split_ifs at h
  · exact Or.inr (hnext h)
  · exact Or.inl (hcurrent h)

theorem foldl_scanFile_reasoned (analysis : FileAnalysis) (fs : FileSystem)
    (packageDir : Location) (rels : List (List Name)) {s : ScanState} (h : Reasoned s.verdict) :
    Reasoned (rels.foldl (scanFile analysis fs packageDir) s).verdict := by
  induction rels generalizing s with
  | nil => exact h
  | cons rel rest ih =>
    rw [List.foldl_cons]
    apply ih
    unfold scanFile
    split
    · exact h
    · exact mergeVerdict_reasoned h (verdict_reasoned _ _)

/-- A report whose risk is above information says why. -/
theorem scan_reasons {parseJson : List UInt8 → Except String Value} {analysis : FileAnalysis}
    {fs : FileSystem} {packageDir : Location} {name version : String} {report : AnalysisReport}
    (h : scan parseJson analysis fs packageDir name version = .ok report)
    (hrisk : report.overallRisk ≠ .info) : report.verdictReasons ≠ [] := by
  obtain ⟨scripts, -, hreport⟩ := Except.bind_eq_ok.mp h
  obtain rfl := Except.ok.inj hreport
  refine mergeVerdict_reasoned (foldl_scanFile_reasoned analysis fs packageDir _ ?_)
    (verdict_reasoned _ _) ?_
  · exact fun hinfo => absurd rfl hinfo
  · intro hinfo
    exact hrisk (by dsimp only; rw [hinfo, overallRisk])

end Oath.Analyze
