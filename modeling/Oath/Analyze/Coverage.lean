import Oath.Analyze.BehaviorVisitor

/-! What the scan of a package makes of the verdicts on its files: one file whose verdict
blocks makes the package critical, whatever else is found. -/

namespace Oath.Analyze
open Contracts Unix

theorem rank_mergeVerdict (current next : Verdict × List String) :
    rank (mergeVerdict current next).1 = max (rank current.1) (rank next.1) := by
  unfold mergeVerdict
  dsimp only
  split_ifs with h
  · exact (max_eq_right h.le).symm
  · exact (max_eq_left (not_lt.mp h)).symm

theorem two_le_rank {v : Verdict} : 2 ≤ rank v ↔ v = .block := by
  cases v <;> decide

theorem overallRisk_eq_critical {v : Verdict} : overallRisk v = .critical ↔ v = .block := by
  cases v <;> decide

section Walk
variable (analysis : FileAnalysis) (fs : FileSystem) (packageDir : Location)

/-- The walk meets a source file whose verdict ranks this high. -/
def Ranked (rels : List (List Name)) (k : ℕ) : Prop :=
  ∃ rel ∈ rels, ∃ source, source? fs packageDir rel = some source ∧
    k ≤ rank (verdict (analysis.analyzeFile source (relativePath rel)) false).1

theorem ranked_cons (rel : List Name) (rels : List (List Name)) (k : ℕ) :
    Ranked analysis fs packageDir (rel :: rels) k ↔
      (∃ source, source? fs packageDir rel = some source ∧
        k ≤ rank (verdict (analysis.analyzeFile source (relativePath rel)) false).1) ∨
      Ranked analysis fs packageDir rels k := by
  unfold Ranked
  simp only [List.mem_cons, exists_eq_or_imp]

/-- The verdict of the walk ranks as high as the highest of its files. -/
theorem le_rank_foldl_scanFile (rels : List (List Name)) (s : ScanState) (k : ℕ) :
    k ≤ rank (rels.foldl (scanFile analysis fs packageDir) s).verdict.1 ↔
      k ≤ rank s.verdict.1 ∨ Ranked analysis fs packageDir rels k := by
  induction rels generalizing s with
  | nil => simp [Ranked]
  | cons rel rest ih =>
    have hstep : k ≤ rank (scanFile analysis fs packageDir s rel).verdict.1 ↔
        k ≤ rank s.verdict.1 ∨ ∃ source, source? fs packageDir rel = some source ∧
          k ≤ rank (verdict (analysis.analyzeFile source (relativePath rel)) false).1 := by
      unfold scanFile
      cases hsource : source? fs packageDir rel with
      | none => simp
      | some source =>
        dsimp only
        rw [rank_mergeVerdict, le_max_iff]
        simp
    rw [List.foldl_cons, ih, hstep, ranked_cons, or_assoc]

end Walk

section Report
variable {parseJson : List UInt8 → Except String Value} {analysis : FileAnalysis}
  {fs : FileSystem} {packageDir : Location} {name version : String} {report : AnalysisReport}

/-- The verdict on the install hooks ranks this high. -/
def HooksRanked (scripts : List (String × String)) (k : ℕ) : Prop :=
  k ≤ rank (verdict (scripts.foldl (fun b hook => scanInstallCommand hook.2 b) {})
    (!scripts.isEmpty)).1

theorem scan_rank (h : scan parseJson analysis fs packageDir name version = .ok report) :
    ∃ scripts v, readHooks parseJson fs packageDir = .ok scripts ∧
      report.overallRisk = overallRisk v ∧ ∀ k > 0, k ≤ rank v ↔
        Ranked analysis fs packageDir (fs.walkFiles packageDir) k ∨ HooksRanked scripts k := by
  obtain ⟨scripts, hscripts, h⟩ := Except.bind_eq_ok.mp h
  obtain rfl := Except.ok.inj h
  refine ⟨scripts, _, hscripts, rfl, ?_⟩
  intro k hk
  have hstart : ¬ k ≤ rank Verdict.info := not_le.mpr hk
  rw [rank_mergeVerdict, le_max_iff, le_rank_foldl_scanFile]
  simp only [hstart, false_or]
  exact Iff.rfl

theorem scan_critical (h : scan parseJson analysis fs packageDir name version = .ok report)
    {rel : List Name} (hrel : rel ∈ fs.walkFiles packageDir) {source : List UInt8}
    (hsource : source? fs packageDir rel = some source)
    (hblock : (verdict (analysis.analyzeFile source (relativePath rel)) false).1 = .block) :
    report.overallRisk = .critical := by
  obtain ⟨scripts, v, -, hrisk, hrank⟩ := scan_rank h
  have hranked : Ranked analysis fs packageDir (fs.walkFiles packageDir) 2 :=
    ⟨rel, hrel, source, hsource, two_le_rank.mpr hblock⟩
  have hv := two_le_rank.mp ((hrank 2 (by decide)).mpr (Or.inl hranked))
  rw [hrisk, overallRisk_eq_critical, hv]

end Report

/-! ## Decoded data that is executed -/

def isSink : Node → Bool
  | .identifier name => name ∈ ["eval", "Function", "require"]
  | _ => false

/-- A call of `atob`, `Buffer.from` or `String.fromCharCode`. -/
def isDecodeCall : Node → Bool
  | .call (.identifier name) _ _ => name = "atob"
  | .call (.staticMember (.identifier object) property) _ _ =>
    (object = "Buffer" ∧ property = "from") ∨ (object = "String" ∧ property = "fromCharCode")
  | _ => false

/-- A call or a `new` of a sink with a decoding call for an argument. -/
def Node.decodeSite : Node → Bool
  | .call callee _ arguments | .new callee _ arguments =>
    isSink callee && arguments.any isDecodeCall
  | _ => false

section File
variable (parse : List UInt8 → SourceType → Program) (source : List UInt8) (path : List Char)

def HasDecodeSite : Prop :=
  ∃ site, (parse source (inferSourceType path)).Occurs site ∧ site.decodeSite

def DetectsDecode : Prop :=
  ∃ site, (parse source (inferSourceType path)).Occurs site ∧ site.decodesIntoExec

/-- The file is flagged, and so is every package in which it is analysed. -/
structure Flagged : Prop where
  decodeIntoExec : (analyzeFile parse source path).decodeIntoExec
  block : ∀ hasInstallScript,
    (verdict (analyzeFile parse source path) hasInstallScript).1 = .block
  critical : ∀ parseJson analysis fs packageDir rel name version report,
    analysis.analyzeFile = analyzeFile parse → rel ∈ fs.walkFiles packageDir →
    source? fs packageDir rel = some source → relativePath rel = path →
    scan parseJson analysis fs packageDir name version = .ok report →
    report.overallRisk = .critical

theorem analyzeFile_decodeIntoExec :
    (analyzeFile parse source path).decodeIntoExec ↔ DetectsDecode parse source path := by
  have hvisit : ∀ program : Program, (visitProgram program {}).decodeIntoExec ↔
      ∃ site, program.Occurs site ∧ site.decodesIntoExec := by
    intro program
    rw [visitProgram, visitAll_decodeIntoExec, foldl_checkString_decodeIntoExec]
    constructor
    · rintro (hstart | ⟨statement, hstatement, site, hsite, hdecodes⟩)
      · cases hstart
      · exact ⟨site, ⟨statement, hstatement, hsite⟩, hdecodes⟩
    · rintro ⟨site, ⟨statement, hstatement, hsite⟩, hdecodes⟩
      exact Or.inr ⟨statement, hstatement, site, hsite, hdecodes⟩
  unfold analyzeFile DetectsDecode
  dsimp only
  split_ifs with hempty hminified
  · rw [List.isEmpty_iff] at hempty
    constructor
    · intro h
      cases h
    · rintro ⟨site, ⟨statement, hstatement, -⟩, -⟩
      rw [hempty] at hstatement
      cases hstatement
  · exact hvisit _
  · exact hvisit _

theorem verdict_of_decodeIntoExec {b : Behavior} (h : b.decodeIntoExec) (hasInstallScript : Bool) :
    (verdict b hasInstallScript).1 = .block := by
  have hreasons : (blockReasons b hasInstallScript).isEmpty = false := by
    simp [blockReasons, h]
  rw [verdict, hreasons]
  rfl

/-- A program with a decoding argument is flagged exactly when the visitor has a call to see
it in: not a `new`, not a `require`, and not a later argument. -/
theorem decodeSite_flagged_iff :
    (HasDecodeSite parse source path → Flagged parse source path) ↔
      (HasDecodeSite parse source path → DetectsDecode parse source path) := by
  have hflagged : Flagged parse source path ↔ DetectsDecode parse source path := by
    rw [← analyzeFile_decodeIntoExec]
    constructor
    · exact fun h => h.decodeIntoExec
    · intro h
      refine ⟨h, verdict_of_decodeIntoExec h, ?_⟩
      intro parseJson analysis fs packageDir rel name version report hanalysis hrel hsource hpath
        hscan
      apply scan_critical hscan hrel hsource
      rw [hanalysis, hpath]
      exact verdict_of_decodeIntoExec h false
  rw [hflagged]

end File

/-- Programs with a decoding argument in which the visitor sees nothing. -/
def missedPrograms : List (String × Program) :=
  let decoded := Node.call (.identifier "atob") [] [.stringLiteral "eA=="]
  [("new Function(atob('eA=='))",
      ⟨[], [.other [.new (.identifier "Function") [] [decoded]]]⟩),
    ("require(atob('eA=='))", ⟨[], [.other [.call (.identifier "require") [] [decoded]]]⟩),
    ("eval(null, atob('eA=='))",
      ⟨[], [.other [.call (.identifier "eval") [] [.other [], decoded]]]⟩)]

open Registry in
/-- The file has a decoding argument, and nothing is said of it. -/
def IsMissed (file : String × Program) : Prop :=
  HasDecodeSite (fun _ _ => file.2) (asBytes file.1) "index.js".toList ∧
    verdict (analyzeFile (fun _ _ => file.2) (asBytes file.1) "index.js".toList) false = (.info, [])

open Registry in
theorem decodeSite_missed : missedPrograms.Forall IsMissed := by
  have hsite : ∀ file ∈ missedPrograms, ∃ site ∈ file.2.body.flatMap Node.children,
      site.decodeSite := by
    decide
  have hverdict : ∀ file ∈ missedPrograms,
      verdict (analyzeFile (fun _ _ => file.2) (asBytes file.1) "index.js".toList) false =
        (.info, []) := by
    decide
  rw [List.forall_iff_forall_mem]
  intro file hfile
  obtain ⟨site, hmem, hdecodes⟩ := hsite file hfile
  obtain ⟨statement, hstatement, hchild⟩ := List.mem_flatMap.mp hmem
  exact ⟨⟨site, ⟨statement, hstatement, .inside hchild .here⟩, hdecodes⟩, hverdict file hfile⟩

/-! ## Which files count -/

/-- A source file of at most half a megabyte of text that is no declaration and no test by its
path, and that the walk reaches and reads, makes the package critical when it blocks. -/
theorem sources_covered {parseJson : List UInt8 → Except String Value} {analysis : FileAnalysis}
    {fs : FileSystem} {packageDir : Location} {name version : String} {rel : List Name}
    {source : List UInt8} (hwalked : rel ∈ fs.walkFiles packageDir)
    (hsource : extension ((packageDir ++ rel).getLastD []) ∈ sourceExtensions)
    (hcode : isDeclaration ((packageDir ++ rel).getLastD []) = false)
    (hruntime : isTestSource (relativePath rel) = false)
    (hread : fs.read packageDir rel = .ok source) (htext : Utf8.isValid source)
    (hsize : source.length ≤ maxSourceBytes)
    (hblock : (verdict (analysis.analyzeFile source (relativePath rel)) false).1 = .block) :
    ∀ report, scan parseJson analysis fs packageDir name version = .ok report →
      report.overallRisk = .critical := by
  intro report hscan
  apply scan_critical hscan hwalked _ hblock
  unfold source?
  simp only [hsource, not_true_eq_false, if_false, hcode, hruntime, hread, htext,
    Bool.false_eq_true, Bool.not_true, not_lt.mpr hsize]

namespace Demo
open Registry

def text : List UInt8 := asBytes "eval(atob('eA=='))"

def program : Program :=
  ⟨[], [.other [.call (.identifier "eval") [] [
    .call (.identifier "atob") [] [.stringLiteral "eA=="]]]]⟩

/-- What the analyses find in this text. -/
def analysis : FileAnalysis where
  analyzeFile := analyzeFile fun _ _ => program
  detectObfuscation _ _ := []
  detectAdvancedObfuscation _ relative := [{
    kind := .dynamicExec, risk := .critical, file := String.ofList relative, line := 1
    message := "Decoded payload executed: a base64/charcode decode feeds directly into " ++
      "eval/Function/require"
    snippet := none }]
  analyzer _ relative := [
    { kind := .dynamicExec, risk := .high, file := String.ofList relative, line := 1
      message := "Uses eval() for dynamic code execution"
      snippet := some "eval(atob('eA=='))" },
    { kind := .obfuscation, risk := .info, file := String.ofList relative, line := 1
      message := "Uses atob/btoa base64 encoding"
      snippet := some "eval(atob('eA=='))" }]

/-- A package of one file in a directory of its own. -/
def package (directory file : String) : FileSystem :=
  ((((⟨.empty⟩ : FileSystem).set [] (.directory newDirMode)).set [asBytes "p"]
    (.directory newDirMode)).set [asBytes "p", asBytes directory] (.directory newDirMode)).set
    [asBytes "p", asBytes directory, asBytes file] (.file newFileMode text)

def noJson (_ : List UInt8) : Except String Value := .error "expected value at line 1 column 1"

def riskOf (fs : FileSystem) : Option RiskLevel :=
  (scan noJson analysis fs [asBytes "p"] "p" "1.0.0").toOption.map AnalysisReport.overallRisk

end Demo

open Registry in
theorem sources_covered_lib :
    ∃ report, scan Demo.noJson Demo.analysis (Demo.package "lib" "index.js") [asBytes "p"] "p"
      "1.0.0" = .ok report ∧ report.overallRisk = .critical := by
  have hcovered := @sources_covered Demo.noJson Demo.analysis (Demo.package "lib" "index.js")
    [asBytes "p"] "p" "1.0.0" [asBytes "lib", asBytes "index.js"] Demo.text
    (by decide) (by decide) (by decide) (by decide)
    (by rfl) (by decide) (by decide) (by decide)
  have hok : (scan Demo.noJson Demo.analysis (Demo.package "lib" "index.js") [asBytes "p"] "p"
      "1.0.0").isOk := by
    decide
  cases hscan : scan Demo.noJson Demo.analysis (Demo.package "lib" "index.js") [asBytes "p"] "p"
      "1.0.0" with
  | error e =>
    rw [hscan] at hok
    cases hok
  | ok report => exact ⟨report, rfl, hcovered report hscan⟩

open Registry in
/-- The same text in a test directory blocks, and the package is reported as harmless. -/
theorem test_source_uncovered :
    [asBytes "test", asBytes "index.js"] ∈
        (Demo.package "test" "index.js").walkFiles [asBytes "p"] ∧
      (Demo.package "test" "index.js").fileBytes?
        [asBytes "p", asBytes "test", asBytes "index.js"] = some Demo.text ∧
      (verdict (Demo.analysis.analyzeFile Demo.text "test/index.js".toList) false).1 = .block ∧
      Demo.riskOf (Demo.package "test" "index.js") = some .info := by
  decide

end Oath.Analyze
