import Oath.Analyze.Passes
import Oath.Analyze.ScanAgreement

/-! What becomes of the findings that have one kind, file and line. The scanner compares neighbours
only, so that which ones it keeps depends on the order of the passes. -/

namespace Oath.Analyze
open Contracts Unix KeyedLists

def findingKey (f : Finding) : FindingKind × String × ℕ := (f.kind, f.file, f.line)

/-- All that the passes report on a text, also what the analyzer does not push again. -/
def fileReports (facts : SourceFacts) (text relative : List Char) : List Finding :=
  detectObfuscation facts text relative ++ detectAdvancedObfuscation facts text relative ++
    (stringScan text relative ++ astScan facts text relative)

section Tree
variable (facts : SourceFacts) (analyzeFile : List UInt8 → List Char → Behavior)
  (fs : FileSystem) (packageDir : Location) (order : List (List Name))

/-- The reports of all files, in the order of the walk. -/
def reports : List Finding := order.flatMap fun rel =>
  ((source? fs packageDir rel).map fun source =>
    fileReports facts (Utf8.lossy source) (relativePath rel)).getD []

/-- The reports without those that the analyzer does not push again. -/
def collected : List Finding :=
  order.flatMap (findingsAt (fileAnalysis facts analyzeFile) fs packageDir)

end Tree

/-- Every hook is kept, and of everything else that was reported one finding of each key, with the
highest risk that was reported for the key. -/
structure Deduplicated (hooks reports findings : List Finding) : Prop where
  hooks (hook : Finding) : hook ∈ hooks → hook ∈ findings
  one (f : Finding) : f ∈ reports → ∃ g, findings.filter (fun h => findingKey h = findingKey f) =
    [g] ∧ g ∈ reports ∧
      ∀ h ∈ reports, findingKey h = findingKey f → h.risk.severity ≤ g.risk.severity

/-- There are no two hooks; what has one key stands in one place; and nothing that was reported for
a key is above what was reported first. -/
structure InOrder (scripts : List (String × String)) (reports collected : List Finding) : Prop where
  hooks : scripts.length ≤ 1
  together (f : Finding) : f ∈ reports → Together findingKey (findingKey f) collected
  first (f first : Finding) : reports.find? (fun h => findingKey h = findingKey f) = some first →
    ∀ h ∈ reports, findingKey h = findingKey f → h.risk.severity ≤ first.risk.severity

/-! ## Keys -/

theorem dedupFindings_eq (last : Option Finding) (findings : List Finding) :
    dedupFindings last findings = dropRepeats findingKey (last.map findingKey) findings := by
  induction findings generalizing last with
  | nil => cases last <;> rfl
  | cons f findings ih =>
    cases last with
    | none =>
      rw [dedupFindings, ih, dropRepeats, if_neg fun h => by cases h]
      rfl
    | some last =>
      have hsame : (f.kind = last.kind ∧ f.file = last.file ∧ f.line = last.line) ↔
          some (findingKey last) = some (findingKey f) := by
        rw [Option.some_inj]
        unfold findingKey
        rw [Prod.mk_inj, Prod.mk_inj]
        exact and_congr eq_comm (and_congr eq_comm eq_comm)
      rw [dedupFindings, dropRepeats, ih, ih]
      exact if_congr hsame rfl rfl

section Files
variable {facts : SourceFacts} {analyzeFile : List UInt8 → List Char → Behavior}
  {fs : FileSystem} {packageDir : Location} {order : List (List Name)} {text relative : List Char}
  {f : Finding}

/-- What stands on the first line of the text. -/
def OnFirstLine (relative : List Char) (f : Finding) : Prop :=
  f.file = String.ofList relative ∧ f.line = 1

theorem onFirstLine_detectObfuscation (h : f ∈ detectObfuscation facts text relative) :
    OnFirstLine relative f := by
  have hfirst (kind : FindingKind) (risk : RiskLevel) (message : String)
      (snippet : Option String) :
      OnFirstLine relative (onFirstLine relative kind risk message snippet) := ⟨rfl, rfl⟩
  unfold detectObfuscation at h
  rcases List.mem_append.mp h with h | hnames
  · rcases List.mem_append.mp h with h | hcodes
    · rcases List.mem_append.mp h with hmini | hhex
      · unfold minification at hmini
        dsimp only at hmini
        split_ifs at hmini
        · rw [List.mem_singleton.mp hmini]
          exact hfirst _ _ _ _
        · rw [List.mem_singleton.mp hmini]
          exact hfirst _ _ _ _
        · exact absurd hmini List.not_mem_nil
      · obtain ⟨density, -, rfl⟩ := Option.map_eq_some_iff.mp (Option.mem_toList.mp hhex)
        exact hfirst _ _ _ _
    · unfold charCodes at hcodes
      dsimp only at hcodes
      split_ifs at hcodes
      · rw [List.mem_singleton.mp hcodes]
        exact hfirst _ _ _ _
      · exact absurd hcodes List.not_mem_nil
  · obtain ⟨names, -, rfl⟩ := Option.map_eq_some_iff.mp (Option.mem_toList.mp hnames)
    exact hfirst _ _ _ _

theorem onFirstLine_detectAdvanced (h : f ∈ detectAdvancedObfuscation facts text relative) :
    OnFirstLine relative f := by
  have hcopy {n : ℕ} {g : Finding} (hg : OnFirstLine relative g) (hmem : f ∈ List.replicate n g) :
      OnFirstLine relative f := List.eq_of_mem_replicate hmem ▸ hg
  unfold detectAdvancedObfuscation at h
  simp only [List.mem_append] at h
  rcases h with ((((h | h) | h) | h) | h) | h
  · exact hcopy ⟨rfl, rfl⟩ h
  · exact hcopy ⟨rfl, rfl⟩ h
  · exact hcopy ⟨rfl, rfl⟩ h
  · exact hcopy ⟨rfl, rfl⟩ h
  · exact hcopy ⟨rfl, rfl⟩ h
  · exact hcopy ⟨rfl, rfl⟩ h

/-- The key of all hooks. -/
def hookKey : FindingKind × String × ℕ := (.installScript, "package.json", 0)

/-- The analyzer reports under the path of the text, and nothing as a hook. -/
theorem mem_analyzerReports (h : f ∈ stringScan text relative ++ astScan facts text relative) :
    f.file = String.ofList relative ∧ findingKey f ≠ hookKey := by
  rcases List.mem_append.mp h with hscan | hvisit
  · obtain ⟨pattern, -, hpattern⟩ := List.mem_filterMap.mp hscan
    obtain ⟨before, -, rfl⟩ := Option.map_eq_some_iff.mp hpattern
    refine ⟨rfl, fun heq => ?_⟩
    have hline : lineNumber before = 0 := congrArg (fun key => key.2.2) heq
    exact absurd hline (Nat.succ_ne_zero _)
  · obtain ⟨⟨visited, line⟩, -, rfl⟩ := List.mem_map.mp hvisit
    refine ⟨rfl, fun heq => ?_⟩
    have hkind : visited.kind = .installScript := congrArg Prod.fst heq
    cases visited <;> cases hkind

theorem mem_fileReports (h : f ∈ fileReports facts text relative) :
    f.file = String.ofList relative ∧ findingKey f ≠ hookKey := by
  have hfirst (hf : OnFirstLine relative f) :
      f.file = String.ofList relative ∧ findingKey f ≠ hookKey := by
    refine ⟨hf.1, fun heq => ?_⟩
    have hline : f.line = 0 := congrArg (fun key => key.2.2) heq
    exact absurd (hf.2.symm.trans hline) (by decide)
  rcases List.mem_append.mp h with h | hanalyzer
  · rcases List.mem_append.mp h with hobfuscation | hadvanced
    · exact hfirst (onFirstLine_detectObfuscation hobfuscation)
    · exact hfirst (onFirstLine_detectAdvanced hadvanced)
  · exact mem_analyzerReports hanalyzer

/-- In one text the kind and the line are as good as the whole key. -/
theorem analyzer_eq : analyzer facts text relative =
    keepFirst findingKey (stringScan text relative ++ astScan facts text relative) := by
  refine keepFirst_congr fun a ha b hb => ?_
  have hfile : a.file = b.file :=
    (mem_analyzerReports ha).1.trans (mem_analyzerReports hb).1.symm
  unfold findingKey
  rw [Prod.mk_inj, Prod.mk_inj, Prod.mk_inj]
  exact ⟨fun ⟨hkind, hline⟩ => ⟨hkind, hfile, hline⟩, fun ⟨hkind, _, hline⟩ => ⟨hkind, hline⟩⟩

theorem fileFindings_eq (source : List UInt8) :
    fileFindings (fileAnalysis facts analyzeFile) source relative =
      detectObfuscation facts (Utf8.lossy source) relative ++
        detectAdvancedObfuscation facts (Utf8.lossy source) relative ++
        keepFirst findingKey (stringScan (Utf8.lossy source) relative ++
          astScan facts (Utf8.lossy source) relative) := by
  have hanalyzer := @analyzer_eq facts (Utf8.lossy source) relative
  unfold fileFindings fileAnalysis
  dsimp only
  rw [hanalyzer]

theorem find?_fileFindings (source : List UInt8) (key : FindingKind × String × ℕ) :
    (fileFindings (fileAnalysis facts analyzeFile) source relative).find?
        (fun f => findingKey f = key) =
      (fileReports facts (Utf8.lossy source) relative).find? fun f => findingKey f = key := by
  rw [fileFindings_eq]
  exact find?_append_keepFirst _

theorem mem_fileReports_of_mem {source : List UInt8}
    (h : f ∈ fileFindings (fileAnalysis facts analyzeFile) source relative) :
    f ∈ fileReports facts (Utf8.lossy source) relative := by
  rw [fileFindings_eq] at h
  unfold fileReports
  rcases List.mem_append.mp h with hfront | hback
  · exact List.mem_append_left _ hfront
  · exact List.mem_append_right _ (mem_of_mem_keepFirst hback)

variable (facts analyzeFile fs packageDir) in
/-- What is reported first for a key is collected first. -/
theorem find?_collected (order : List (List Name)) (key : FindingKind × String × ℕ) :
    (collected facts analyzeFile fs packageDir order).find? (fun f => findingKey f = key) =
      (reports facts fs packageDir order).find? fun f => findingKey f = key := by
  unfold collected reports
  rw [List.find?_flatMap, List.find?_flatMap]
  refine congrArg order.findSome? (funext fun rel => ?_)
  unfold findingsAt
  cases source? fs packageDir rel with
  | none => rw [Option.map_none, Option.map_none]
  | some source =>
    rw [Option.map_some, Option.map_some, Option.getD_some, Option.getD_some]
    exact find?_fileFindings source key

theorem mem_reports (h : f ∈ reports facts fs packageDir order) : findingKey f ≠ hookKey := by
  obtain ⟨rel, -, hrel⟩ := List.mem_flatMap.mp h
  cases hsource : source? fs packageDir rel with
  | none =>
    rw [hsource] at hrel
    exact absurd hrel List.not_mem_nil
  | some source =>
    rw [hsource] at hrel
    exact (mem_fileReports hrel).2

theorem mem_reports_of_collected (h : f ∈ collected facts analyzeFile fs packageDir order) :
    f ∈ reports facts fs packageDir order := by
  obtain ⟨rel, hmem, hrel⟩ := List.mem_flatMap.mp h
  refine List.mem_flatMap.mpr ⟨rel, hmem, ?_⟩
  unfold findingsAt at hrel
  cases hsource : source? fs packageDir rel with
  | none =>
    rw [hsource, Option.map_none] at hrel
    exact absurd hrel List.not_mem_nil
  | some source =>
    rw [hsource, Option.map_some, Option.getD_some] at hrel
    rw [Option.map_some, Option.getD_some]
    exact mem_fileReports_of_mem hrel

end Files

/-! ## Hooks -/

theorem readHooks_sublist {parseJson : List UInt8 → Except String Value} {fs : FileSystem}
    {packageDir : Location} {scripts : List (String × String)}
    (h : readHooks parseJson fs packageDir = .ok scripts) :
    (scripts.map Prod.fst).Sublist hooks := by
  have hscripts (manifest : Value) : ((installScripts manifest).map Prod.fst).Sublist hooks := by
    have hdeclared (names : List String) : ((names.filterMap fun hook =>
        (((manifest.get? "scripts").bind (Value.get? hook)).bind Value.asStr?).map
          (hook, ·)).map Prod.fst).Sublist names := by
      induction names with
      | nil => exact List.Sublist.refl []
      | cons name names ih =>
        rw [List.filterMap_cons]
        cases ((manifest.get? "scripts").bind (Value.get? name)).bind Value.asStr? with
        | none => exact ih.cons name
        | some command => exact ih.cons_cons name
    exact hdeclared hooks
  unfold readHooks at h
  split_ifs at h
  · split at h
    · cases h
    · split_ifs at h
      split at h
      · obtain rfl := Except.ok.inj h
        exact hscripts _
      · obtain rfl := Except.ok.inj h
        exact List.nil_sublist hooks
  · obtain rfl := Except.ok.inj h
    exact List.nil_sublist hooks

/-- The name of a hook can be told from what is reported. -/
theorem hookFinding_ne {hook other : String × String} (hhook : hook.1 ∈ hooks)
    (hother : other.1 ∈ hooks) (hne : hook.1 ≠ other.1) : hookFinding hook ≠ hookFinding other := by
  have hlong : ∀ name ∈ hooks, 2 ≤ name.toList.length := by decide
  have hfront : ∀ name ∈ hooks, ∀ name' ∈ hooks,
      name.toList.take 2 = name'.toList.take 2 → name = name' := by
    decide
  have hmessage (hook : String × String) (hhook : hook.1 ∈ hooks) :
      (hookFinding hook).message.toList.take 2 = hook.1.toList.take 2 := by
    have happend : (hookFinding hook).message.toList =
        hook.1.toList ++ (" script: ".toList ++ hook.2.toList) := by
      unfold hookFinding
      rw [String.toList_append, String.toList_append, List.append_assoc]
    rw [happend, List.take_append_of_le_length (hlong hook.1 hhook)]
  intro heq
  refine hne (hfront hook.1 hhook other.1 hother ?_)
  rw [← hmessage hook hhook, ← hmessage other hother, heq]

/-- Of two hooks and more only the first is kept. -/
theorem hooks_kept {scripts : List (String × String)} {rest : List Finding}
    (hnames : (scripts.map Prod.fst).Sublist hooks) (hrest : ∀ f ∈ rest, findingKey f ≠ hookKey) :
    (∀ hook ∈ scripts.map hookFinding,
      hook ∈ dedupFindings none (scripts.map hookFinding ++ rest)) ↔ scripts.length ≤ 1 := by
  cases scripts with
  | nil =>
    exact iff_of_true (fun hook hmem => absurd hmem List.not_mem_nil) (Nat.zero_le 1)
  | cons first scripts =>
    have hrun : ∀ f ∈ scripts.map hookFinding, findingKey f = findingKey (hookFinding first) := by
      intro f hf
      obtain ⟨hook, -, rfl⟩ := List.mem_map.mp hf
      rfl
    have hkept : dedupFindings none ((first :: scripts).map hookFinding ++ rest) =
        hookFinding first :: dropRepeats findingKey
          (((scripts.map hookFinding).getLast?.map findingKey).or (some hookKey)) rest := by
      have hnone : Option.map findingKey none ≠ some (findingKey (hookFinding first)) :=
        Option.some_ne_none _ |>.symm
      rw [dedupFindings_eq, List.map_cons, List.cons_append, dropRepeats, if_neg hnone,
        dropRepeats_append, dropRepeats_run hrun]
      rfl
    rw [hkept]
    constructor
    · intro hall
      cases scripts with
      | nil => exact le_rfl
      | cons second scripts =>
        have hdistinct : first.1 ≠ second.1 := by
          have hnodup : ((first :: second :: scripts).map Prod.fst).Nodup :=
            hnames.nodup (by decide)
          rw [List.map_cons, List.map_cons] at hnodup
          exact fun heq => (List.nodup_cons.mp hnodup).1 (heq ▸ List.mem_cons_self)
        have hfirst : first.1 ∈ hooks := hnames.subset List.mem_cons_self
        have hsecond : second.1 ∈ hooks :=
          hnames.subset (List.mem_cons_of_mem _ List.mem_cons_self)
        have hmem := hall (hookFinding second) (List.mem_cons_of_mem _ List.mem_cons_self)
        rcases List.mem_cons.mp hmem with heq | hin
        · exact absurd heq.symm (hookFinding_ne hfirst hsecond hdistinct)
        · exact absurd rfl (hrest _ (mem_of_mem_dropRepeats hin))
    · intro hone hook hmem
      have hnil : scripts = [] := List.eq_nil_of_length_eq_zero (Nat.le_zero.mp
        (Nat.le_of_succ_le_succ hone))
      rw [hnil] at hmem
      rw [List.mem_singleton.mp hmem]
      exact List.mem_cons_self

/-! ## The report -/

theorem findings_eq {parseJson : List UInt8 → Except String Value} {analysis : FileAnalysis}
    {fs : FileSystem} {packageDir : Location} {order : List (List Name)} {name version : String}
    {scripts : List (String × String)} {report : AnalysisReport}
    (hhooks : readHooks parseJson fs packageDir = .ok scripts)
    (h : scanInOrder parseJson analysis fs packageDir order name version = .ok report) :
    report.findings = dedupFindings none (scripts.map hookFinding ++
      order.flatMap (findingsAt analysis fs packageDir)) := by
  obtain ⟨found, hfound, hreport⟩ := Except.bind_eq_ok.mp h
  obtain rfl := Except.ok.inj (hhooks.symm.trans hfound)
  obtain rfl := Except.ok.inj hreport
  unfold reportOf
  dsimp only
  rw [foldl_scanFile_findings_eq]

section Report
variable {facts : SourceFacts} {analyzeFile : List UInt8 → List Char → Behavior}
  {fs : FileSystem} {packageDir : Location} {order : List (List Name)}
  {scripts : List (String × String)} {f : Finding}

theorem findingKey_hook_ne (hf : f ∈ reports facts fs packageDir order) :
    ∀ h ∈ scripts.map hookFinding, findingKey h ≠ findingKey f := by
  intro h hmem heq
  obtain ⟨hook, -, rfl⟩ := List.mem_map.mp hmem
  exact mem_reports hf heq.symm

/-- Of what is reported for a key that stands in one place the first is kept. -/
theorem filter_kept (hf : f ∈ reports facts fs packageDir order)
    (htogether : Together findingKey (findingKey f)
      (collected facts analyzeFile fs packageDir order)) :
    (dedupFindings none (scripts.map hookFinding ++
        collected facts analyzeFile fs packageDir order)).filter
          (fun h => findingKey h = findingKey f) =
      ((reports facts fs packageDir order).find?
        fun h => findingKey h = findingKey f).toList := by
  have hfront : ∀ h ∈ scripts.map hookFinding, findingKey h ≠ findingKey f := findingKey_hook_ne hf
  rw [dedupFindings_eq, Option.map_none,
    filter_dropRepeats ((together_append_iff hfront).mpr htogether), find?_append_of_ne hfront,
    find?_collected]

theorem together_of_kept {g : Finding} (hf : f ∈ reports facts fs packageDir order)
    (h : (dedupFindings none (scripts.map hookFinding ++
        collected facts analyzeFile fs packageDir order)).filter
          (fun h => findingKey h = findingKey f) = [g]) :
    Together findingKey (findingKey f) (collected facts analyzeFile fs packageDir order) := by
  have hfront : ∀ h ∈ scripts.map hookFinding, findingKey h ≠ findingKey f := findingKey_hook_ne hf
  rw [dedupFindings_eq, Option.map_none] at h
  exact (together_append_iff hfront).mp (together_of_filter h)

/-- What the scanner promises of its findings it keeps exactly when the passes report in order. -/
theorem scan_deduplicated_iff {parseJson : List UInt8 → Except String Value}
    {name version : String} {report : AnalysisReport}
    (hhooks : readHooks parseJson fs packageDir = .ok scripts)
    (h : scanInOrder parseJson (fileAnalysis facts analyzeFile) fs packageDir order name version =
      .ok report) :
    Deduplicated (scripts.map hookFinding) (reports facts fs packageDir order) report.findings ↔
      InOrder scripts (reports facts fs packageDir order)
        (collected facts analyzeFile fs packageDir order) := by
  have hfindings : report.findings = dedupFindings none (scripts.map hookFinding ++
      collected facts analyzeFile fs packageDir order) := findings_eq hhooks h
  have hscanned : ∀ f ∈ collected facts analyzeFile fs packageDir order, findingKey f ≠ hookKey :=
    fun f hf => mem_reports (mem_reports_of_collected hf)
  have hkept := hooks_kept (readHooks_sublist hhooks) hscanned
  rw [hfindings]
  constructor
  · intro hdedup
    have htogether (f : Finding) (hf : f ∈ reports facts fs packageDir order) :
        Together findingKey (findingKey f) (collected facts analyzeFile fs packageDir order) := by
      obtain ⟨g, hg, -, -⟩ := hdedup.one f hf
      exact together_of_kept hf hg
    refine ⟨hkept.mp hdedup.hooks, htogether, fun f first hfirst => ?_⟩
    have hkey : findingKey first = findingKey f := by simpa using List.find?_some hfirst
    have hmem : first ∈ reports facts fs packageDir order := List.mem_of_find?_eq_some hfirst
    obtain ⟨g, hg, -, hmax⟩ := hdedup.one first hmem
    rw [filter_kept hmem (htogether first hmem), hkey, hfirst] at hg
    obtain rfl : first = g := List.singleton_inj.mp hg
    rw [← hkey]
    exact hmax
  · intro horder
    refine ⟨hkept.mpr horder.hooks, fun f hf => ?_⟩
    have hsome : ((reports facts fs packageDir order).find?
        fun h => findingKey h = findingKey f).isSome :=
      List.find?_isSome.mpr ⟨f, hf, by simp⟩
    obtain ⟨first, hfirst⟩ := Option.isSome_iff_exists.mp hsome
    refine ⟨first, ?_, List.mem_of_find?_eq_some hfirst, horder.first f first hfirst⟩
    rw [filter_kept hf (horder.together f hf), hfirst]
    rfl

end Report

/-! ## Two packages -/

namespace Demo
open Registry

/-- A package of one file in its directory. -/
def oneFile (name : String) (content : List UInt8) : FileSystem :=
  (((⟨.empty⟩ : FileSystem).set [] (.directory newDirMode)).set [asBytes "p"]
    (.directory newDirMode)).set [asBytes "p", asBytes name] (.file newFileMode content)

def evalFiles : FileSystem := oneFile "index.js" (asBytes "eval(x)")

/-- What is found in `eval(x)`. -/
def evalFacts : SourceFacts where
  findCount _ _ := 0
  hexDensity _ := none
  shortNames _ := none
  visit _ _ := [(.eval, 1)]

def evalAnalysis : FileAnalysis := fileAnalysis evalFacts fun _ _ => {}

def patternEval : Finding :=
  ⟨.dynamicExec, .high, "Uses eval() for dynamic code execution", "index.js", 1, some "eval(x)"⟩

def visitedEval : Finding :=
  ⟨.dynamicExec, .high, "Direct eval() -- dynamic code execution", "index.js", 1, some "eval(x)"⟩

theorem reports_evalFiles : reports evalFacts evalFiles [asBytes "p"]
    (evalFiles.walkFiles [asBytes "p"]) = [patternEval, visitedEval] := by
  decide +kernel

def twoHooks : String :=
  "\x7b\"scripts\":\x7b\"preinstall\":\"node a.js\",\"postinstall\":\"node b.js\"\x7d\x7d"

def hookFiles : FileSystem := oneFile "package.json" (asBytes twoHooks)

def hookScripts : List (String × String) :=
  [("preinstall", "node a.js"), ("postinstall", "node b.js")]

def readTwoHooks (_ : List UInt8) : Except String Value :=
  .ok (.object [("scripts", .object (hookScripts.map fun hook => (hook.1, .string hook.2)))])

end Demo

open Registry Demo in
theorem scan_deduplicated_eval : ∃ report,
    scanInOrder noJson evalAnalysis evalFiles [asBytes "p"] (evalFiles.walkFiles [asBytes "p"])
      "p" "1.0.0" = .ok report ∧
    Deduplicated [] (reports evalFacts evalFiles [asBytes "p"]
      (evalFiles.walkFiles [asBytes "p"])) report.findings := by
  have hhooks : readHooks noJson evalFiles [asBytes "p"] = .ok [] := rfl
  refine ⟨_, rfl, (scan_deduplicated_iff hhooks rfl).mpr ⟨Nat.zero_le 1, ?_, ?_⟩⟩
  · have hkey : ∀ h ∈ [patternEval, visitedEval], findingKey h = findingKey patternEval := by
      decide
    intro f hf front a middle b back hlist ha hb c hc
    have hcollected : c ∈ collected evalFacts (fun _ _ => {}) evalFiles [asBytes "p"]
        (evalFiles.walkFiles [asBytes "p"]) := by
      rw [hlist]
      simp [hc]
    have hreports := mem_reports_of_collected hcollected
    rw [reports_evalFiles] at hf hreports
    rw [hkey c hreports, hkey f hf]
  · have hrisk : ∀ h ∈ [patternEval, visitedEval], h.risk.severity = 4 := by decide
    intro f first hfirst h hmem hkey
    rw [reports_evalFiles] at hfirst hmem
    rw [hrisk h hmem, hrisk first (List.mem_of_find?_eq_some hfirst)]

open Registry Demo in
/-- Of two hooks the second is dropped. -/
theorem hook_dropped : ∃ report,
    scanInOrder readTwoHooks evalAnalysis hookFiles [asBytes "p"]
      (hookFiles.walkFiles [asBytes "p"]) "p" "1.0.0" = .ok report ∧
    ¬ Deduplicated (hookScripts.map hookFinding) (reports evalFacts hookFiles [asBytes "p"]
      (hookFiles.walkFiles [asBytes "p"])) report.findings := by
  have hhooks : readHooks readTwoHooks hookFiles [asBytes "p"] = .ok hookScripts := rfl
  refine ⟨_, rfl, fun hdedup => ?_⟩
  have hrest : ∀ f ∈ collected evalFacts (fun _ _ => {}) hookFiles [asBytes "p"]
      (hookFiles.walkFiles [asBytes "p"]), findingKey f ≠ hookKey := fun f hf =>
    mem_reports (mem_reports_of_collected hf)
  have hkept := hdedup.hooks
  rw [findings_eq hhooks rfl] at hkept
  have hlength := (hooks_kept (readHooks_sublist hhooks) hrest).mp hkept
  exact absurd hlength (by decide)

end Oath.Analyze
