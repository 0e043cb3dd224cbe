import Mathlib.Data.List.Perm.Basic
import Oath.Analyze.Coverage
import Oath.Library.Pieces

/-! The order in which a walk meets the files does not matter to the scan, and more files
never make it report less. Every part of a report is a join over the files analysed: its
risk, its capabilities and its reasons. Findings are joined file by file, because a finding
names its file and so is never taken for one of another file. -/

namespace Oath.Analyze
open Contracts Unix

/-! ## Capabilities as a join -/

instance : Max Capabilities where
  max c d := {
    network := c.network || d.network
    filesystem := c.filesystem || d.filesystem
    envAccess := c.envAccess || d.envAccess
    subprocess := c.subprocess || d.subprocess
    dynamicExec := c.dynamicExec || d.dynamicExec
    hasInstallScripts := c.hasInstallScripts || d.hasInstallScripts
    nativeAddon := c.nativeAddon || d.nativeAddon }

theorem Capabilities.sup_def (c d : Capabilities) : c ⊔ d = {
    network := c.network || d.network
    filesystem := c.filesystem || d.filesystem
    envAccess := c.envAccess || d.envAccess
    subprocess := c.subprocess || d.subprocess
    dynamicExec := c.dynamicExec || d.dynamicExec
    hasInstallScripts := c.hasInstallScripts || d.hasInstallScripts
    nativeAddon := c.nativeAddon || d.nativeAddon } := rfl

/-- A report has at least the capabilities of another when it clears none of them. -/
instance : SemilatticeSup Capabilities :=
  SemilatticeSup.mk'
    (fun c d => by simp only [Capabilities.sup_def, Bool.or_comm])
    (fun c d e => by simp only [Capabilities.sup_def, Bool.or_assoc])
    (fun c => by simp only [Capabilities.sup_def, Bool.or_self])

def FindingKind.capabilities : FindingKind → Capabilities
  | .network | .dataExfiltration => { network := true }
  | .filesystem => { filesystem := true }
  | .envAccess => { envAccess := true }
  | .subprocess => { subprocess := true }
  | .dynamicExec => { dynamicExec := true }
  | .installScript => { hasInstallScripts := true }
  | _ => {}

def Behavior.capabilities (b : Behavior) : Capabilities where
  network := b.net
  filesystem := b.fs
  envAccess := b.envRead
  subprocess := b.subprocess
  dynamicExec := b.codeExec

theorem addCapability_eq (c : Capabilities) (f : Finding) :
    addCapability c f = c ⊔ f.kind.capabilities := by
  unfold addCapability FindingKind.capabilities
  cases f.kind <;> simp [Capabilities.sup_def]

theorem capabilities_merge (b o : Behavior) :
    (b.merge o).capabilities = b.capabilities ⊔ o.capabilities := by
  simp [Behavior.merge, Behavior.capabilities, Capabilities.sup_def]

theorem empty_le (c : Capabilities) : ({} : Capabilities) ≤ c := by
  have h : ({} : Capabilities) ⊔ c = c := by simp [Capabilities.sup_def]
  exact sup_eq_right.mp h

theorem capabilitiesOf_eq (findings : List Finding) (b : Behavior) (hasInstallScript : Bool) :
    capabilitiesOf findings b hasInstallScript =
      findings.foldl addCapability {} ⊔ b.capabilities ⊔
        { hasInstallScripts := hasInstallScript } := by
  simp [capabilitiesOf, Behavior.capabilities, Capabilities.sup_def]

/-- A repeated finding adds no capability, so those that were taken away are not missed. -/
theorem capabilitiesOf_le_iff (findings : List Finding) (b : Behavior) (hasInstallScript : Bool)
    (c : Capabilities) :
    capabilitiesOf (dedupFindings none findings) b hasInstallScript ≤ c ↔
      (∀ f ∈ findings, f.kind.capabilities ≤ c) ∧ b.capabilities ≤ c ∧
        { hasInstallScripts := hasInstallScript } ≤ c := by
  have hadd : addCapability = fun acc f => acc ⊔ f.kind.capabilities := by
    funext acc f
    exact addCapability_eq acc f
  have hdedup : (∀ f ∈ dedupFindings none findings, f.kind.capabilities ≤ c) ↔
      ∀ f ∈ findings, f.kind.capabilities ≤ c := by
    constructor
    · intro h f hf
      obtain ⟨g, hg, hkind⟩ := (exists_kind_dedup findings f.kind).mpr ⟨f, hf, rfl⟩
      rw [← hkind]
      exact h g hg
    · exact fun h f hf => h f (mem_of_mem_dedup hf)
  rw [capabilitiesOf_eq, sup_le_iff, sup_le_iff, hadd,
    Joins.foldl_le_iff fun f : Finding => f.kind.capabilities, hdedup]
  simp only [empty_le, true_and, and_assoc]

/-! ## A scan that walks in a given order -/

/-- The report on a package whose hooks are these and whose files are met in this order. -/
def reportOf (analysis : FileAnalysis) (fs : FileSystem) (packageDir : Location)
    (order : List (List Name)) (packageName packageVersion : String)
    (scripts : List (String × String)) : AnalysisReport :=
  let hasInstallScript := !scripts.isEmpty
  let walked := order.foldl (scanFile analysis fs packageDir)
    { findings := scripts.map hookFinding }
  let packageVerdict := mergeVerdict walked.verdict
    (verdict (scripts.foldl (fun b hook => scanInstallCommand hook.2 b) {}) hasInstallScript)
  { packageName
    packageVersion
    overallRisk := overallRisk packageVerdict.1
    findings := dedupFindings none walked.findings
    filesScanned := walked.filesScanned
    linesScanned := walked.linesScanned
    capabilities := capabilitiesOf (dedupFindings none walked.findings) walked.behavior
      hasInstallScript
    verdictReasons := packageVerdict.2 }

def scanInOrder (parseJson : List UInt8 → Except String Value) (analysis : FileAnalysis)
    (fs : FileSystem) (packageDir : Location) (order : List (List Name))
    (packageName packageVersion : String) : Except String AnalysisReport := do
  let scripts ← readHooks parseJson fs packageDir
  .ok (reportOf analysis fs packageDir order packageName packageVersion scripts)

theorem scan_eq_scanInOrder (parseJson : List UInt8 → Except String Value)
    (analysis : FileAnalysis) (fs : FileSystem) (packageDir : Location) (name version : String) :
    scan parseJson analysis fs packageDir name version =
      scanInOrder parseJson analysis fs packageDir (fs.walkFiles packageDir) name version := by
  unfold scan scanInOrder
  cases readHooks parseJson fs packageDir <;> rfl

/-- The files a scan analyses, with their texts. -/
def Analysed (fs : FileSystem) (packageDir : Location) (order : List (List Name))
    (rel : List Name) (source : List UInt8) : Prop :=
  rel ∈ order ∧ source? fs packageDir rel = some source

section Report
variable (analysis : FileAnalysis) (fs : FileSystem) (packageDir : Location)
  (order : List (List Name)) (name version : String) (scripts : List (String × String))

theorem foldl_scanFile_behavior (rels : List (List Name)) (s : ScanState) (c : Capabilities) :
    (rels.foldl (scanFile analysis fs packageDir) s).behavior.capabilities ≤ c ↔
      s.behavior.capabilities ≤ c ∧ ∀ rel source, Analysed fs packageDir rels rel source →
        (analysis.analyzeFile source (relativePath rel)).capabilities ≤ c := by
  induction rels generalizing s with
  | nil => simp [Analysed]
  | cons rel rest ih =>
    have hstep : (scanFile analysis fs packageDir s rel).behavior.capabilities ≤ c ↔
        s.behavior.capabilities ≤ c ∧ ∀ source, source? fs packageDir rel = some source →
          (analysis.analyzeFile source (relativePath rel)).capabilities ≤ c := by
      unfold scanFile
      cases hsource : source? fs packageDir rel with
      | none => simp
      | some source =>
        dsimp only
        rw [capabilities_merge, sup_le_iff]
        simp
    rw [List.foldl_cons, ih, hstep, and_assoc]
    apply and_congr_right
    intro _
    constructor
    · rintro ⟨hrel, hrest⟩ other source ⟨hmem, hsource⟩
      rcases List.mem_cons.mp hmem with rfl | hmem
      · exact hrel source hsource
      · exact hrest other source ⟨hmem, hsource⟩
    · intro h
      exact ⟨fun source hsource => h rel source ⟨List.mem_cons_self, hsource⟩,
        fun other source hother => h other source ⟨List.mem_cons_of_mem _ hother.1, hother.2⟩⟩

/-- What is below every report that says as much as the files and the hooks do. -/
theorem reportOf_capabilities_le (c : Capabilities) :
    (reportOf analysis fs packageDir order name version scripts).capabilities ≤ c ↔
      ((∀ hook ∈ scripts, (hookFinding hook).kind.capabilities ≤ c) ∧
        { hasInstallScripts := !scripts.isEmpty } ≤ c) ∧
      ∀ rel source, Analysed fs packageDir order rel source →
        (∀ f ∈ fileFindings analysis source (relativePath rel), f.kind.capabilities ≤ c) ∧
          (analysis.analyzeFile source (relativePath rel)).capabilities ≤ c := by
  have hempty : ({} : Behavior).capabilities ≤ c := empty_le c
  unfold reportOf
  dsimp only
  rw [capabilitiesOf_le_iff, foldl_scanFile_behavior]
  simp only [foldl_scanFile_findings, hempty, true_and]
  constructor
  · rintro ⟨hfindings, hbehavior, hhooks⟩
    refine ⟨⟨?_, hhooks⟩, ?_⟩
    · intro hook hmem
      exact hfindings _ (Or.inl (List.mem_map_of_mem hmem))
    · intro rel source hanalysed
      refine ⟨?_, hbehavior rel source hanalysed⟩
      intro f hf
      exact hfindings f (Or.inr ⟨rel, hanalysed.1, source, hanalysed.2, hf⟩)
  · rintro ⟨⟨hscripts, hhooks⟩, hfiles⟩
    refine ⟨?_, fun rel source hanalysed => (hfiles rel source hanalysed).2, hhooks⟩
    rintro f (hf | ⟨rel, hrel, source, hsource, hf⟩)
    · obtain ⟨hook, hmem, rfl⟩ := List.mem_map.mp hf
      exact hscripts hook hmem
    · exact (hfiles rel source ⟨hrel, hsource⟩).1 f hf

theorem mem_mergeVerdict (current next : Verdict × List String) (reason : String) :
    reason ∈ (mergeVerdict current next).2 ↔ reason ∈ current.2 ∨ reason ∈ next.2 := by
  have hfold : ∀ added reasons : List String,
      reason ∈ added.foldl (fun reasons reason =>
          if reason ∈ reasons then reasons else reasons ++ [reason]) reasons ↔
        reason ∈ reasons ∨ reason ∈ added := by
    intro added
    induction added with
    | nil => simp
    | cons first rest ih =>
      intro reasons
      rw [List.foldl_cons, ih, List.mem_cons]
      split_ifs with hmem
      · constructor
        · rintro (h | h)
          · exact Or.inl h
          · exact Or.inr (Or.inr h)
        · rintro (h | rfl | h)
          · exact Or.inl h
          · exact Or.inl hmem
          · exact Or.inr h
      · rw [List.mem_append, List.mem_singleton, or_assoc]
  exact hfold next.2 current.2

theorem foldl_scanFile_reasons (rels : List (List Name)) (s : ScanState) (reason : String) :
    reason ∈ (rels.foldl (scanFile analysis fs packageDir) s).verdict.2 ↔
      reason ∈ s.verdict.2 ∨ ∃ rel source, Analysed fs packageDir rels rel source ∧
        reason ∈ (verdict (analysis.analyzeFile source (relativePath rel)) false).2 := by
  induction rels generalizing s with
  | nil => simp [Analysed]
  | cons rel rest ih =>
    have hstep : reason ∈ (scanFile analysis fs packageDir s rel).verdict.2 ↔
        reason ∈ s.verdict.2 ∨ ∃ source, source? fs packageDir rel = some source ∧
          reason ∈ (verdict (analysis.analyzeFile source (relativePath rel)) false).2 := by
      unfold scanFile
      cases hsource : source? fs packageDir rel with
      | none => simp
      | some source =>
        dsimp only
        rw [mem_mergeVerdict]
        simp
    rw [List.foldl_cons, ih, hstep, or_assoc]
    apply or_congr_right
    constructor
    · rintro (⟨source, hsource, hreason⟩ | ⟨other, source, hother, hreason⟩)
      · exact ⟨rel, source, ⟨List.mem_cons_self, hsource⟩, hreason⟩
      · exact ⟨other, source, ⟨List.mem_cons_of_mem _ hother.1, hother.2⟩, hreason⟩
    · rintro ⟨other, source, ⟨hmem, hsource⟩, hreason⟩
      rcases List.mem_cons.mp hmem with rfl | hmem
      · exact Or.inl ⟨source, hsource, hreason⟩
      · exact Or.inr ⟨other, source, ⟨hmem, hsource⟩, hreason⟩

theorem mem_reportOf_reasons (reason : String) :
    reason ∈ (reportOf analysis fs packageDir order name version scripts).verdictReasons ↔
      (∃ rel source, Analysed fs packageDir order rel source ∧
        reason ∈ (verdict (analysis.analyzeFile source (relativePath rel)) false).2) ∨
      reason ∈ (verdict (scripts.foldl (fun b hook => scanInstallCommand hook.2 b) {})
        (!scripts.isEmpty)).2 := by
  unfold reportOf
  dsimp only
  rw [mem_mergeVerdict, foldl_scanFile_reasons]
  simp

/-- The verdict a report's risk stands for. -/
theorem reportOf_rank : ∃ v,
    (reportOf analysis fs packageDir order name version scripts).overallRisk = overallRisk v ∧
      ∀ k > 0, k ≤ rank v ↔
        (∃ rel source, Analysed fs packageDir order rel source ∧
          k ≤ rank (verdict (analysis.analyzeFile source (relativePath rel)) false).1) ∨
        HooksRanked scripts k := by
  refine ⟨_, rfl, ?_⟩
  intro k hk
  have hstart : ¬ k ≤ rank Verdict.info := not_le.mpr hk
  rw [rank_mergeVerdict, le_max_iff, le_rank_foldl_scanFile]
  simp only [hstart, false_or]
  apply or_congr_left
  constructor
  · rintro ⟨rel, hrel, source, hsource, hle⟩
    exact ⟨rel, source, ⟨hrel, hsource⟩, hle⟩
  · rintro ⟨rel, source, ⟨hrel, hsource⟩, hle⟩
    exact ⟨rel, hrel, source, hsource, hle⟩

end Report

/-! ## Risk -/

/-- The order of the risk levels in the source. -/
def RiskLevel.severity : RiskLevel → ℕ
  | clean => 0
  | info => 1
  | low => 2
  | medium => 3
  | high => 4
  | critical => 5

theorem RiskLevel.severity_injective : Function.Injective severity := by
  intro a b h
  cases a <;> cases b <;> first | rfl | cases h

theorem severity_le_of_rank {v w : Verdict} (h : ∀ k > 0, k ≤ rank v → k ≤ rank w) :
    (overallRisk v).severity ≤ (overallRisk w).severity := by
  have hrank : rank v ≤ rank w := by
    rcases Nat.eq_zero_or_pos (rank v) with hzero | hpos
    · rw [hzero]
      exact Nat.zero_le _
    · exact h _ hpos le_rfl
  revert hrank
  cases v <;> cases w <;> decide

end Oath.Analyze
