import Oath.Analyze.ScanOrder

/-! Two scans of the same files agree in whatever order the walk meets them, and a scan of
more files reports at least as much. -/

namespace Oath.Analyze
open Contracts Unix

/-! ## Findings, file by file -/

theorem dedup_none_of_apart {last : Option Finding} {findings : List Finding}
    (h : ∀ l, last = some l → ∀ g ∈ findings, l.file ≠ g.file) :
    dedupFindings last findings = dedupFindings none findings := by
  cases findings with
  | nil => simp [dedupFindings]
  | cons g gs =>
    cases last with
    | none => rfl
    | some l =>
      have hne := h l rfl g List.mem_cons_self
      rw [dedupFindings, dedupFindings, if_neg]
      exact fun hsame => hne hsame.2.1.symm

/-- Findings of one file are never taken for those of another. -/
theorem dedup_append {last : Option Finding} {front back : List Finding}
    (hapart : ∀ f ∈ front, ∀ g ∈ back, f.file ≠ g.file)
    (hlast : ∀ l, last = some l → ∀ g ∈ back, l.file ≠ g.file) :
    dedupFindings last (front ++ back) = dedupFindings last front ++ dedupFindings none back := by
  induction front generalizing last with
  | nil => simp [dedupFindings, dedup_none_of_apart hlast]
  | cons f fs ih =>
    have hf : ∀ l, some f = some l → ∀ g ∈ back, l.file ≠ g.file := by
      intro l hl
      obtain rfl := Option.some.inj hl
      exact hapart f List.mem_cons_self
    have hrest : ∀ other ∈ fs, ∀ g ∈ back, other.file ≠ g.file := fun other hmem =>
      hapart other (List.mem_cons_of_mem _ hmem)
    cases last with
    | none => rw [List.cons_append, dedupFindings, dedupFindings, ih hrest hf, List.cons_append]
    | some l =>
      rw [List.cons_append, dedupFindings, dedupFindings]
      split_ifs
      · exact ih hrest hlast
      · rw [ih hrest hf, List.cons_append]

/-- The analyses as the source has them: every finding they build carries the relative path
they were given. -/
structure NamedAnalysis extends FileAnalysis where
  file_eq (source : List UInt8) (relative : List Char) :
    ∀ f ∈ fileFindings toFileAnalysis source relative, f.file = String.ofList relative

/-- What is found in the file at a path, if it is analysed. -/
def findingsAt (analysis : FileAnalysis) (fs : FileSystem) (packageDir : Location)
    (rel : List Name) : List Finding :=
  ((source? fs packageDir rel).map fun source =>
    fileFindings analysis source (relativePath rel)).getD []

theorem foldl_scanFile_findings_eq (analysis : FileAnalysis) (fs : FileSystem)
    (packageDir : Location) (rels : List (List Name)) (s : ScanState) :
    (rels.foldl (scanFile analysis fs packageDir) s).findings =
      s.findings ++ rels.flatMap (findingsAt analysis fs packageDir) := by
  induction rels generalizing s with
  | nil => simp
  | cons rel rest ih =>
    rw [List.foldl_cons, ih, scanFile_findings, List.flatMap_cons, List.append_assoc]
    rfl

theorem file_of_mem_findingsAt {analysis : NamedAnalysis} {fs : FileSystem}
    {packageDir : Location} {rel : List Name} {f : Finding}
    (h : f ∈ findingsAt analysis.toFileAnalysis fs packageDir rel) :
    f.file = String.ofList (relativePath rel) ∧
      extension ((packageDir ++ rel).getLastD []) ∈ sourceExtensions := by
  unfold findingsAt at h
  cases hsource : source? fs packageDir rel with
  | none =>
    rw [hsource] at h
    cases h
  | some source =>
    rw [hsource] at h
    refine ⟨analysis.file_eq source _ f h, ?_⟩
    by_contra hext
    unfold source? at hsource
    dsimp only at hsource
    rw [if_pos hext] at hsource
    cases hsource

/-! ## Package trees -/

/-- A package directory whose files have paths of UTF-8 text without backslashes. -/
structure PackageTree (fs : FileSystem) (packageDir : Location) : Prop where
  directory : fs.isDirectory packageDir
  names : ∀ rel ∈ fs.walkFiles packageDir, ∀ name ∈ rel, slash ∉ name
  text : ∀ rel ∈ fs.walkFiles packageDir, ∃ path : List Char, '\\' ∉ path ∧
    [slash].intercalate rel = path.flatMap String.utf8EncodeChar

theorem nodup_walkFiles (fs : FileSystem) (packageDir : Location) :
    (fs.walkFiles packageDir).Nodup := by
  have hrows : fs.table.rows.Pairwise fun row other => row.1 ≠ other.1 :=
    List.pairwise_map.mp fs.table.nodup
  apply List.pairwise_filterMap.mpr
  apply hrows.imp
  rintro ⟨loc, node⟩ ⟨loc', node'⟩ hne rel hrel rel' hrel' rfl
  cases node <;> cases node' <;> simp only [Option.ite_none_right_eq_some, Bool.and_eq_true,
    Option.some.injEq, reduceCtorEq] at hrel hrel'
  obtain ⟨⟨hunder, -⟩, rfl⟩ := hrel
  obtain ⟨⟨hunder', -⟩, heq⟩ := hrel'
  obtain ⟨rest, rfl⟩ := List.isPrefixOf_iff_prefix.mp hunder
  obtain ⟨rest', rfl⟩ := List.isPrefixOf_iff_prefix.mp hunder'
  rw [List.drop_left, List.drop_left] at heq
  exact hne (by rw [heq])

namespace PackageTree
variable {fs : FileSystem} {packageDir : Location} (tree : PackageTree fs packageDir)
include tree

theorem ne_nil {rel : List Name} (h : rel ∈ fs.walkFiles packageDir) : rel ≠ [] := by
  rintro rfl
  have hfile := (FileSystem.mem_walkFiles.mp h).1
  rw [List.append_nil, FileSystem.fileBytes?_of_isDirectory tree.directory] at hfile
  cases hfile

theorem bytes_of_relativePath {rel : List Name} (h : rel ∈ fs.walkFiles packageDir) :
    [slash].intercalate rel = (relativePath rel).flatMap String.utf8EncodeChar := by
  obtain ⟨path, hpath, hbytes⟩ := tree.text rel h
  have hmap : (path.map fun c => if c = '\\' then '/' else c) = path := by
    conv_rhs => rw [← List.map_id path]
    apply List.map_congr_left
    intro c hc
    have hne : c ≠ '\\' := fun heq => hpath (heq ▸ hc)
    exact if_neg hne
  rw [relativePath, hbytes, Utf8.lossy_encode, hmap]

/-- Different files have different relative paths. -/
theorem relativePath_inj {rel : List Name} (h : rel ∈ fs.walkFiles packageDir)
    (other : List Name) (hnames : ∀ name ∈ other, slash ∉ name) (hne : other ≠ [])
    (hother : [slash].intercalate other = (relativePath other).flatMap String.utf8EncodeChar)
    (heq : relativePath rel = relativePath other) : rel = other := by
  have hbytes : [slash].intercalate rel = [slash].intercalate other := by
    rw [tree.bytes_of_relativePath h, hother, heq]
  have hpieces := congrArg pieces hbytes
  rwa [pieces_intercalate (tree.ne_nil h) (tree.names rel h), pieces_intercalate hne hnames]
    at hpieces

/-- No source file is taken for the manifest. -/
theorem relativePath_ne_packageJson {rel : List Name} (h : rel ∈ fs.walkFiles packageDir)
    (hext : extension ((packageDir ++ rel).getLastD []) ∈ sourceExtensions) :
    String.ofList (relativePath rel) ≠ "package.json" := by
  intro heq
  have hmanifest : relativePath [packageJson] = "package.json".toList := by decide
  have hrel := tree.relativePath_inj h [packageJson] (by decide) (by decide)
    (by decide) (by rw [hmanifest, ← heq, String.toList_ofList])
  rw [hrel] at hext
  simp only [List.getLastD_eq_getLast?, List.getLast?_append, List.getLast?_singleton,
    Option.some_or, Option.getD_some] at hext
  revert hext
  decide

/-- The findings of a report, file by file. -/
theorem dedup_findings {analysis : NamedAnalysis} {order : List (List Name)}
    (horder : order ⊆ fs.walkFiles packageDir) (hnodup : order.Nodup)
    (scripts : List (String × String)) :
    dedupFindings none (scripts.map hookFinding ++
        order.flatMap (findingsAt analysis.toFileAnalysis fs packageDir)) =
      dedupFindings none (scripts.map hookFinding) ++ order.flatMap fun rel =>
        dedupFindings none (findingsAt analysis.toFileAnalysis fs packageDir rel) := by
  have hfiles : ∀ rels : List (List Name), rels ⊆ fs.walkFiles packageDir → rels.Nodup →
      dedupFindings none (rels.flatMap (findingsAt analysis.toFileAnalysis fs packageDir)) =
        rels.flatMap fun rel =>
          dedupFindings none (findingsAt analysis.toFileAnalysis fs packageDir rel) := by
    intro rels hrels hnodup
    induction rels with
    | nil => rfl
    | cons rel rest ih =>
      obtain ⟨hfresh, hnodup⟩ := List.nodup_cons.mp hnodup
      have hrel := hrels List.mem_cons_self
      have hrest : rest ⊆ fs.walkFiles packageDir := fun other hmem =>
        hrels (List.mem_cons_of_mem _ hmem)
      rw [List.flatMap_cons, List.flatMap_cons, ← ih hrest hnodup]
      apply dedup_append
      · intro f hf g hg heq
        obtain ⟨other, hother, hg⟩ := List.mem_flatMap.mp hg
        rw [(file_of_mem_findingsAt hf).1, (file_of_mem_findingsAt hg).1,
          String.ofList_inj] at heq
        have hwalked := hrest hother
        have hsame := tree.relativePath_inj hrel other (tree.names other hwalked)
          (tree.ne_nil hwalked) (tree.bytes_of_relativePath hwalked) heq
        exact hfresh (hsame ▸ hother)
      · intro l hl
        cases hl
  rw [← hfiles order horder hnodup]
  apply dedup_append
  · intro f hf g hg heq
    obtain ⟨hook, -, rfl⟩ := List.mem_map.mp hf
    obtain ⟨rel, hrel, hg⟩ := List.mem_flatMap.mp hg
    obtain ⟨hfile, hext⟩ := file_of_mem_findingsAt hg
    have hne := tree.relativePath_ne_packageJson (horder hrel) hext
    rw [hfile] at heq
    exact hne heq.symm
  · intro l hl
    cases hl

end PackageTree

/-! ## The same files, and more files -/

/-- Two trees in which a walk meets the same files, with the same manifest. -/
structure SameFiles (fs₁ : FileSystem) (dir₁ : Location) (fs₂ : FileSystem) (dir₂ : Location) :
    Prop where
  walked : ∀ rel, rel ∈ fs₁.walkFiles dir₁ ↔ rel ∈ fs₂.walkFiles dir₂
  read : ∀ rel ∈ fs₁.walkFiles dir₁, fs₁.read dir₁ rel = fs₂.read dir₂ rel
  found : fs₁.exists? dir₁ [packageJson] = fs₂.exists? dir₂ [packageJson]
  manifest : fs₁.read dir₁ [packageJson] = fs₂.read dir₂ [packageJson]

/-- Every file of the one tree is in the other, and no manifest has come or gone. -/
structure Grows (fs₁ : FileSystem) (dir₁ : Location) (fs₂ : FileSystem) (dir₂ : Location) :
    Prop where
  walked : ∀ rel ∈ fs₁.walkFiles dir₁, rel ∈ fs₂.walkFiles dir₂
  read : ∀ rel ∈ fs₁.walkFiles dir₁, fs₁.read dir₁ rel = fs₂.read dir₂ rel
  manifest : ∀ bytes, fs₁.read dir₁ [packageJson] = .ok bytes ↔
    fs₂.read dir₂ [packageJson] = .ok bytes

theorem source?_eq {fs₁ fs₂ : FileSystem} {dir₁ dir₂ : Location} {rel : List Name} (hne : rel ≠ [])
    (hread : fs₁.read dir₁ rel = fs₂.read dir₂ rel) :
    source? fs₁ dir₁ rel = source? fs₂ dir₂ rel := by
  have hname : ∀ dir : Location, (dir ++ rel).getLastD [] = rel.getLastD [] := by
    intro dir
    obtain ⟨name, hname⟩ := Option.isSome_iff_exists.mp (List.getLast?_isSome.mpr hne)
    simp [List.getLastD_eq_getLast?, List.getLast?_append, hname]
  unfold source?
  rw [hname dir₁, hname dir₂, hread]

theorem readHooks_eq {parseJson : List UInt8 → Except String Value} {fs₁ fs₂ : FileSystem}
    {dir₁ dir₂ : Location} (same : SameFiles fs₁ dir₁ fs₂ dir₂) :
    readHooks parseJson fs₁ dir₁ = readHooks parseJson fs₂ dir₂ := by
  unfold readHooks
  rw [same.found, same.manifest]

theorem exists?_of_read {fs : FileSystem} {dir : Location} {rel : List Name} {bytes : List UInt8}
    (h : fs.read dir rel = .ok bytes) : fs.exists? dir rel := by
  obtain ⟨node, hnode, -⟩ := Except.bind_eq_ok.mp h
  rw [FileSystem.exists?, hnode]
  rfl

/-- The hooks are those of the manifest that can be read, or none. -/
theorem readHooks_of_ok {parseJson : List UInt8 → Except String Value} {fs₁ fs₂ : FileSystem}
    {dir₁ dir₂ : Location} (grows : Grows fs₁ dir₁ fs₂ dir₂) {scripts₁ scripts₂}
    (h₁ : readHooks parseJson fs₁ dir₁ = .ok scripts₁)
    (h₂ : readHooks parseJson fs₂ dir₂ = .ok scripts₂) : scripts₁ = scripts₂ := by
  have hnone : ∀ {fs : FileSystem} {dir : Location} {scripts},
      readHooks parseJson fs dir = .ok scripts →
      (∀ bytes, fs.read dir [packageJson] ≠ .ok bytes) → scripts = [] := by
    intro fs dir scripts h hno
    unfold readHooks at h
    split_ifs at h
    · cases hread : fs.read dir [packageJson] with
      | error e =>
        rw [hread] at h
        cases h
      | ok bytes => exact absurd hread (hno bytes)
    · exact (Except.ok.inj h).symm
  by_cases hmanifest : ∃ bytes, fs₁.read dir₁ [packageJson] = .ok bytes
  · obtain ⟨bytes, hread₁⟩ := hmanifest
    have hread₂ := (grows.manifest bytes).mp hread₁
    unfold readHooks at h₁ h₂
    rw [exists?_of_read hread₁, hread₁] at h₁
    rw [exists?_of_read hread₂, hread₂] at h₂
    exact Except.ok.inj (h₁.symm.trans h₂)
  · have hno₁ : ∀ bytes, fs₁.read dir₁ [packageJson] ≠ .ok bytes := fun bytes hread =>
      hmanifest ⟨bytes, hread⟩
    have hno₂ : ∀ bytes, fs₂.read dir₂ [packageJson] ≠ .ok bytes := fun bytes hread =>
      hmanifest ⟨bytes, (grows.manifest bytes).mpr hread⟩
    rw [hnone h₁ hno₁, hnone h₂ hno₂]

/-- What two reports on the same files agree on. -/
structure Agrees (r₁ r₂ : AnalysisReport) : Prop where
  overallRisk : r₁.overallRisk = r₂.overallRisk
  capabilities : r₁.capabilities = r₂.capabilities
  reasons : ∀ reason, reason ∈ r₁.verdictReasons ↔ reason ∈ r₂.verdictReasons
  findings : r₁.findings.Perm r₂.findings

/-- The second report has at least the risk and the capabilities of the first. -/
structure ReportsMore (r₁ r₂ : AnalysisReport) : Prop where
  overallRisk : r₁.overallRisk.severity ≤ r₂.overallRisk.severity
  capabilities : r₁.capabilities ≤ r₂.capabilities

theorem reportOf_more {analysis : FileAnalysis} {fs₁ fs₂ : FileSystem} {dir₁ dir₂ : Location}
    {order₁ order₂ : List (List Name)} {name version : String}
    {scripts : List (String × String)}
    (h : ∀ rel source, Analysed fs₁ dir₁ order₁ rel source →
      Analysed fs₂ dir₂ order₂ rel source) :
    ReportsMore (reportOf analysis fs₁ dir₁ order₁ name version scripts)
      (reportOf analysis fs₂ dir₂ order₂ name version scripts) := by
  constructor
  · obtain ⟨v₁, hrisk₁, hrank₁⟩ := reportOf_rank analysis fs₁ dir₁ order₁ name version scripts
    obtain ⟨v₂, hrisk₂, hrank₂⟩ := reportOf_rank analysis fs₂ dir₂ order₂ name version scripts
    rw [hrisk₁, hrisk₂]
    apply severity_le_of_rank
    intro k hk hle
    rw [hrank₂ k hk]
    rcases (hrank₁ k hk).mp hle with ⟨rel, source, hanalysed, hfile⟩ | hhooks
    · exact Or.inl ⟨rel, source, h rel source hanalysed, hfile⟩
    · exact Or.inr hhooks
  · rw [reportOf_capabilities_le]
    have hsecond := (reportOf_capabilities_le analysis fs₂ dir₂ order₂ name version scripts _).mp
      le_rfl
    exact ⟨hsecond.1, fun rel source hanalysed => hsecond.2 rel source (h rel source hanalysed)⟩

section Order
variable {analysis : NamedAnalysis} {fs₁ fs₂ : FileSystem} {dir₁ dir₂ : Location}
  {order₁ order₂ : List (List Name)} {name version : String}

theorem analysed_iff (tree : PackageTree fs₁ dir₁) (same : SameFiles fs₁ dir₁ fs₂ dir₂)
    (h₁ : order₁.Perm (fs₁.walkFiles dir₁)) (h₂ : order₂.Perm (fs₂.walkFiles dir₂))
    (rel : List Name) (source : List UInt8) :
    Analysed fs₁ dir₁ order₁ rel source ↔ Analysed fs₂ dir₂ order₂ rel source := by
  unfold Analysed
  rw [h₁.mem_iff, h₂.mem_iff, same.walked]
  apply and_congr_right
  intro hrel
  have hwalked := (same.walked rel).mpr hrel
  rw [source?_eq (tree.ne_nil hwalked) (same.read rel hwalked)]

theorem reportOf_findings (tree : PackageTree fs₁ dir₁)
    (h₁ : order₁.Perm (fs₁.walkFiles dir₁)) (scripts : List (String × String)) :
    (reportOf analysis.toFileAnalysis fs₁ dir₁ order₁ name version scripts).findings =
      dedupFindings none (scripts.map hookFinding) ++ order₁.flatMap fun rel =>
        dedupFindings none (findingsAt analysis.toFileAnalysis fs₁ dir₁ rel) := by
  unfold reportOf
  dsimp only
  rw [foldl_scanFile_findings_eq]
  exact tree.dedup_findings h₁.subset (h₁.nodup_iff.mpr (nodup_walkFiles fs₁ dir₁)) scripts

theorem reportOf_agrees (tree₁ : PackageTree fs₁ dir₁) (tree₂ : PackageTree fs₂ dir₂)
    (same : SameFiles fs₁ dir₁ fs₂ dir₂) (h₁ : order₁.Perm (fs₁.walkFiles dir₁))
    (h₂ : order₂.Perm (fs₂.walkFiles dir₂)) (scripts : List (String × String)) :
    Agrees (reportOf analysis.toFileAnalysis fs₁ dir₁ order₁ name version scripts)
      (reportOf analysis.toFileAnalysis fs₂ dir₂ order₂ name version scripts) := by
  have hiff := analysed_iff tree₁ same h₁ h₂
  have hmore := @reportOf_more analysis.toFileAnalysis fs₁ fs₂ dir₁ dir₂ order₁ order₂ name version
    scripts fun rel source => (hiff rel source).mp
  have hless := @reportOf_more analysis.toFileAnalysis fs₂ fs₁ dir₂ dir₁ order₂ order₁ name version
    scripts fun rel source => (hiff rel source).mpr
  constructor
  · exact RiskLevel.severity_injective (le_antisymm hmore.overallRisk hless.overallRisk)
  · exact le_antisymm hmore.capabilities hless.capabilities
  · intro reason
    rw [mem_reportOf_reasons, mem_reportOf_reasons]
    simp only [hiff]
  · rw [reportOf_findings tree₁ h₁, reportOf_findings tree₂ h₂]
    apply List.Perm.append_left
    -- the same files in another order, and the same findings in each
    have horder : order₁.Perm order₂ := by
      have hnodup₁ := h₁.nodup_iff.mpr (nodup_walkFiles fs₁ dir₁)
      have hnodup₂ := h₂.nodup_iff.mpr (nodup_walkFiles fs₂ dir₂)
      apply (List.perm_ext_iff_of_nodup hnodup₁ hnodup₂).mpr
      intro rel
      rw [h₁.mem_iff, h₂.mem_iff, same.walked]
    have hfile : ∀ rel ∈ order₁, findingsAt analysis.toFileAnalysis fs₁ dir₁ rel =
        findingsAt analysis.toFileAnalysis fs₂ dir₂ rel := by
      intro rel hrel
      have hwalked := h₁.mem_iff.mp hrel
      unfold findingsAt
      rw [source?_eq (tree₁.ne_nil hwalked) (same.read rel hwalked)]
    rw [List.flatMap_congr fun rel hrel => congrArg (dedupFindings none) (hfile rel hrel)]
    exact horder.flatMap_right _

end Order

/-- How the scan of one tree compares with that of another. -/
def Compare (related : AnalysisReport → AnalysisReport → Prop) :
    Except String AnalysisReport → Except String AnalysisReport → Prop
  | .ok r₁, .ok r₂ => related r₁ r₂
  | .error e₁, .error e₂ => e₁ = e₂
  | _, _ => False

/-- The order of a walk changes nothing a report says, and a tree with more files never gets
a better one. -/
theorem scan_order_growth (parseJson : List UInt8 → Except String Value)
    (analysis : NamedAnalysis) (fs₁ fs₂ : FileSystem) (dir₁ dir₂ : Location)
    (tree₁ : PackageTree fs₁ dir₁) (tree₂ : PackageTree fs₂ dir₂) (name version : String)
    (order₁ order₂ : List (List Name)) (h₁ : order₁.Perm (fs₁.walkFiles dir₁))
    (h₂ : order₂.Perm (fs₂.walkFiles dir₂)) :
    (SameFiles fs₁ dir₁ fs₂ dir₂ → Compare Agrees
      (scanInOrder parseJson analysis.toFileAnalysis fs₁ dir₁ order₁ name version)
      (scanInOrder parseJson analysis.toFileAnalysis fs₂ dir₂ order₂ name version)) ∧
    (Grows fs₁ dir₁ fs₂ dir₂ → ∀ r₁ r₂,
      scanInOrder parseJson analysis.toFileAnalysis fs₁ dir₁ order₁ name version = .ok r₁ →
      scanInOrder parseJson analysis.toFileAnalysis fs₂ dir₂ order₂ name version = .ok r₂ →
      ReportsMore r₁ r₂) := by
  constructor
  · intro same
    unfold scanInOrder
    rw [readHooks_eq same]
    cases readHooks parseJson fs₂ dir₂ with
    | error e => exact rfl
    | ok scripts => exact reportOf_agrees tree₁ tree₂ same h₁ h₂ scripts
  · intro grows r₁ r₂ hscan₁ hscan₂
    obtain ⟨scripts₁, hhooks₁, hreport₁⟩ := Except.bind_eq_ok.mp hscan₁
    obtain ⟨scripts₂, hhooks₂, hreport₂⟩ := Except.bind_eq_ok.mp hscan₂
    obtain rfl := readHooks_of_ok grows hhooks₁ hhooks₂
    obtain rfl := Except.ok.inj hreport₁
    obtain rfl := Except.ok.inj hreport₂
    apply reportOf_more
    rintro rel source ⟨hrel, hsource⟩
    have hwalked := h₁.mem_iff.mp hrel
    refine ⟨h₂.mem_iff.mpr (grows.walked rel hwalked), ?_⟩
    rw [← source?_eq (tree₁.ne_nil hwalked) (grows.read rel hwalked)]
    exact hsource

namespace Demo
open Registry

def namedAnalysis : NamedAnalysis where
  toFileAnalysis := analysis
  file_eq source relative f hf := by
    simp only [fileFindings, analysis, List.nil_append, List.cons_append, List.mem_cons,
      List.not_mem_nil, or_false] at hf
    rcases hf with rfl | rfl | rfl <;> rfl

def twoFiles : FileSystem :=
  (package "lib" "index.js").set [asBytes "p", asBytes "lib", asBytes "main.js"]
    (.file newFileMode text)

theorem twoFiles_tree : PackageTree twoFiles [asBytes "p"] := by
  have htext : ∀ rel ∈ twoFiles.walkFiles [asBytes "p"], '\\' ∉ relativePath rel ∧
      [slash].intercalate rel = (relativePath rel).flatMap String.utf8EncodeChar := by
    decide
  constructor
  · decide
  · decide
  · exact fun rel hrel => ⟨relativePath rel, htext rel hrel⟩

end Demo

open Registry Demo in
theorem scan_order_reversed : Compare Agrees
    (scanInOrder noJson analysis twoFiles [asBytes "p"] (twoFiles.walkFiles [asBytes "p"])
      "p" "1.0.0")
    (scanInOrder noJson analysis twoFiles [asBytes "p"]
      (twoFiles.walkFiles [asBytes "p"]).reverse "p" "1.0.0") :=
  (scan_order_growth noJson namedAnalysis twoFiles twoFiles [asBytes "p"] [asBytes "p"]
    twoFiles_tree twoFiles_tree "p" "1.0.0" _ _ (.refl _) (List.reverse_perm _)).1
    ⟨fun _ => Iff.rfl, fun _ _ => rfl, rfl, rfl⟩

end Oath.Analyze
