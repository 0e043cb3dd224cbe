import Mathlib.Data.Char
import Mathlib.Data.List.Lex
import Oath.Library.OrderedMap
import Oath.Library.Outcome
import Oath.Library.Replace
import Oath.Sandbox.Policy
import Oath.Sandbox.Seatbelt

/-! The profile that the launcher of macOS is given for a plan. It is read back as the rules that
were meant, and what they allow is inside of the plan. -/

namespace Oath.Sandbox.MacOs
open Seatbelt SExpressions

/-! ## The profile -/

/-- What `canonicalize` finds at a path. -/
inductive RealPath
  | text (names : Names) (proper : ProperNames names)
  | notText

def displayed (path : Path) : String := String.ofList (Utf8.lossy path)

section Profile
variable (canonicalize : Path → Option RealPath)

def canonicalPath (path : Path) : Except String (List Char) :=
  match canonicalize path with
  | none => .error ("sandbox path does not exist: " ++ displayed path)
  | some .notText => .error ("sandbox path is not valid UTF-8: " ++ displayed path)
  | some (.text names _) => .ok (pathText names)

/-- Sorted and without repetitions. -/
def canonicalPaths (paths : List Path) : Except String (List (List Char)) := do
  let canonical ← paths.mapM (canonicalPath canonicalize)
  .ok (OrderedMap.ofList (canonical.map fun path => (path, ()))).keys

/-- `char::is_control`. -/
def isControl (c : Char) : Bool := c.toNat < 32 || 127 ≤ c.toNat && c.toNat < 160

def seatbeltString (path : List Char) : Except String (List Char) :=
  if path.any isControl then
    .error "sandbox paths containing control characters are unsupported"
  else .ok (Replace.replaceAll ['"'] ['\\', '"'] (Replace.replaceAll ['\\'] ['\\', '\\'] path))

def fixedLines : List String := [
  "(version 1)",
  "(allow default)",
  "(deny file-write*)",
  "(deny file-read-data)",
  "(deny process-exec)",
  "(allow file-read-metadata)",
  "(allow file-read-data (literal \"/\") (subpath \"/System\") (subpath \"/usr\") " ++
    "(subpath \"/bin\") (subpath \"/sbin\") (subpath \"/dev\") " ++
    "(subpath \"/private/var/db/dyld\") (subpath \"/opt/homebrew\") (subpath \"/usr/local\"))",
  "(allow process-exec (subpath \"/System\") (subpath \"/usr\") (subpath \"/bin\") " ++
    "(subpath \"/sbin\") (subpath \"/opt/homebrew\") (subpath \"/usr/local\"))",
  "(deny process-exec (literal \"/usr/bin/security\") (literal \"/usr/bin/osascript\") " ++
    "(literal \"/usr/bin/open\") (literal \"/usr/bin/pbcopy\") (literal \"/usr/bin/pbpaste\"))",
  "(deny mach-lookup (global-name \"com.apple.securityd\") " ++
    "(global-name \"com.apple.security.agent\") (global-name \"com.apple.security.authhost\") " ++
    "(global-name \"com.apple.pboard\") (global-name \"com.apple.trustd.agent\"))",
  "(allow file-write-data (literal \"/dev/null\") (literal \"/dev/tty\"))"]

def networkReadsLine : String :=
  "(allow file-read-data (literal \"/private/etc/hosts\") " ++
    "(literal \"/private/etc/resolv.conf\") (literal \"/private/etc/localtime\") " ++
    "(subpath \"/private/etc/ssl\"))"

def networkLine : NetworkMode → String
  | .deny => "(deny network*)"
  | .inherit => networkReadsLine

def subprocessLines (allowSubprocesses : Bool) : List String :=
  if allowSubprocesses then [] else ["(deny process-fork)"]

/-- `ancestors().skip(1)` without the root directory. -/
def ancestors (path : List Char) : List Names :=
  (pathNames path).inits.filter fun names => names ≠ [] && names ≠ pathNames path

def filterLine (head : String) (path : List Char) : List Char :=
  head.toList ++ path ++ "\"))".toList

def parentLines (parent : Names) : Except String (List (List Char)) := do
  let path ← seatbeltString (pathText parent)
  .ok [filterLine "(allow file-read-metadata (literal \"" path,
    filterLine "(allow file-read-data (literal \"" path]

def readOnlyLines (path : List Char) : Except String (List (List Char)) := do
  let path ← seatbeltString path
  .ok [filterLine "(allow file-read-data (subpath \"" path,
    filterLine "(allow process-exec (subpath \"" path]

def writableLines (path : List Char) : Except String (List (List Char)) := do
  let path ← seatbeltString path
  .ok [filterLine "(allow file-read-data (subpath \"" path,
    filterLine "(allow file-write* (subpath \"" path,
    filterLine "(allow process-exec (subpath \"" path]

def parentsOf (paths : List (List Char)) : List Names :=
  (OrderedMap.ofList ((paths.flatMap ancestors).map fun parent => (parent, ()))).keys

def profile (plan : SandboxPlan) : Except String (List Char) := do
  if plan.version ≠ sandboxPlanVersion then
    .error ("unsupported sandbox plan version " ++ toString plan.version)
  let readOnly ← canonicalPaths canonicalize plan.readOnlyPaths
  let writable ← canonicalPaths canonicalize plan.writablePaths
  let parents ← (parentsOf (readOnly ++ writable)).mapM parentLines
  let readOnly ← readOnly.mapM readOnlyLines
  let writable ← writable.mapM writableLines
  let fixed := fixedLines ++ [networkLine plan.network] ++ subprocessLines plan.allowSubprocesses
  .ok (['\n'].intercalate (fixed.map String.toList ++ parents.flatten ++ readOnly.flatten ++
    writable.flatten) ++ ['\n'])

end Profile

/-! ## The rules that are meant -/

def literal (path : String) : Filter := .literal path.toList
def subpath (path : String) : Filter := .subpath path.toList
def globalName (name : String) : Filter := .globalName name.toList

def allow (operation : String) (filters : List Filter) : Rule := ⟨true, operation.toList, filters⟩
def deny (operation : String) (filters : List Filter) : Rule := ⟨false, operation.toList, filters⟩

def systemReads : List Filter := [literal "/", subpath "/System", subpath "/usr", subpath "/bin",
  subpath "/sbin", subpath "/dev", subpath "/private/var/db/dyld", subpath "/opt/homebrew",
  subpath "/usr/local"]

def networkReads : List Filter := [literal "/private/etc/hosts", literal "/private/etc/resolv.conf",
  literal "/private/etc/localtime", subpath "/private/etc/ssl"]

def fixedRules : List Rule := [
  allow "default" [],
  deny "file-write*" [],
  deny "file-read-data" [],
  deny "process-exec" [],
  allow "file-read-metadata" [],
  allow "file-read-data" systemReads,
  allow "process-exec" [subpath "/System", subpath "/usr", subpath "/bin", subpath "/sbin",
    subpath "/opt/homebrew", subpath "/usr/local"],
  deny "process-exec" [literal "/usr/bin/security", literal "/usr/bin/osascript",
    literal "/usr/bin/open", literal "/usr/bin/pbcopy", literal "/usr/bin/pbpaste"],
  deny "mach-lookup" [globalName "com.apple.securityd", globalName "com.apple.security.agent",
    globalName "com.apple.security.authhost", globalName "com.apple.pboard",
    globalName "com.apple.trustd.agent"],
  allow "file-write-data" [literal "/dev/null", literal "/dev/tty"]]

def networkRule : NetworkMode → Rule
  | .deny => deny "network*" []
  | .inherit => allow "file-read-data" networkReads

def subprocessRules (allowSubprocesses : Bool) : List Rule :=
  if allowSubprocesses then [] else [deny "process-fork" []]

def parentRules (parent : Names) : List Rule :=
  [allow "file-read-metadata" [.literal (pathText parent)],
    allow "file-read-data" [.literal (pathText parent)]]

def readOnlyRules (names : Names) : List Rule :=
  [allow "file-read-data" [.subpath (pathText names)],
    allow "process-exec" [.subpath (pathText names)]]

def writableRules (names : Names) : List Rule :=
  [allow "file-read-data" [.subpath (pathText names)],
    allow "file-write*" [.subpath (pathText names)],
    allow "process-exec" [.subpath (pathText names)]]

def planRules (plan : SandboxPlan) (parents readOnly writable : List Names) : List Rule :=
  fixedRules ++ (networkRule plan.network :: subprocessRules plan.allowSubprocesses) ++
    (parents.flatMap parentRules ++ readOnly.flatMap readOnlyRules ++
      writable.flatMap writableRules)

/-! ## The text -/

section Text
variable {canonicalize : Path → Option RealPath} {paths : List Path} {path text : List Char}

theorem replaceAll_singleton {α : Type} [DecidableEq α] (a : α) (new text : List α) :
    Replace.replaceAll [a] new text = text.flatMap fun b => if b = a then new else [b] := by
  induction text with
  | nil => rfl
  | cons b text ih =>
    rw [List.flatMap_cons]
    split_ifs with hsame
    · have hfront : b :: text = [a] ++ text := by rw [hsame, List.singleton_append]
      rw [hfront, Replace.replaceAll_prefix (List.cons_ne_nil a []), ih]
    · have hnot : ¬ [a] <+: b :: text :=
        fun hstarts => hsame (List.cons_prefix_cons.mp hstarts).1.symm
      rw [Replace.replaceAll_cons hnot, ih, List.singleton_append]

/-- The two replacements are one pass. -/
theorem seatbeltString_ok (h : seatbeltString path = .ok text) : text = escape path := by
  unfold seatbeltString at h
  split_ifs at h
  rw [← Except.ok.inj h, replaceAll_singleton, replaceAll_singleton, List.flatMap_assoc]
  refine List.flatMap_congr fun c _ => ?_
  by_cases hback : c = '\\'
  · subst hback
    decide
  · by_cases hquote : c = '"'
    · subst hquote
      decide
    · simp [hback, hquote]

theorem print_literal (operation : String) (path : List Char) :
    (allow operation [.literal path]).toExpr.print =
      filterLine ("(allow " ++ operation ++ " (literal \"") (escape path) := by
  simp [allow, Rule.toExpr, Filter.toExpr, Expr.print, printRest, filterLine]

theorem print_subpath (operation : String) (path : List Char) :
    (allow operation [.subpath path]).toExpr.print =
      filterLine ("(allow " ++ operation ++ " (subpath \"") (escape path) := by
  simp [allow, Rule.toExpr, Filter.toExpr, Expr.print, printRest, filterLine]

theorem fixedLines_print :
    fixedLines.map String.toList = (versionExpr :: fixedRules.map Rule.toExpr).map Expr.print := by
  simp only [fixedLines, fixedRules, versionExpr, systemReads, allow, deny, literal, subpath,
    globalName, List.map_cons, List.map_nil, Rule.toExpr, Filter.toExpr, String.toList_append,
    -String.reduceAppend]
  -- the characters of a literal are those that it is written with
  repeat rw [String.toList_ofList]
  decide +kernel

theorem networkLine_print (network : NetworkMode) :
    (networkLine network).toList = (networkRule network).toExpr.print := by
  cases network with
  | deny =>
    simp only [networkLine, networkRule, deny, List.map_nil, Rule.toExpr]
    repeat rw [String.toList_ofList]
    decide +kernel
  | inherit =>
    refine (String.toList_append ..).trans ?_
    rw [String.toList_append]
    simp only [networkRule, networkReads, allow, literal, subpath, List.map_cons, List.map_nil,
      Rule.toExpr, Filter.toExpr]
    repeat rw [String.toList_ofList]
    decide +kernel

theorem subprocessLines_print (allowSubprocesses : Bool) :
    (subprocessLines allowSubprocesses).map String.toList =
      (subprocessRules allowSubprocesses).map fun rule => rule.toExpr.print := by
  cases allowSubprocesses <;> decide

/-- Lines that are joined and closed each end in a line break. -/
theorem intercalate_lines {lines : List (List Char)} (hne : lines ≠ []) :
    ['\n'].intercalate lines ++ ['\n'] = lines.flatMap (· ++ ['\n']) := by
  induction lines with
  | nil => exact absurd rfl hne
  | cons line lines ih =>
    cases lines with
    | nil => simp
    | cons next lines =>
      rw [List.flatMap_cons, ← ih (List.cons_ne_nil next lines)]
      simp [List.intercalate, List.intersperse]

theorem printLines_eq (items : List Expr) :
    printLines items = (items.map Expr.print).flatMap (· ++ ['\n']) := by
  rw [printLines, List.flatMap_map]

/-- The lines of one path are those of its rules. -/
theorem mapM_lines {α : Type} {f : α → Except String (List (List Char))} {g : α → List Rule}
    (h : ∀ a lines, f a = .ok lines → lines = (g a).map fun rule => rule.toExpr.print)
    {items : List α} {all : List (List (List Char))} (hall : items.mapM f = .ok all) :
    all.flatten = (items.flatMap g).map fun rule => rule.toExpr.print := by
  induction Except.mapM_eq_ok.mp hall with
  | nil => rfl
  | cons hfirst hrest ih =>
    rw [List.flatten_cons, List.flatMap_cons, List.map_append, h _ _ hfirst,
      ih (Except.mapM_eq_ok.mpr hrest)]

theorem parentLines_ok {parent : Names} {lines : List (List Char)}
    (h : parentLines parent = .ok lines) :
    lines = (parentRules parent).map fun rule => rule.toExpr.print := by
  obtain ⟨escaped, hescaped, hlines⟩ := Except.bind_eq_ok.mp h
  rw [← Except.ok.inj hlines, seatbeltString_ok hescaped, parentRules, List.map_cons, List.map_cons,
    print_literal, print_literal]
  rfl

theorem readOnlyLines_ok {names : Names} {lines : List (List Char)}
    (h : readOnlyLines (pathText names) = .ok lines) :
    lines = (readOnlyRules names).map fun rule => rule.toExpr.print := by
  obtain ⟨escaped, hescaped, hlines⟩ := Except.bind_eq_ok.mp h
  rw [← Except.ok.inj hlines, seatbeltString_ok hescaped, readOnlyRules, List.map_cons,
    List.map_cons, print_subpath, print_subpath]
  rfl

theorem writableLines_ok {names : Names} {lines : List (List Char)}
    (h : writableLines (pathText names) = .ok lines) :
    lines = (writableRules names).map fun rule => rule.toExpr.print := by
  obtain ⟨escaped, hescaped, hlines⟩ := Except.bind_eq_ok.mp h
  rw [← Except.ok.inj hlines, seatbeltString_ok hescaped, writableRules, List.map_cons,
    List.map_cons, List.map_cons, print_subpath, print_subpath, print_subpath]
  rfl

/-- A path of the plan as the file system has it. -/
def Canonical (canonicalize : Path → Option RealPath) (paths : List Path) (names : Names) : Prop :=
  ∃ path ∈ paths, ∃ proper, canonicalize path = some (.text names proper)

theorem Canonical.proper {names : Names} (h : Canonical canonicalize paths names) :
    ProperNames names := by
  obtain ⟨_, -, hproper, -⟩ := h
  exact hproper

theorem canonicalPath_ok : canonicalPath canonicalize path' = .ok text ↔
    ∃ names proper, canonicalize path' = some (.text names proper) ∧ text = pathText names := by
  unfold canonicalPath
  cases canonicalize path' with
  | none => simp
  | some real =>
    cases real with
    | text names proper =>
      constructor
      · intro h
        exact ⟨names, proper, rfl, (Except.ok.inj h).symm⟩
      · rintro ⟨names', proper', heq, rfl⟩
        obtain ⟨rfl⟩ := RealPath.text.inj (Option.some.inj heq)
        rfl
    | notText => simp

theorem mem_sorted {Key : Type} [LinearOrder Key] (items : List Key) (key : Key) :
    key ∈ (OrderedMap.ofList (items.map fun item => (item, ()))).keys ↔ key ∈ items := by
  rw [OrderedMap.mem_keys, OrderedMap.find?_ofList, Option.isSome_map, List.find?_isSome]
  simp

theorem canonicalPaths_ok {texts : List (List Char)}
    (h : canonicalPaths canonicalize paths = .ok texts) :
    ∃ all : List Names, texts = all.map pathText ∧
      ∀ names, names ∈ all ↔ Canonical canonicalize paths names := by
  obtain ⟨found, hfound, hsorted⟩ := Except.bind_eq_ok.mp h
  have hmem (text : List Char) :
      text ∈ texts ↔ ∃ path ∈ paths, canonicalPath canonicalize path = .ok text := by
    rw [← Except.ok.inj hsorted, mem_sorted]
    exact Except.mem_of_mapM_eq_ok hfound
  have hback : ∀ text ∈ texts, pathText (pathNames text) = text := by
    intro text htext
    obtain ⟨path, -, hpath⟩ := (hmem text).mp htext
    obtain ⟨names, hproper, -, rfl⟩ := canonicalPath_ok.mp hpath
    rw [pathNames_pathText hproper]
  refine ⟨texts.map pathNames, ?_, fun names => ⟨fun hnames => ?_, fun hcanonical => ?_⟩⟩
  · rw [List.map_map]
    have hsame : texts.map id = texts.map (pathText ∘ pathNames) :=
      List.map_congr_left fun text htext => (hback text htext).symm
    rwa [List.map_id] at hsame
  · obtain ⟨text, htext, rfl⟩ := List.mem_map.mp hnames
    obtain ⟨path, hmempath, hpath⟩ := (hmem text).mp htext
    obtain ⟨names, hproper, hfind, rfl⟩ := canonicalPath_ok.mp hpath
    rw [pathNames_pathText hproper]
    exact ⟨path, hmempath, hproper, hfind⟩
  · obtain ⟨path, hmempath, hproper, hfind⟩ := hcanonical
    have hpath := canonicalPath_ok.mpr ⟨names, hproper, hfind, rfl⟩
    exact List.mem_map.mpr ⟨_, (hmem _).mpr ⟨path, hmempath, hpath⟩, pathNames_pathText hproper⟩

/-- The directories on the way to a path, without the root directory and the path itself. -/
def IsAncestor (parent names : Names) : Prop := parent <+: names ∧ parent ≠ [] ∧ parent ≠ names

theorem mem_ancestors {names parent : Names} (h : ProperNames names) :
    parent ∈ ancestors (pathText names) ↔ IsAncestor parent names := by
  unfold ancestors
  rw [pathNames_pathText h, List.mem_filter, List.mem_inits]
  simp [IsAncestor]

end Text

/-! ## Soundness -/

section Soundness
variable {canonicalize : Path → Option RealPath} {plan : SandboxPlan} {text : List Char}

/-- A canonical path of the plan, that can be written or not. -/
def PlanPath (canonicalize : Path → Option RealPath) (plan : SandboxPlan) (names : Names) : Prop :=
  Canonical canonicalize plan.readOnlyPaths names ∨ Canonical canonicalize plan.writablePaths names

/-- The three lists of paths are those of the plan. -/
structure PathsOf (canonicalize : Path → Option RealPath) (plan : SandboxPlan)
    (parents readOnly writable : List Names) : Prop where
  parents (names : Names) : names ∈ parents ↔
    ∃ path, PlanPath canonicalize plan path ∧ IsAncestor names path
  readOnly (names : Names) : names ∈ readOnly ↔ Canonical canonicalize plan.readOnlyPaths names
  writable (names : Names) : names ∈ writable ↔ Canonical canonicalize plan.writablePaths names

theorem profile_text (h : profile canonicalize plan = .ok text) :
    ∃ parents readOnly writable, PathsOf canonicalize plan parents readOnly writable ∧
      text = printLines (versionExpr ::
        (planRules plan parents readOnly writable).map Rule.toExpr) := by
  unfold profile at h
  split_ifs at h with hversion
  · cases h
  obtain ⟨readTexts, hread, h1⟩ := Except.bind_eq_ok.mp h
  obtain ⟨writeTexts, hwrite, h2⟩ := Except.bind_eq_ok.mp h1
  obtain ⟨parentLines', hparents, h3⟩ := Except.bind_eq_ok.mp h2
  obtain ⟨readLines, hreadLines, h4⟩ := Except.bind_eq_ok.mp h3
  obtain ⟨writeLines, hwriteLines, h5⟩ := Except.bind_eq_ok.mp h4
  obtain ⟨readOnly, rfl, hreadOnly⟩ := canonicalPaths_ok hread
  obtain ⟨writable, rfl, hwritable⟩ := canonicalPaths_ok hwrite
  refine ⟨parentsOf (readOnly.map pathText ++ writable.map pathText), readOnly, writable,
    ⟨fun names => ?_, hreadOnly, hwritable⟩, ?_⟩
  · unfold parentsOf
    rw [mem_sorted, List.mem_flatMap, ← List.map_append]
    constructor
    · rintro ⟨text, htext, hparent⟩
      obtain ⟨path, hpath, rfl⟩ := List.mem_map.mp htext
      have hplan : PlanPath canonicalize plan path := by
        rcases List.mem_append.mp hpath with hpath | hpath
        · exact Or.inl ((hreadOnly path).mp hpath)
        · exact Or.inr ((hwritable path).mp hpath)
      have hproper : ProperNames path := hplan.elim Canonical.proper Canonical.proper
      exact ⟨path, hplan, (mem_ancestors hproper).mp hparent⟩
    · rintro ⟨path, hplan, hancestor⟩
      have hproper : ProperNames path := hplan.elim Canonical.proper Canonical.proper
      have hpath : path ∈ readOnly ++ writable :=
        List.mem_append.mpr (hplan.imp (hreadOnly path).mpr (hwritable path).mpr)
      exact ⟨pathText path, List.mem_map_of_mem hpath, (mem_ancestors hproper).mpr hancestor⟩
  · rw [List.mapM_map] at hreadLines hwriteLines
    have hparentRules := mapM_lines (fun _ _ => parentLines_ok) hparents
    have hreadRules := mapM_lines (fun _ _ => readOnlyLines_ok) hreadLines
    have hwriteRules := mapM_lines (fun _ _ => writableLines_ok) hwriteLines
    rw [← Except.ok.inj h5, hparentRules, hreadRules, hwriteRules, List.map_append, List.map_append,
      fixedLines_print, List.map_singleton, networkLine_print, subprocessLines_print]
    rw [intercalate_lines (by simp), printLines_eq]
    simp [planRules, List.map_append, List.append_assoc, Function.comp_def]

/-- What the rules for the paths of a plan are about. -/
def pathOperations : List (List Char) := ["file-read-metadata".toList, "file-read-data".toList,
  "process-exec".toList, "file-write*".toList]

section Rules
variable {parents readOnly writable : List Names} {names : Names} {rule : Rule}

theorem parentRules_operation (h : rule ∈ parentRules names) : rule.operation ∈ pathOperations := by
  rcases List.mem_pair.mp h with rfl | rfl
  · exact List.mem_cons_self
  · exact List.mem_cons_of_mem _ List.mem_cons_self

theorem readOnlyRules_operation (h : rule ∈ readOnlyRules names) :
    rule.operation ∈ pathOperations := by
  rcases List.mem_pair.mp h with rfl | rfl
  · exact List.mem_cons_of_mem _ List.mem_cons_self
  · exact List.mem_cons_of_mem _ (List.mem_cons_of_mem _ List.mem_cons_self)

theorem writableRules_operation (h : rule ∈ writableRules names) :
    rule.operation ∈ pathOperations := by
  rcases List.mem_cons.mp h with rfl | h
  · exact List.mem_cons_of_mem _ List.mem_cons_self
  · rcases List.mem_pair.mp h with rfl | rfl
    · exact List.mem_cons_of_mem _ (List.mem_cons_of_mem _
        (List.mem_cons_of_mem _ List.mem_cons_self))
    · exact List.mem_cons_of_mem _ (List.mem_cons_of_mem _ List.mem_cons_self)

def pathRules (parents readOnly writable : List Names) : List Rule :=
  parents.flatMap parentRules ++ readOnly.flatMap readOnlyRules ++ writable.flatMap writableRules

theorem mem_pathRules : rule ∈ pathRules parents readOnly writable ↔
    (∃ names ∈ parents, rule ∈ parentRules names) ∨
      (∃ names ∈ readOnly, rule ∈ readOnlyRules names) ∨
        ∃ names ∈ writable, rule ∈ writableRules names := by
  unfold pathRules
  rw [List.mem_append, List.mem_append, List.mem_flatMap, List.mem_flatMap, List.mem_flatMap,
    or_assoc]

theorem pathRules_operation (h : rule ∈ pathRules parents readOnly writable) :
    rule.operation ∈ pathOperations := by
  rcases mem_pathRules.mp h with ⟨_, -, h⟩ | ⟨_, -, h⟩ | ⟨_, -, h⟩
  · exact parentRules_operation h
  · exact readOnlyRules_operation h
  · exact writableRules_operation h

theorem subprocessRules_operation {allowSubprocesses : Bool}
    (h : rule ∈ subprocessRules allowSubprocesses) : rule = deny "process-fork" [] := by
  unfold subprocessRules at h
  split_ifs at h
  · exact absurd h List.not_mem_nil
  · exact List.mem_singleton.mp h

theorem isWord_planRules (plan : SandboxPlan) (parents readOnly writable : List Names) :
    ∀ rule ∈ planRules plan parents readOnly writable, rule.IsWord := by
  have hfixed : ∀ rule ∈ fixedRules, rule.IsWord := by decide +kernel
  have hnetwork (network : NetworkMode) : (networkRule network).IsWord := by
    cases network <;> decide +kernel
  have hfork : (deny "process-fork" []).IsWord := by decide +kernel
  have hplain : ∀ operation ∈ pathOperations, operation ≠ [] ∧
      operation.all (fun c => decide (IsPlain c)) := by decide +kernel
  have hpath : ∀ operation ∈ pathOperations, operation ≠ [] ∧ ∀ c ∈ operation, IsPlain c :=
    fun operation hmem => ⟨(hplain operation hmem).1, plain_of_all (hplain operation hmem).2⟩
  intro rule hrule
  rcases List.mem_append.mp hrule with hfront | hback
  · rcases List.mem_append.mp hfront with hrule | hrule
    · exact hfixed rule hrule
    · rcases List.mem_cons.mp hrule with rfl | hrule
      · exact hnetwork _
      · exact subprocessRules_operation hrule ▸ hfork
  · exact hpath _ (pathRules_operation hback)

/-- What is left of the rules behind one of the fixed ones. -/
theorem mem_behind {count : ℕ} {network : NetworkMode} {allowSubprocesses : Bool}
    (h : rule ∈ fixedRules.drop count ++
      (networkRule network :: subprocessRules allowSubprocesses) ++
        pathRules parents readOnly writable) :
    rule ∈ fixedRules.drop count ∨ rule = networkRule network ∨ rule = deny "process-fork" [] ∨
      rule ∈ pathRules parents readOnly writable := by
  rcases List.mem_append.mp h with h | h
  · rcases List.mem_append.mp h with h | h
    · exact Or.inl h
    · rcases List.mem_cons.mp h with h | h
      · exact Or.inr (Or.inl h)
      · exact Or.inr (Or.inr (Or.inl (subprocessRules_operation h)))
  · exact Or.inr (Or.inr (Or.inr h))

end Rules

/-! ## What is allowed -/

section Verdicts
variable {parents readOnly writable : List Names} {request : Request}

def devices : Rule := allow "file-write-data" [literal "/dev/null", literal "/dev/tty"]

def fileWrite : List Char := "file-write".toList
def fileReadData : List Char := "file-read-data".toList
def networkFamily : List Char := "network".toList

/-- The rules between which a request is decided. -/
def rulesBehind (count : ℕ) (plan : SandboxPlan) (parents readOnly writable : List Names) :
    List Rule :=
  fixedRules.drop count ++ (networkRule plan.network :: subprocessRules plan.allowSubprocesses) ++
    pathRules parents readOnly writable

theorem allowed_write (hfamily : fileWrite <+: request.operation)
    (h : Allowed (planRules plan parents readOnly writable) request) :
    ∃ names, request.target = .path names ∧ (names = ["dev".toList, "null".toList] ∨
      names = ["dev".toList, "tty".toList] ∨
        ∃ base ∈ writable, pathNames (pathText base) <+: names) := by
  have hdenied : (deny "file-write*" []).matches request := by
    have hstar : "file-write*".toList = fileWrite ++ ['*'] := by decide
    have hcovers := matchesOperation_family hfamily
    rw [← hstar] at hcovers
    exact Bool.and_eq_true_iff.mpr ⟨hcovers, rfl⟩
  have hsplit : Allowed ([allow "default" []] ++ deny "file-write*" [] ::
      rulesBehind 2 plan parents readOnly writable) request := h
  obtain ⟨rule, hrule, hmatches, hallow⟩ := exists_of_allowed_behind hdenied rfl hsplit
  have hapart : ¬ rule.ApartFrom fileWrite := fun hapart => hapart.not_matches hfamily hmatches
  have hread : (allow "file-read-data" []).ApartFrom fileWrite := by decide +kernel
  have hmetadata : (allow "file-read-metadata" []).ApartFrom fileWrite := by decide +kernel
  have hexec : (allow "process-exec" []).ApartFrom fileWrite := by decide +kernel
  rcases mem_behind hrule with hrule | rfl | rfl | hrule
  · -- the devices are the only targets without a path of the plan
    have hfixed : ∀ rule ∈ fixedRules.drop 2, rule.ApartFrom fileWrite ∨ rule = devices := by
      decide +kernel
    obtain rfl := (hfixed rule hrule).resolve_left hapart
    obtain ⟨filter, hfilter, htarget⟩ := exists_filter hmatches (List.cons_ne_nil _ _)
    rcases List.mem_pair.mp hfilter with rfl | rfl
    · exact ⟨_, literal_matches htarget, Or.inl (by decide +kernel)⟩
    · exact ⟨_, literal_matches htarget, Or.inr (Or.inl (by decide +kernel))⟩
  · have hnetwork : ∀ network, (networkRule network).ApartFrom fileWrite := by
      intro network
      cases network <;> decide +kernel
    exact absurd (hnetwork _) hapart
  · exact absurd hallow Bool.false_ne_true
  · rcases mem_pathRules.mp hrule with ⟨names, -, hrule⟩ | ⟨names, -, hrule⟩ |
      ⟨names, hnames, hrule⟩
    · rcases List.mem_pair.mp hrule with rfl | rfl
      · exact absurd hmetadata hapart
      · exact absurd hread hapart
    · rcases List.mem_pair.mp hrule with rfl | rfl
      · exact absurd hread hapart
      · exact absurd hexec hapart
    · rcases List.mem_cons.mp hrule with rfl | hrule
      · exact absurd hread hapart
      · rcases List.mem_pair.mp hrule with rfl | rfl
        · obtain ⟨filter, hfilter, htarget⟩ := exists_filter hmatches (List.cons_ne_nil _ _)
          rw [List.mem_singleton.mp hfilter] at htarget
          obtain ⟨found, hfound, hunder⟩ := subpath_matches htarget
          exact ⟨found, hfound, Or.inr (Or.inr ⟨names, hnames, hunder⟩)⟩
        · exact absurd hexec hapart

/-- The paths that every profile of this kind lets be read. -/
def listedReads : NetworkMode → List Filter
  | .deny => systemReads
  | .inherit => systemReads ++ networkReads

theorem allowed_read (hfamily : request.operation = fileReadData)
    (h : Allowed (planRules plan parents readOnly writable) request) :
    ∃ names, request.target = .path names ∧
      ((∃ filter ∈ listedReads plan.network, filter.matches (.path names)) ∨
        (∃ base, (base ∈ readOnly ∨ base ∈ writable) ∧ pathNames (pathText base) <+: names) ∨
          ∃ parent ∈ parents, names = pathNames (pathText parent)) := by
  have hprefix : fileReadData <+: request.operation := hfamily ▸ List.prefix_rfl
  have hdenied : (deny "file-read-data" []).matches request := by
    unfold Rule.matches matchesOperation
    rw [hfamily]
    rfl
  have hsplit : Allowed ([allow "default" [], deny "file-write*" []] ++ deny "file-read-data" [] ::
      rulesBehind 3 plan parents readOnly writable) request := h
  obtain ⟨rule, hrule, hmatches, hallow⟩ := exists_of_allowed_behind hdenied rfl hsplit
  have hapart : ¬ rule.ApartFrom fileReadData := fun hapart => hapart.not_matches hprefix hmatches
  have hmetadata : (allow "file-read-metadata" []).ApartFrom fileReadData := by decide +kernel
  have hexec : (allow "process-exec" []).ApartFrom fileReadData := by decide +kernel
  have hwrite : (allow "file-write*" []).ApartFrom fileReadData := by decide +kernel
  have hlisted : ∀ filters,
      (∀ filter ∈ filters, filter ∈ listedReads plan.network ∧ filter.isPath) →
      rule.filters = filters → filters ≠ [] → ∃ names, request.target = .path names ∧
        ∃ filter ∈ listedReads plan.network, filter.matches (.path names) := by
    rintro filters hall rfl hne
    obtain ⟨filter, hfilter, htarget⟩ := exists_filter hmatches hne
    obtain ⟨names, hnames⟩ := exists_names (hall filter hfilter).2 htarget
    exact ⟨names, hnames, filter, (hall filter hfilter).1, hnames ▸ htarget⟩
  have hunder : ∀ base, rule.filters = [.subpath (pathText base)] → ∃ names,
      request.target = .path names ∧ pathNames (pathText base) <+: names := by
    intro base hfilters
    obtain ⟨filter, hfilter, htarget⟩ := exists_filter hmatches (hfilters ▸ List.cons_ne_nil _ _)
    rw [hfilters] at hfilter
    rw [List.mem_singleton.mp hfilter] at htarget
    exact subpath_matches htarget
  rcases mem_behind hrule with hrule | rfl | rfl | hrule
  · have hfixed : ∀ rule ∈ fixedRules.drop 3,
        rule.ApartFrom fileReadData ∨ rule = allow "file-read-data" systemReads := by
      decide +kernel
    obtain rfl := (hfixed rule hrule).resolve_left hapart
    have hpaths : ∀ filter ∈ systemReads, filter.isPath := by decide
    obtain ⟨names, hnames, hfilter⟩ := hlisted systemReads (fun filter hfilter =>
      ⟨by cases plan.network <;> simp [listedReads, hfilter], hpaths filter hfilter⟩) rfl
      (List.cons_ne_nil _ _)
    exact ⟨names, hnames, Or.inl hfilter⟩
  · cases hnetwork : plan.network with
    | deny =>
      have hother : (networkRule .deny).ApartFrom fileReadData := by decide +kernel
      rw [hnetwork] at hapart
      exact absurd hother hapart
    | inherit =>
      have hpaths : ∀ filter ∈ networkReads, filter.isPath := by decide
      rw [← hnetwork]
      obtain ⟨names, hnames, hfilter⟩ := hlisted networkReads (fun filter hfilter =>
        ⟨by simp [hnetwork, listedReads, hfilter], hpaths filter hfilter⟩)
        (by rw [hnetwork]; rfl) (List.cons_ne_nil _ _)
      exact ⟨names, hnames, Or.inl hfilter⟩
  · exact absurd hallow Bool.false_ne_true
  · rcases mem_pathRules.mp hrule with ⟨names, hnames, hrule⟩ | ⟨names, hnames, hrule⟩ |
      ⟨names, hnames, hrule⟩
    · rcases List.mem_pair.mp hrule with rfl | rfl
      · exact absurd hmetadata hapart
      · obtain ⟨filter, hfilter, htarget⟩ := exists_filter hmatches (List.cons_ne_nil _ _)
        rw [List.mem_singleton.mp hfilter] at htarget
        exact ⟨_, literal_matches htarget, Or.inr (Or.inr ⟨names, hnames, rfl⟩)⟩
    · rcases List.mem_pair.mp hrule with rfl | rfl
      · obtain ⟨found, hfound, hbelow⟩ := hunder names rfl
        exact ⟨found, hfound, Or.inr (Or.inl ⟨names, Or.inl hnames, hbelow⟩)⟩
      · exact absurd hexec hapart
    · rcases List.mem_cons.mp hrule with rfl | hrule
      · obtain ⟨found, hfound, hbelow⟩ := hunder names rfl
        exact ⟨found, hfound, Or.inr (Or.inl ⟨names, Or.inr hnames, hbelow⟩)⟩
      · rcases List.mem_pair.mp hrule with rfl | rfl
        · exact absurd hwrite hapart
        · exact absurd hexec hapart

/-- Only the first rule and the one for the network are about the network. -/
theorem network_decision (hfamily : networkFamily <+: request.operation) :
    decision (planRules plan parents readOnly writable) request =
      some (decide (plan.network ≠ .deny)) := by
  have hpaths : ∀ rule ∈ subprocessRules plan.allowSubprocesses ++
      pathRules parents readOnly writable, ¬ rule.matches request := by
    have hfork : (deny "process-fork" []).ApartFrom networkFamily := by decide +kernel
    have hoperations : ∀ operation ∈ pathOperations,
        Rule.ApartFrom ⟨true, operation, []⟩ networkFamily := by decide +kernel
    intro rule hrule
    rcases List.mem_append.mp hrule with hrule | hrule
    · rw [subprocessRules_operation hrule]
      exact hfork.not_matches hfamily
    · have hapart : rule.ApartFrom networkFamily := hoperations _ (pathRules_operation hrule)
      exact hapart.not_matches hfamily
  have hsplit : planRules plan parents readOnly writable =
      fixedRules ++ [networkRule plan.network] ++
        (subprocessRules plan.allowSubprocesses ++ pathRules parents readOnly writable) := by
    unfold planRules pathRules
    simp only [List.append_assoc, List.cons_append, List.nil_append]
  rw [hsplit, decision_append, decision_eq_none hpaths, Option.none_or]
  cases plan.network with
  | deny =>
    have hmatches : (networkRule .deny).matches request := by
      have hstar : "network*".toList = networkFamily ++ ['*'] := by decide
      have hcovers := matchesOperation_family hfamily
      rw [← hstar] at hcovers
      exact Bool.and_eq_true_iff.mpr ⟨hcovers, rfl⟩
    rw [decision_of_matches hmatches]
    rfl
  | inherit =>
    have hothers : ∀ rule ∈ fixedRules.drop 1 ++ [networkRule .inherit],
        rule.ApartFrom networkFamily := by decide +kernel
    have hdefault : (allow "default" []).matches request := rfl
    have hfirst : fixedRules ++ [networkRule .inherit] = ([] ++ [allow "default" []]) ++
      (fixedRules.drop 1 ++ [networkRule .inherit]) := rfl
    rw [hfirst, decision_append, decision_of_matches hdefault,
      decision_eq_none fun rule hrule => (hothers rule hrule).not_matches hfamily]
    rfl

end Verdicts

/-- The text of a profile is read back as the rules that were meant, and what they allow to write
and to read lies inside of the plan. -/
structure ProfileSound (canonicalize : Path → Option RealPath) (plan : SandboxPlan)
    (rules : List Rule) : Prop where
  meant : ∃ parents readOnly writable, PathsOf canonicalize plan parents readOnly writable ∧
    rules = planRules plan parents readOnly writable
  writes (request : Request) : fileWrite <+: request.operation → Allowed rules request →
    ∃ names, request.target = .path names ∧ (names = ["dev".toList, "null".toList] ∨
      names = ["dev".toList, "tty".toList] ∨
        ∃ base, Canonical canonicalize plan.writablePaths base ∧ base <+: names)
  reads (request : Request) : request.operation = fileReadData → Allowed rules request →
    ∃ names, request.target = .path names ∧
      ((∃ filter ∈ listedReads plan.network, filter.matches (.path names)) ∨
        (∃ base, PlanPath canonicalize plan base ∧ base <+: names) ∨
          ∃ path, PlanPath canonicalize plan path ∧ IsAncestor names path)
  network (request : Request) : networkFamily <+: request.operation →
    (decision rules request = some false ↔ plan.network = .deny)

theorem profile_sound (h : profile canonicalize plan = .ok text) :
    ∃ rules, readProfile text = some rules ∧ ProfileSound canonicalize plan rules := by
  obtain ⟨parents, readOnly, writable, hpaths, rfl⟩ := profile_text h
  have hproper : ∀ path, PlanPath canonicalize plan path → ProperNames path :=
    fun path hpath => hpath.elim Canonical.proper Canonical.proper
  refine ⟨planRules plan parents readOnly writable,
    readProfile_printLines (isWord_planRules plan parents readOnly writable),
    ⟨parents, readOnly, writable, hpaths, rfl⟩, ?_, ?_, ?_⟩
  · intro request hfamily hallowed
    obtain ⟨names, htarget, hwhere⟩ := allowed_write hfamily hallowed
    refine ⟨names, htarget, hwhere.imp_right fun hwhere => hwhere.imp_right ?_⟩
    rintro ⟨base, hbase, hbelow⟩
    have hcanonical := (hpaths.writable base).mp hbase
    rw [pathNames_pathText hcanonical.proper] at hbelow
    exact ⟨base, hcanonical, hbelow⟩
  · intro request hfamily hallowed
    obtain ⟨names, htarget, hwhere⟩ := allowed_read hfamily hallowed
    refine ⟨names, htarget, hwhere.imp_right fun hwhere => ?_⟩
    rcases hwhere with ⟨base, hbase, hbelow⟩ | ⟨parent, hparent, rfl⟩
    · have hplan : PlanPath canonicalize plan base :=
        hbase.imp (hpaths.readOnly base).mp (hpaths.writable base).mp
      rw [pathNames_pathText (hproper base hplan)] at hbelow
      exact Or.inl ⟨base, hplan, hbelow⟩
    · obtain ⟨path, hplan, hancestor⟩ := (hpaths.parents parent).mp hparent
      have hnames : ProperNames parent :=
        fun name hname => hproper path hplan name (hancestor.1.subset hname)
      rw [pathNames_pathText hnames]
      exact Or.inr ⟨path, hplan, hancestor⟩
  · intro request hfamily
    rw [network_decision hfamily, Option.some.injEq, decide_eq_false_iff_not, not_not]

end Soundness

/-! ## A directory with a quote in its name -/

def quotedNames : Names := ["tmp".toList, "a\"b".toList]

def quotedPlan : SandboxPlan := .strict "test" [47, 116, 109, 112, 47, 97, 34, 98]

theorem properNames_quoted : ProperNames quotedNames := by
  unfold ProperNames
  decide

def quotedFiles (path : Path) : Option RealPath :=
  if path = quotedPlan.workdir then some (.text quotedNames properNames_quoted) else none

theorem profile_sound_quoted : ∃ text rules, profile quotedFiles quotedPlan = .ok text ∧
    readProfile text = some rules ∧ ProfileSound quotedFiles quotedPlan rules := by
  have hprofile : ∃ text, profile quotedFiles quotedPlan = .ok text := ⟨_, rfl⟩
  obtain ⟨text, htext⟩ := hprofile
  obtain ⟨rules, hrules, hsound⟩ := profile_sound htext
  exact ⟨text, rules, htext, hrules, hsound⟩

end Oath.Sandbox.MacOs
