import Mathlib.Data.Bool.AllAny
import Mathlib.Data.List.Basic
import Oath.Library.UnixPath
import Oath.Library.Utf8
import Oath.Registry.Digest

/-! The package directories of a workspace: those that its patterns name in a tree of directories,
without those that a negated pattern names. -/

namespace Oath.Workspace
open Unix Registry

/-! ## The tree and its patterns -/

/-- What stands at a location, with symbolic links followed. -/
structure Tree where
  isDir : Location → Bool
  exists? : Location → Bool

/-- The matching of patterns, which is not part of this program. -/
structure Glob (Pattern : Type) where
  compile : List Char → Option Pattern
  /-- The locations a pattern names in a tree, and an error for each unreadable directory. -/
  listed : Tree → Pattern → List (Option Location)
  accepts : Pattern → List Char → Bool

/-- `to_string_lossy` of the path of a location. -/
def pathText (location : Location) : List Char :=
  Utf8.lossy (slash :: [slash].intercalate location)

/-- A relative pattern is put behind the root. -/
def absolutePattern (root : Location) (pattern : List Char) : List Char :=
  if pattern.head? = some '/' then pattern
  else if root = [] then '/' :: pattern
  else pathText root ++ '/' :: pattern

def isNegated (pattern : List Char) : Bool := pattern.head? = some '!'

/-- `Vec::dedup`. -/
def dedup {α : Type} [DecidableEq α] : List α → List α
  | a :: b :: rest => if a = b then dedup (b :: rest) else a :: dedup (b :: rest)
  | rest => rest

def packageJsonName : Name := asBytes "package.json"

def nodeModulesName : Name := asBytes "node_modules"

section Expand
variable {Pattern : Type} (glob : Glob Pattern) (tree : Tree) (root : Location)
  (patterns : List (List Char))

/-- A negated pattern that is none is dropped. -/
def negations : List Pattern :=
  (patterns.filter isNegated).filterMap fun pattern =>
    glob.compile (absolutePattern root (pattern.dropWhile (· = '!')))

/-- The test for `node_modules` is made for each of the negations, and so for none of none. -/
def isSkipped (entry : Location) : Bool :=
  (negations glob root patterns).any fun negation =>
    glob.accepts negation (pathText entry) || "node_modules".toList <:+: pathText entry

def entriesOf (pattern : List Char) : List Location :=
  match glob.compile (absolutePattern root pattern) with
  | none => []
  | some compiled => ((glob.listed tree compiled).filterMap id).filter fun entry =>
    tree.isDir entry && !isSkipped glob root patterns entry &&
      tree.exists? (entry ++ [packageJsonName])

def expandWorkspaceGlobs : List Location :=
  let results := (patterns.filter fun pattern => !isNegated pattern).flatMap
    (entriesOf glob tree root patterns)
  dedup (results.mergeSort fun a b => a ≤ b)

end Expand

/-! ## The packages of a workspace -/

/-- The location is below a directory of installed modules. -/
def InNodeModules (location : Location) : Prop :=
  ∃ above below, location = above ++ nodeModulesName :: below ∧ below ≠ []

section Packages
variable {Pattern : Type} (glob : Glob Pattern) (Matches : Pattern → Location → Prop) (tree : Tree)
  (root : Location) (patterns : List (List Char)) (dir : Location)

/-- A pattern that is not negated names the directory. -/
def Named : Prop :=
  ∃ pattern ∈ patterns, isNegated pattern = false ∧
    ∃ compiled, glob.compile (absolutePattern root pattern) = some compiled ∧ Matches compiled dir

def Negated : Prop := ∃ negation ∈ negations glob root patterns, Matches negation dir

/-- A directory with a `package.json` that a pattern names. -/
structure IsCandidate : Prop where
  isDir : tree.isDir dir
  packageJson : tree.exists? (dir ++ [packageJsonName])
  named : Named glob Matches root patterns dir

/-- Each directory is among what a pattern lists exactly when the pattern matches it. -/
def ListsMatches : Prop :=
  ∀ compiled dir, tree.isDir dir → (some dir ∈ glob.listed tree compiled ↔ Matches compiled dir)

/-- Without a negation nothing keeps a directory of installed modules out. With one, all that have
`node_modules` anywhere in their path are skipped, which must be those inside of such a directory or
negated ones, and the negations must accept the text of the path where they match the location. -/
structure SkipsExactly : Prop where
  unguarded : negations glob root patterns = [] → ¬InNodeModules dir
  guarded : negations glob root patterns ≠ [] →
    ((∃ negation ∈ negations glob root patterns, glob.accepts negation (pathText dir)) ∨
        "node_modules".toList <:+: pathText dir ↔
      Negated glob Matches root patterns dir ∨ InNodeModules dir)

variable {glob Matches tree root patterns dir}

theorem mem_dedup {α : Type} [DecidableEq α] {x : α} (xs : List α) : x ∈ dedup xs ↔ x ∈ xs := by
  induction xs using dedup.induct with
  | case1 a rest ih =>
    rw [dedup, if_pos rfl, ih]
    simp
  | case2 a b rest hne ih => rw [dedup, if_neg hne, List.mem_cons, List.mem_cons, ih]
  | case3 xs hshort =>
    rw [dedup]
    exact hshort

theorem mem_entriesOf {pattern : List Char} :
    dir ∈ entriesOf glob tree root patterns pattern ↔
      (∃ compiled, glob.compile (absolutePattern root pattern) = some compiled ∧
        some dir ∈ glob.listed tree compiled) ∧
      tree.isDir dir ∧ tree.exists? (dir ++ [packageJsonName]) ∧
        ¬isSkipped glob root patterns dir := by
  unfold entriesOf
  cases glob.compile (absolutePattern root pattern) with
  | none => simp
  | some compiled =>
    simp only [List.mem_filter, List.mem_filterMap, id_eq, exists_eq_right, Bool.and_eq_true,
      Bool.not_eq_true', Bool.not_eq_true, Option.some_inj, exists_eq_left']
    tauto

/-- The directories are those that are named, each unless it is skipped. -/
theorem mem_expandWorkspaceGlobs (hglob : ListsMatches glob Matches tree) :
    dir ∈ expandWorkspaceGlobs glob tree root patterns ↔
      IsCandidate glob Matches tree root patterns dir ∧ ¬isSkipped glob root patterns dir := by
  rw [expandWorkspaceGlobs, mem_dedup, List.mem_mergeSort, List.mem_flatMap]
  constructor
  · rintro ⟨pattern, hpattern, hentry⟩
    obtain ⟨⟨compiled, hcompiled, hlisted⟩, hdir, hpackage, hskipped⟩ := mem_entriesOf.mp hentry
    obtain ⟨hmem, hpositive⟩ := List.mem_filter.mp hpattern
    have hmatches := (hglob compiled dir hdir).mp hlisted
    rw [Bool.not_eq_true'] at hpositive
    exact ⟨⟨hdir, hpackage, pattern, hmem, hpositive, compiled, hcompiled, hmatches⟩, hskipped⟩
  · rintro ⟨⟨hdir, hpackage, pattern, hmem, hpositive, compiled, hcompiled, hmatches⟩, hskipped⟩
    have hlisted := (hglob compiled dir hdir).mpr hmatches
    refine ⟨pattern, List.mem_filter.mpr ⟨hmem, ?_⟩, mem_entriesOf.mpr
      ⟨⟨compiled, hcompiled, hlisted⟩, hdir, hpackage, hskipped⟩⟩
    rw [Bool.not_eq_true']
    exact hpositive

theorem isSkipped_nil (h : negations glob root patterns = []) :
    ¬isSkipped glob root patterns dir := by
  rw [isSkipped, h]
  exact Bool.false_ne_true

theorem isSkipped_iff (h : negations glob root patterns ≠ []) :
    isSkipped glob root patterns dir ↔
      (∃ negation ∈ negations glob root patterns, glob.accepts negation (pathText dir)) ∨
        "node_modules".toList <:+: pathText dir := by
  obtain ⟨first, hfirst⟩ := List.exists_mem_of_ne_nil _ h
  rw [isSkipped, List.any_eq_true]
  constructor
  · rintro ⟨negation, hmem, hskip⟩
    rcases Bool.or_eq_true_iff.mp hskip with haccepts | hinfix
    · exact Or.inl ⟨negation, hmem, haccepts⟩
    · exact Or.inr (of_decide_eq_true hinfix)
  · rintro (⟨negation, hmem, haccepts⟩ | hinfix)
    · exact ⟨negation, hmem, Bool.or_eq_true_iff.mpr (Or.inl haccepts)⟩
    · exact ⟨first, hfirst, Bool.or_eq_true_iff.mpr (Or.inr (decide_eq_true hinfix))⟩

theorem skipsExactly_iff : SkipsExactly glob Matches root patterns dir ↔
    (isSkipped glob root patterns dir ↔
      Negated glob Matches root patterns dir ∨ InNodeModules dir) := by
  by_cases hnone : negations glob root patterns = []
  · have hnegated : ¬Negated glob Matches root patterns dir := by
      rintro ⟨negation, hmem, -⟩
      rw [hnone] at hmem
      exact List.not_mem_nil hmem
    rw [iff_false_left (isSkipped_nil hnone), not_or]
    constructor
    · intro h
      exact ⟨hnegated, h.unguarded hnone⟩
    · intro h
      exact ⟨fun _ => h.2, fun hne => absurd hnone hne⟩
  · rw [isSkipped_iff hnone]
    exact ⟨fun h => h.guarded hnone, fun h => ⟨fun heq => absurd heq hnone, fun _ => h⟩⟩

/-- The directories that are found are exactly those that a pattern names and no negated one, and
none inside of a directory of installed modules, if and only if of all that are named the right ones
are skipped. -/
theorem expandWorkspaceGlobs_exact_iff (hglob : ListsMatches glob Matches tree) :
    (∀ dir, dir ∈ expandWorkspaceGlobs glob tree root patterns ↔
      IsCandidate glob Matches tree root patterns dir ∧
        ¬Negated glob Matches root patterns dir ∧ ¬InNodeModules dir) ↔
      ∀ dir, IsCandidate glob Matches tree root patterns dir →
        SkipsExactly glob Matches root patterns dir := by
  refine forall_congr' fun dir => ?_
  rw [mem_expandWorkspaceGlobs hglob, skipsExactly_iff, ← not_or, and_congr_right_iff]
  exact imp_congr_right fun _ => not_iff_not

end Packages

/-! ## Patterns without special characters -/

section Literal

/-- Such a pattern names the one location that it is the path of. -/
def literalGlob (known : List Location) : Glob (List Char) where
  compile pattern := some pattern
  listed _ pattern := (known.filter fun location => pathText location = pattern).map some
  accepts pattern text := pattern = text

def literalTree (known : List Location) : Tree where
  isDir location := known.contains location
  exists? location := (known.flatMap fun dir => [dir, dir ++ [packageJsonName]]).contains location

theorem literalGlob_lists (known : List Location) :
    ListsMatches (literalGlob known) (fun pattern dir => pathText dir = pattern)
      (literalTree known) := by
  intro pattern dir hdir
  have hknown : dir ∈ known := List.contains_iff_mem.mp hdir
  simp [literalGlob, hknown]

def workRoot : Location := [asBytes "w"]

def appDir : Location := [asBytes "w", asBytes "app"]

def libDir : Location := [asBytes "w", asBytes "app", nodeModulesName, asBytes "lib"]

/-- One package and no negation. -/
theorem expandWorkspaceGlobs_app :
    appDir ∈ expandWorkspaceGlobs (literalGlob [appDir]) (literalTree [appDir]) workRoot
        ["app".toList] ↔
      IsCandidate (literalGlob [appDir]) (fun pattern dir => pathText dir = pattern)
          (literalTree [appDir]) workRoot ["app".toList] appDir ∧
        ¬Negated (literalGlob [appDir]) (fun pattern dir => pathText dir = pattern) workRoot
          ["app".toList] appDir ∧ ¬InNodeModules appDir := by
  refine (expandWorkspaceGlobs_exact_iff (literalGlob_lists [appDir])).mpr (fun dir hdir => ?_)
    appDir
  have happ : dir = appDir := List.mem_singleton.mp (List.contains_iff_mem.mp hdir.isDir)
  have hnone : negations (literalGlob [appDir]) workRoot ["app".toList] = [] := by decide
  refine ⟨fun _ => ?_, fun hne => absurd hnone hne⟩
  rintro ⟨above, below, heq, -⟩
  have hmem : nodeModulesName ∈ appDir := by
    rw [← happ, heq]
    exact List.mem_append_right _ List.mem_cons_self
  exact absurd hmem (by decide)

/-- Without a negation a package that is installed is one of the workspace. -/
theorem expandWorkspaceGlobs_lib :
    libDir ∈ expandWorkspaceGlobs (literalGlob [libDir]) (literalTree [libDir]) workRoot
        ["app/node_modules/lib".toList] ∧
      InNodeModules libDir := by
  constructor
  · refine (mem_expandWorkspaceGlobs (literalGlob_lists [libDir])).mpr ⟨⟨?_, ?_, ?_⟩, ?_⟩
    · decide
    · decide
    · exact ⟨_, List.mem_singleton_self _, rfl, _, rfl, by decide⟩
    · exact isSkipped_nil (by decide)
  · exact ⟨[asBytes "w", asBytes "app"], [asBytes "lib"], rfl, by decide⟩

end Literal

end Oath.Workspace
