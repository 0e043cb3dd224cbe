import Mathlib.Data.List.Infix
import Oath.Library.SExpressions

/-! The rules of Seatbelt: how they are written as S-expressions, how they are read, and what they
decide. The last rule that matches a request decides it. -/

namespace Oath.Sandbox.Seatbelt
open SExpressions

/-! ## Paths -/

/-- The names on the way from the root directory. -/
abbrev Names := List (List Char)

def pathText (names : Names) : List Char := '/' :: ['/'].intercalate names

def pathNames (text : List Char) : Names := (text.splitOn '/').filter (· ≠ [])

def ProperNames (names : Names) : Prop := ∀ name ∈ names, name ≠ [] ∧ '/' ∉ name

theorem pathNames_pathText {names : Names} (h : ProperNames names) :
    pathNames (pathText names) = names := by
  have hroot : (pathText names).splitOn '/' = [] :: (['/'].intercalate names).splitOn '/' :=
    List.splitOn_append_cons_self [] _
  unfold pathNames
  rw [hroot, List.filter_cons_of_neg (by decide)]
  cases names with
  | nil => rfl
  | cons name names =>
    have hslash : ∀ other ∈ name :: names, '/' ∉ other := fun other hother => (h other hother).2
    rw [List.splitOn_intercalate '/' hslash (List.cons_ne_nil _ _)]
    exact List.filter_eq_self.mpr fun other hother => decide_eq_true (h other hother).1

/-! ## Rules -/

inductive Filter
  | literal (path : List Char)
  | subpath (path : List Char)
  | globalName (name : List Char)
deriving DecidableEq

/-- Without filters a rule is about every target. -/
structure Rule where
  allow : Bool
  operation : List Char
  filters : List Filter
deriving DecidableEq

inductive Target
  | path (names : Names)
  | service (name : List Char)
  | other

structure Request where
  operation : List Char
  target : Target

def Filter.matches : Filter → Target → Bool
  | literal path, .path names => pathNames path = names
  | subpath path, .path names => (pathNames path).isPrefixOf names
  | globalName name, .service name' => name = name'
  | _, _ => false

/-- An operation with a star at its end is a whole family. -/
def matchesOperation (pattern operation : List Char) : Bool :=
  pattern = "default".toList || pattern = operation ||
    pattern.getLast? = some '*' && pattern.dropLast.isPrefixOf operation

def Rule.matches (rule : Rule) (request : Request) : Bool :=
  matchesOperation rule.operation request.operation &&
    (rule.filters.isEmpty || rule.filters.any (·.matches request.target))

/-- The verdict of the last rule that matches. -/
def decision (rules : List Rule) (request : Request) : Option Bool :=
  (rules.reverse.find? (·.matches request)).map Rule.allow

def Allowed (rules : List Rule) (request : Request) : Prop := decision rules request = some true

section Decision
variable {rules front back : List Rule} {rule : Rule} {request : Request}

theorem decision_append : decision (front ++ back) request =
    (decision back request).or (decision front request) := by
  unfold decision
  rw [List.reverse_append, List.find?_append, Option.map_or]

theorem decision_of_matches (h : rule.matches request) :
    decision (front ++ [rule]) request = some rule.allow := by
  unfold decision
  rw [List.reverse_append, List.reverse_singleton, List.singleton_append,
    List.find?_cons_of_pos (p := fun rule : Rule => rule.matches request) h, Option.map_some]

theorem decision_eq_none (h : ∀ rule ∈ rules, ¬ rule.matches request) :
    decision rules request = none := by
  unfold decision
  rw [List.find?_eq_none.mpr fun rule hrule => h rule (List.mem_reverse.mp hrule), Option.map_none]

theorem exists_of_decision {verdict : Bool} (h : decision rules request = some verdict) :
    ∃ rule ∈ rules, rule.matches request ∧ rule.allow = verdict := by
  obtain ⟨rule, hfind, hverdict⟩ := Option.map_eq_some_iff.mp h
  have hmatches : rule.matches request :=
    List.find?_some (p := fun rule : Rule => rule.matches request) hfind
  exact ⟨rule, List.mem_reverse.mp (List.mem_of_find?_eq_some hfind), hmatches, hverdict⟩

/-- Behind a rule that denies it, a request is allowed only by a rule that matches it. -/
theorem exists_of_allowed_behind (hmatches : rule.matches request) (hdeny : rule.allow = false)
    (h : Allowed (front ++ rule :: back) request) :
    ∃ later ∈ back, later.matches request ∧ later.allow := by
  have hsplit : front ++ rule :: back = (front ++ [rule]) ++ back := by
    rw [List.append_assoc, List.singleton_append]
  unfold Allowed at h
  rw [hsplit, decision_append, decision_of_matches hmatches, hdeny] at h
  cases hback : decision back request with
  | none =>
    rw [hback] at h
    cases h
  | some verdict =>
    rw [hback, Option.some_or] at h
    exact exists_of_decision (hback.trans h)

/-- A rule for an operation, or a family of operations, outside of this family. -/
def Rule.ApartFrom (rule : Rule) (family : List Char) : Prop :=
  rule.operation ≠ "default".toList ∧ ¬ family <+: rule.operation ∧
    (rule.operation.getLast? = some '*' →
      ¬ family <+: rule.operation.dropLast ∧ ¬ rule.operation.dropLast <+: family)

instance (rule : Rule) (family : List Char) : Decidable (rule.ApartFrom family) :=
  inferInstanceAs (Decidable (_ ∧ _))

theorem Rule.ApartFrom.not_matches {family : List Char} (h : rule.ApartFrom family)
    (hfamily : family <+: request.operation) : ¬ rule.matches request := by
  obtain ⟨hdefault, hone, hstar⟩ := h
  intro hmatches
  have hcovers := (Bool.and_eq_true_iff.mp hmatches).1
  unfold matchesOperation at hcovers
  rw [decide_eq_false hdefault, Bool.false_or, Bool.or_eq_true] at hcovers
  rcases hcovers with hsame | hmany
  · exact hone (of_decide_eq_true hsame ▸ hfamily)
  · obtain ⟨hlast, hfront⟩ := Bool.and_eq_true_iff.mp hmany
    have hapart := hstar (of_decide_eq_true hlast)
    have hboth := List.prefix_or_prefix_of_prefix hfamily (List.isPrefixOf_iff_prefix.mp hfront)
    exact hboth.elim hapart.1 hapart.2

theorem matchesOperation_family {family : List Char} (h : family <+: request.operation) :
    matchesOperation (family ++ ['*']) request.operation := by
  unfold matchesOperation
  rw [List.getLast?_concat, List.dropLast_concat, List.isPrefixOf_iff_prefix.mpr h]
  simp

theorem exists_filter (h : rule.matches request) (hne : rule.filters ≠ []) :
    ∃ filter ∈ rule.filters, filter.matches request.target := by
  have hfilters := (Bool.and_eq_true_iff.mp h).2
  rw [Bool.or_eq_true, List.isEmpty_iff] at hfilters
  exact List.any_eq_true.mp (hfilters.resolve_left hne)

theorem subpath_matches {path : List Char} {target : Target}
    (h : (Filter.subpath path).matches target) :
    ∃ names, target = .path names ∧ pathNames path <+: names := by
  cases target with
  | path names => exact ⟨names, rfl, List.isPrefixOf_iff_prefix.mp h⟩
  | service name => cases h
  | other => cases h

def Filter.isPath : Filter → Bool
  | literal _ | subpath _ => true
  | globalName _ => false

theorem exists_names {filter : Filter} {target : Target} (hpath : filter.isPath)
    (h : filter.matches target) : ∃ names, target = .path names := by
  cases target with
  | path names => exact ⟨names, rfl⟩
  | service name =>
    cases filter with
    | globalName _ => exact absurd hpath Bool.false_ne_true
    | _ => exact absurd h Bool.false_ne_true
  | other => cases filter <;> exact absurd h Bool.false_ne_true

theorem literal_matches {path : List Char} {target : Target}
    (h : (Filter.literal path).matches target) : target = .path (pathNames path) := by
  cases target with
  | path names => rw [of_decide_eq_true h]
  | service name => cases h
  | other => cases h

end Decision

/-! ## Rules as text -/

def Filter.toExpr : Filter → Expr
  | literal path => .list [.atom "literal".toList, .string path]
  | subpath path => .list [.atom "subpath".toList, .string path]
  | globalName name => .list [.atom "global-name".toList, .string name]

def Rule.toExpr (rule : Rule) : Expr :=
  .list (.atom (if rule.allow then "allow".toList else "deny".toList) :: .atom rule.operation ::
    rule.filters.map Filter.toExpr)

def filterOf? : Expr → Option Filter
  | .list [.atom kind, .string text] =>
    if kind = "literal".toList then some (.literal text)
    else if kind = "subpath".toList then some (.subpath text)
    else if kind = "global-name".toList then some (.globalName text)
    else none
  | _ => none

def ruleOf? : Expr → Option Rule
  | .list (.atom action :: .atom operation :: filters) => do
    let filters ← filters.mapM filterOf?
    if action = "allow".toList then some ⟨true, operation, filters⟩
    else if action = "deny".toList then some ⟨false, operation, filters⟩
    else none
  | _ => none

def versionExpr : Expr := .list [.atom "version".toList, .atom "1".toList]

def isVersion : Expr → Bool
  | .list [.atom word, .atom number] => word = "version".toList && number = "1".toList
  | _ => false

/-- A profile is its version and its rules. -/
def readProfile (text : List Char) : Option (List Rule) :=
  match read text with
  | some (version :: rules) => if isVersion version then rules.mapM ruleOf? else none
  | _ => none

section Text

theorem filterOf?_toExpr (filter : Filter) : filterOf? filter.toExpr = some filter := by
  cases filter <;> rfl

theorem mapM_of_inverse {α β : Type} {f : α → β} {g : β → Option α} (h : ∀ a, g (f a) = some a)
    (items : List α) : (items.map f).mapM g = some items := by
  induction items with
  | nil => rfl
  | cons a items ih => rw [List.map_cons, List.mapM_cons, h, ih]; rfl

theorem ruleOf?_toExpr (rule : Rule) : ruleOf? rule.toExpr = some rule := by
  obtain ⟨allow, operation, filters⟩ := rule
  unfold ruleOf? Rule.toExpr
  dsimp only
  rw [mapM_of_inverse filterOf?_toExpr]
  cases allow <;> rfl

/-- The operation of a rule is a word. -/
def Rule.IsWord (rule : Rule) : Prop := rule.operation ≠ [] ∧ ∀ c ∈ rule.operation, IsPlain c

instance (rule : Rule) : Decidable rule.IsWord := @instDecidableAnd _ _ _ (List.decidableBAll _ _)

theorem proper_toExpr {rule : Rule} (h : rule.IsWord) : Proper rule.toExpr := by
  have hword (word : List Char) (hne : word ≠ [] := by decide)
      (hplain : word.all (fun c => decide (IsPlain c)) := by decide) : Proper (.atom word) :=
    .atom hne (plain_of_all hplain)
  have hfilter (filter : Filter) : Proper filter.toExpr := by
    cases filter with
    | literal path =>
      refine .list fun item hitem => ?_
      rcases List.mem_pair.mp hitem with rfl | rfl
      · exact hword "literal".toList
      · exact .string
    | subpath path =>
      refine .list fun item hitem => ?_
      rcases List.mem_pair.mp hitem with rfl | rfl
      · exact hword "subpath".toList
      · exact .string
    | globalName name =>
      refine .list fun item hitem => ?_
      rcases List.mem_pair.mp hitem with rfl | rfl
      · exact hword "global-name".toList
      · exact .string
  refine .list fun item hitem => ?_
  rcases List.mem_cons.mp hitem with rfl | hitem
  · split_ifs
    · exact hword "allow".toList
    · exact hword "deny".toList
  · rcases List.mem_cons.mp hitem with rfl | hitem
    · exact .atom h.1 h.2
    · obtain ⟨filter, -, rfl⟩ := List.mem_map.mp hitem
      exact hfilter filter

/-- A profile whose lines are the version and these rules is read as them. -/
theorem readProfile_printLines {rules : List Rule} (h : ∀ rule ∈ rules, rule.IsWord) :
    readProfile (printLines (versionExpr :: rules.map Rule.toExpr)) = some rules := by
  have hproper : ∀ item ∈ versionExpr :: rules.map Rule.toExpr, Proper item := by
    intro item hitem
    rcases List.mem_cons.mp hitem with rfl | hitem
    · refine .list fun word hword => ?_
      rcases List.mem_pair.mp hword with rfl | rfl
      · exact .atom (by decide) (plain_of_all (by decide))
      · exact .atom (by decide) (plain_of_all (by decide))
    · obtain ⟨rule, hrule, rfl⟩ := List.mem_map.mp hitem
      exact proper_toExpr (h rule hrule)
  unfold readProfile
  rw [read_printLines hproper]
  exact (if_pos rfl).trans (mapM_of_inverse ruleOf?_toExpr rules)

end Text

end Oath.Sandbox.Seatbelt
