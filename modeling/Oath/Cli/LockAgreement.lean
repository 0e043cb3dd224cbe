import Oath.Cli.LockQueries
import Oath.Resolve.PackageNames
import Oath.Store.EntryLayout
import Oath.Store.StageBuild

/-! Whether the commands that ask the lockfile find what was written to it. The lockfile of a
placement plan has the locations of the packages for keys, and the commands look for names. -/

namespace Oath.Cli
open Contracts Registry Resolve Value

/-! ## Keys -/

def modulesHead : String := "node_modules/"

/-- A text that begins both with the directory and with a name and a mark: the name begins with the
directory. -/
theorem beginsWith_of_mark {name : String} {text : List UInt8}
    (hhead : asBytes modulesHead <+: text) (hmark : asBytes (name ++ "@") <+: text) :
    beginsWith name modulesHead := by
  have hbytes : asBytes (name ++ "@") = asBytes name ++ [64] := asBytes_append name "@"
  have hno : (64 : UInt8) ∉ asBytes modulesHead := by decide
  rw [hbytes] at hmark
  have hhas : (64 : UInt8) ∈ asBytes name ++ [64] :=
    List.mem_append_right _ (List.mem_singleton.mpr rfl)
  rcases List.prefix_or_prefix_of_prefix hhead hmark with hshort | hlong
  · rcases List.prefix_concat_iff.mp hshort with heq | hinside
    · exact absurd (heq ▸ hhas) hno
    · exact List.isPrefixOf_iff_prefix.mpr hinside
  · exact absurd (hlong.subset hhas) hno

theorem not_beginsWith_of_isPackageName {name : String} (h : IsPackageName name.toList) :
    ¬ beginsWith name modulesHead := by
  intro hbegins
  have hhead := List.isPrefixOf_iff_prefix.mp hbegins
  generalize hchars : name.toList = chars at h
  cases h with
  | plain hpart =>
    have hslash : '/' ∉ name.toList := by
      intro hmem
      rw [hchars] at hmem
      exact absurd (hpart.safe '/' hmem) (by decide)
    exact Store.slash_notMem_asBytes hslash (hhead.subset (by decide))
  | @inScope scope part hscope hpart =>
    have hname : name = String.ofList ('@' :: (scope ++ '/' :: part)) := by
      rw [← hchars, String.ofList_toList]
    rw [hname, asBytes_ofList, List.flatMap_cons] at hhead
    obtain ⟨rest, hrest⟩ := hhead
    exact absurd (List.head_eq_of_cons_eq hrest) (by decide)

theorem not_beginsWith_depKey {dep : String × Value} (h : ¬ beginsWith dep.1 modulesHead) :
    ¬ beginsWith (lockDepKey dep) modulesHead := by
  intro hbegins
  refine h (beginsWith_of_mark (List.isPrefixOf_iff_prefix.mp hbegins) ?_)
  unfold lockDepKey
  rw [asBytes_append (dep.1 ++ "@")]
  exact List.prefix_append _ _

theorem not_matchesPackage {package key : String} (hpackage : ¬ beginsWith package modulesHead)
    (hkey : beginsWith key modulesHead) : matchesPackage package key = false := by
  unfold matchesPackage
  rw [Bool.or_eq_false_iff]
  constructor
  · exact decide_eq_false fun heq => hpackage (heq ▸ hkey)
  · rw [Bool.eq_false_iff]
    intro hmark
    exact hpackage (beginsWith_of_mark (List.isPrefixOf_iff_prefix.mp hkey)
      (List.isPrefixOf_iff_prefix.mp hmark))

theorem beginsWith_of_validLocation {kind subject location : String}
    (h : validateLocation kind subject location = .ok ()) : beginsWith location modulesHead := by
  unfold validateLocation at h
  split_ifs at h with _ _ hbegins
  rw [Bool.not_eq_true', Bool.not_eq_false] at hbegins
  exact hbegins

/-! ## What agreement is -/

section Agreement
variable (graph : DepGraph) (lock : Lockfile)

/-- One locked package depends on another. -/
def LockEdge (a b : String) : Prop :=
  ∃ entry dep, lock.packages.find? a = some entry ∧ entry.dependencies.find? dep = some b ∧
    (lock.packages.find? b).isSome

/-- In this many steps. -/
inductive Reaches : ℕ → String → String → Prop
  | one {a b : String} (h : LockEdge lock a b) : Reaches 1 a b
  | next {n : ℕ} {a b c : String} (h : LockEdge lock a b) (hrest : Reaches n b c) :
      Reaches (n + 1) a c

/-- The package is a root, or the chain leads from a root down to it. -/
def Justified (key : String) : Reason → Prop
  | .direct => key ∈ lock.roots
  | .chain path => (path ++ [key]).IsChain (LockEdge lock) ∧
      ∃ top, path.head? = some top ∧ top ∈ lock.roots
  | .unknown => False

/-- Each locked package of the name is reported with its chain, and nothing is said not to be found
that is locked. -/
structure WhyAgrees (package : String) (output : WhyOutput) : Prop where
  notFound : output = .notFound →
    ∀ key node, graph.nodes.find? key = some node → node.name ≠ package
  reported (key : String) (node : DepNode) : graph.nodes.find? key = some node →
    node.name = package → ∃ reports, output = .found reports ∧
      ∃ report ∈ reports, report.key = key ∧ Justified lock key report.reason

def GraphLine.isBelow : GraphLine → Bool
  | .child _ _ | .more _ _ | .circular _ => true
  | _ => false

/-- The lines below a root. -/
def blockOf (root : String) (lines : List GraphLine) : List GraphLine :=
  ((lines.dropWhile (· ≠ .root root)).tail).takeWhile GraphLine.isBelow

/-- Below each root stand exactly the packages that it reaches within the depth. -/
def GraphAgrees (maxDepth : ℕ) (lines : List GraphLine) : Prop :=
  ∀ root ∈ lock.roots, .root root ∈ lines ∧
    ∀ key, (∃ indent, .child indent key ∈ blockOf root lines) ↔
      ∃ n ≤ maxDepth, Reaches lock n root key

end Agreement

/-! ## The lockfile as the commands read it -/

section Read
variable {lock : Lockfile} {key : String} {entry : LockEntry}

/-- The packages as they stand in the JSON value. -/
def packageRows (lock : Lockfile) : JsonRows :=
  lock.packages.rows.map fun row => (row.1, row.2.toValue)

theorem packages_of_toValue (lock : Lockfile) :
    (lock.toValue.get? "packages").bind asObject? = some (packageRows lock) := by
  have hpackages : lock.toValue.get? "packages" =
      some (.ofMap LockEntry.toValue lock.packages) := by
    unfold Lockfile.toValue
    rw [Value.get?_json]
    simp only [List.reverse_append, List.find?_append, find?_fieldUnless]
    simp
  rw [hpackages]
  rfl

theorem roots_of_toValue (lock : Lockfile) : (lock.toValue.get? "roots").bind asArray? =
    if lock.roots.isEmpty then none else some (lock.roots.map .string) := by
  have hroots : lock.toValue.get? "roots" =
      if lock.roots.isEmpty then none else some (.strings lock.roots) := by
    unfold Lockfile.toValue
    rw [Value.get?_json]
    simp only [List.reverse_append, List.find?_append, find?_fieldUnless]
    cases lock.roots.isEmpty <;> simp
  rw [hroots]
  split_ifs <;> rfl

theorem lockDeps_toValue (entry : LockEntry) : lockDeps entry.toValue =
    if entry.dependencies.rows.isEmpty then none
    else some (entry.dependencies.rows.map fun row => (row.1, .string row.2)) := by
  have hdeps : entry.toValue.get? "dependencies" =
      if entry.dependencies.rows.isEmpty then none else some (.stringMap entry.dependencies) := by
    unfold LockEntry.toValue
    rw [Value.get?_json]
    simp only [List.reverse_append, List.find?_append, find?_fieldUnless]
    cases entry.dependencies.rows.isEmpty <;> simp
  unfold lockDeps
  rw [hdeps]
  split_ifs <;> rfl

theorem lookup_packageRows (lock : Lockfile) (key : String) :
    (packageRows lock).lookup key = (lock.packages.find? key).map LockEntry.toValue := by
  have hlookup (rows : List (String × LockEntry)) :
      (rows.map fun row => (row.1, row.2.toValue)).lookup key =
        (rows.find? fun row => row.1 = key).map fun row => row.2.toValue := by
    induction rows with
    | nil => rfl
    | cons row rows ih =>
      rw [List.map_cons, lookup_cons]
      split_ifs with hsame
      · rw [List.find?_cons_of_pos (by simpa using hsame.symm)]
        rfl
      · rw [List.find?_cons_of_neg (by simpa using Ne.symm hsame), ih]
  unfold packageRows
  rw [hlookup, OrderedMap.find?, Table.find?, Option.map_map]
  rfl

theorem depsOf_packageRows (lock : Lockfile) (key : String) :
    depsOf (packageRows lock) key = ((lock.packages.find? key).bind fun entry =>
      if entry.dependencies.rows.isEmpty then none
      else some (entry.dependencies.rows.map fun row => (row.1, .string row.2))) := by
  unfold depsOf
  rw [lookup_packageRows]
  cases lock.packages.find? key with
  | none => rfl
  | some entry => exact lockDeps_toValue entry

end Read

/-! ## The blocks of the graph -/

section Blocks
variable {packages : JsonRows} {maxDepth : ℕ} {roots : List String} {root : String}

theorem isBelow_printGraphChildren (remaining : ℕ) (visited : List String) (indent : String)
    (children : List String) :
    ∀ line ∈ printGraphChildren packages remaining visited indent children, line.isBelow := by
  induction remaining generalizing visited indent children with
  | zero =>
    intro line hline
    obtain ⟨⟨child, i⟩, -, hmem⟩ := List.mem_flatMap.mp hline
    rcases List.mem_cons.mp hmem with rfl | hrest
    · rfl
    · split at hrest
      · exact absurd hrest List.not_mem_nil
      · exact absurd hrest List.not_mem_nil
      · rw [List.mem_singleton.mp hrest]
        rfl
  | succ remaining ih =>
    intro line hline
    obtain ⟨⟨child, i⟩, -, hmem⟩ := List.mem_flatMap.mp hline
    rcases List.mem_cons.mp hmem with rfl | hrest
    · rfl
    · cases hvisited : visited.contains child with
      | true =>
        rw [hvisited, if_pos rfl] at hrest
        rw [List.mem_singleton.mp hrest]
        rfl
      | false =>
        rw [hvisited, if_neg Bool.false_ne_true] at hrest
        cases hdeps : depsOf packages child with
        | none =>
          rw [hdeps] at hrest
          exact absurd hrest List.not_mem_nil
        | some deps =>
          rw [hdeps] at hrest
          exact ih _ _ _ line hrest

theorem child_mem_printGraphChildren (remaining : ℕ) (visited : List String) (indent : String)
    {children : List String} {child : String} (h : child ∈ children) :
    .child indent child ∈ printGraphChildren packages remaining visited indent children := by
  obtain ⟨i, hi⟩ := List.mem_iff_getElem?.mp h
  have hmem : (child, i) ∈ children.zipIdx := List.mem_zipIdx_iff_getElem?.mpr hi
  cases remaining with
  | zero => exact List.mem_flatMap.mpr ⟨_, hmem, List.mem_cons_self⟩
  | succ remaining => exact List.mem_flatMap.mpr ⟨_, hmem, List.mem_cons_self⟩

/-- What `printRoot` puts under the line of the root. -/
theorem printRoot_eq (packages : JsonRows) (maxDepth : ℕ) (root : String) :
    ∃ block, printRoot packages maxDepth root = .root root :: block ∧
      ∀ line ∈ block, line.isBelow := by
  unfold printRoot
  cases depsOf packages root with
  | none => exact ⟨[], rfl, fun line hline => absurd hline List.not_mem_nil⟩
  | some deps => exact ⟨_, rfl, isBelow_printGraphChildren _ _ _ _⟩

/-- The lines after a root's block start with the next root or the blank line. -/
theorem not_isBelow_head (roots : List String) {line : GraphLine}
    (h : (roots.flatMap (printRoot packages maxDepth) ++ [GraphLine.blank]).head? = some line) :
    ¬ line.isBelow := by
  cases roots with
  | nil =>
    rw [← Option.some.inj h]
    exact Bool.false_ne_true
  | cons next roots =>
    obtain ⟨block, hblock, -⟩ := printRoot_eq packages maxDepth next
    rw [List.flatMap_cons, hblock, List.cons_append, List.cons_append, List.head?_cons] at h
    rw [← Option.some.inj h]
    exact Bool.false_ne_true

theorem takeWhile_append_stop {α : Type} {p : α → Bool} {front back : List α}
    (hfront : ∀ a ∈ front, p a) (hback : ∀ a, back.head? = some a → ¬ p a) :
    (front ++ back).takeWhile p = front := by
  rw [List.takeWhile_append_of_pos hfront]
  cases back with
  | nil => rw [List.takeWhile_nil, List.append_nil]
  | cons a back => rw [List.takeWhile_cons_of_neg (hback a rfl), List.append_nil]

theorem blockOf_graphOfRoots (hmem : root ∈ roots) :
    blockOf root (roots.flatMap (printRoot packages maxDepth) ++ [.blank]) =
      (printRoot packages maxDepth root).tail := by
  induction roots with
  | nil => exact absurd hmem List.not_mem_nil
  | cons first roots ih =>
    obtain ⟨block, hblock, hbelow⟩ := printRoot_eq packages maxDepth first
    rw [List.flatMap_cons, hblock, List.append_assoc, List.cons_append]
    by_cases hsame : first = root
    · subst hsame
      unfold blockOf
      rw [hblock, List.dropWhile_cons_of_neg (by simp), List.tail_cons, List.tail_cons]
      exact takeWhile_append_stop hbelow fun line => not_isBelow_head roots
    · have hother : ∀ line ∈ GraphLine.root first :: block, decide (line ≠ .root root) := by
        intro line hline
        rcases List.mem_cons.mp hline with rfl | hline
        · simpa using hsame
        · have hline := hbelow line hline
          refine decide_eq_true fun heq => ?_
          rw [heq] at hline
          exact Bool.false_ne_true hline
      have hrest := ih ((List.mem_cons.mp hmem).resolve_left (Ne.symm hsame))
      unfold blockOf at hrest ⊢
      rw [← List.cons_append, List.dropWhile_append_of_pos hother]
      exact hrest

end Blocks

/-! ## Agreement -/

section Queries
variable {lock : Lockfile} {maxDepth : ℕ}

theorem Reaches.locked {n : ℕ} {a b : String} (h : Reaches lock n a b) :
    (lock.packages.find? b).isSome := by
  induction h with
  | one hedge =>
    obtain ⟨_, _, -, -, hlocked⟩ := hedge
    exact hlocked
  | next _ _ ih => exact ih

theorem Reaches.first {n : ℕ} {a b : String} (h : Reaches lock n a b) : ∃ c, LockEdge lock a c := by
  cases h with
  | one hedge => exact ⟨_, hedge⟩
  | next hedge _ => exact ⟨_, hedge⟩

/-- The keys are locations, and no dependency is named like one. -/
structure ByLocation (lock : Lockfile) : Prop where
  key (key : String) (entry : LockEntry) : lock.packages.find? key = some entry →
    beginsWith key modulesHead
  name (key : String) (entry : LockEntry) (dep : String × String) :
    lock.packages.find? key = some entry → dep ∈ entry.dependencies.rows →
    ¬ beginsWith dep.1 modulesHead

theorem filter_packageRows (hlock : ByLocation lock) {package : String}
    (hpackage : ¬ beginsWith package modulesHead) :
    ((packageRows lock).filter fun row => matchesPackage package row.1) = [] := by
  refine List.filter_eq_nil_iff.mpr fun row hrow => ?_
  obtain ⟨entryRow, hentry, rfl⟩ := List.mem_map.mp hrow
  have hfind : lock.packages.find? entryRow.1 = some entryRow.2 :=
    OrderedMap.find?_eq_some.mpr hentry
  rw [not_matchesPackage hpackage (hlock.key _ _ hfind)]
  exact Bool.false_ne_true

/-- What stands below a root with a dependency is no key of the lockfile. -/
theorem exists_strange_child (hlock : ByLocation lock) {root : String} {entry : LockEntry}
    (hentry : lock.packages.find? root = some entry) (hdeps : entry.dependencies.rows ≠ []) :
    ∃ key, ¬ beginsWith key modulesHead ∧
      .child "" key ∈ (printRoot (packageRows lock) maxDepth root).tail := by
  obtain ⟨dep, hdep⟩ := List.exists_mem_of_ne_nil _ hdeps
  have hprinted : depsOf (packageRows lock) root =
      some (entry.dependencies.rows.map fun row => (row.1, .string row.2)) := by
    rw [depsOf_packageRows, hentry, Option.bind_some, if_neg (by simpa using hdeps)]
  refine ⟨lockDepKey (dep.1, .string dep.2),
    not_beginsWith_depKey (hlock.name root entry dep hentry hdep), ?_⟩
  unfold printRoot
  rw [hprinted, List.tail_cons]
  apply child_mem_printGraphChildren
  rw [sortedDepKeys, List.mem_mergeSort]
  exact List.mem_map_of_mem (List.mem_map_of_mem hdep)

theorem graphAgrees_iff (maxDepth : ℕ) (hlock : ByLocation lock) :
    GraphAgrees lock maxDepth
        (lock.roots.flatMap (printRoot (packageRows lock) maxDepth) ++ [.blank]) ↔
      ∀ root ∈ lock.roots, ∀ entry, lock.packages.find? root = some entry →
        entry.dependencies.rows = [] := by
  constructor
  · intro h root hroot entry hentry
    by_contra hdeps
    obtain ⟨key, hkey, hchild⟩ := exists_strange_child hlock hentry hdeps
    rw [← blockOf_graphOfRoots hroot] at hchild
    obtain ⟨n, -, hreached⟩ := ((h root hroot).2 key).mp ⟨"", hchild⟩
    obtain ⟨target, htarget⟩ := Option.isSome_iff_exists.mp hreached.locked
    exact hkey (hlock.key key target htarget)
  · intro h root hroot
    have hblock : (printRoot (packageRows lock) maxDepth root).tail = [] := by
      have hnone : depsOf (packageRows lock) root = none := by
        rw [depsOf_packageRows]
        cases hentry : lock.packages.find? root with
        | none => rfl
        | some entry => rw [Option.bind_some, h root hroot entry hentry]; rfl
      unfold printRoot
      rw [hnone, List.tail_cons]
    refine ⟨List.mem_append_left _ (List.mem_flatMap.mpr ⟨root, hroot, List.mem_cons_self⟩),
      fun key => ⟨fun ⟨indent, hchild⟩ => ?_, fun ⟨n, _, hreached⟩ => ?_⟩⟩
    · rw [blockOf_graphOfRoots hroot, hblock] at hchild
      exact absurd hchild List.not_mem_nil
    · obtain ⟨_, entry, dep, hentry, hdep, -⟩ := hreached.first
      have hmem := OrderedMap.find?_eq_some.mp hdep
      rw [h root hroot entry hentry] at hmem
      exact absurd hmem List.not_mem_nil

section Commands
variable {Text : Type} {json : JsonText Text} {files : Files Text} {directory package : String}

theorem cmdWhy_notFound (store : StoreReport) (hlock : ByLocation lock)
    (hfile : files (lockPath directory) = some (json.pretty lock.toValue))
    (hpackage : ¬ beginsWith package modulesHead) :
    cmdWhy json files directory store package = .ok .notFound := by
  unfold cmdWhy
  rw [hfile]
  simp only [json.parse_pretty_lockfile, packages_of_toValue, filter_packageRows hlock hpackage]

theorem cmdGraph_roots (maxDepth : ℕ)
    (hfile : files (lockPath directory) = some (json.pretty lock.toValue)) :
    ∃ lines, cmdGraph json files directory maxDepth = .ok lines ∧ (lock.roots ≠ [] →
      lines = lock.roots.flatMap (printRoot (packageRows lock) maxDepth) ++ [.blank]) := by
  unfold cmdGraph
  rw [hfile]
  simp only [json.parse_pretty_lockfile, packages_of_toValue, roots_of_toValue]
  cases hroots : lock.roots with
  | nil =>
    rw [List.isEmpty_nil, if_pos rfl]
    cases manifestOrEmpty json files directory with
    | none => exact ⟨_, rfl, fun hne => absurd rfl hne⟩
    | some pkg => exact ⟨_, rfl, fun hne => absurd rfl hne⟩
  | cons root roots =>
    have hread : ((root :: roots).map Value.string).filterMap asStr? = root :: roots := by
      rw [List.filterMap_map]
      exact List.filterMap_some
    rw [List.isEmpty_cons, if_neg Bool.false_ne_true]
    refine ⟨_, rfl, fun _ => ?_⟩
    rw [hread]
    rfl

end Commands

end Queries

/-! ## The lockfile of a plan -/

section Plan
variable {plan : PlacementPlan} {graph : DepGraph} {projectName projectVersion : String}
  {deps devDeps : OrderedMap String String}

theorem find?_fromGraph (key : String) :
    (Lockfile.fromGraphWithManifest graph projectName projectVersion deps devDeps).packages.find?
      key = (graph.nodes.find? key).map (lockEntry key) :=
  OrderedMap.find?_map graph.nodes lockEntry key

theorem exists_placed (hgraph : plan.toDepGraph = .ok graph) {key : String} {node : DepNode}
    (h : graph.nodes.find? key = some node) :
    ∃ placed ∈ plan.nodes, placed.location = key ∧
      node.dependencies = targetsOf (placed.edges.filter fun edge => !edge.isPeer) := by
  rw [(toDepGraph_ok hgraph).2] at h
  obtain ⟨placed, hplaced, hrow⟩ := List.mem_filterMap.mp (OrderedMap.mem_of_find?_ofList h)
  unfold graphRow? at hrow
  split_ifs at hrow
  obtain ⟨resolved, -, heq⟩ := Option.map_eq_some_iff.mp hrow
  obtain ⟨rfl, rfl⟩ := Prod.mk.inj heq
  exact ⟨placed, hplaced, rfl, rfl⟩

theorem exists_edge_of_targetsOf {edges : List PlacementEdge} {dep : String × String}
    (h : dep ∈ (targetsOf edges).rows) : ∃ edge ∈ edges, edge.name = dep.1 := by
  have hfind : (targetsOf edges).find? dep.1 = some dep.2 := OrderedMap.find?_eq_some.mpr h
  obtain ⟨edge, hedge, hrow⟩ := List.mem_filterMap.mp (OrderedMap.mem_of_find?_ofList hfind)
  obtain ⟨_, -, heq⟩ := Option.map_eq_some_iff.mp hrow
  exact ⟨edge, hedge, (Prod.mk.inj heq).1⟩

theorem byLocation_of_plan (hvalid : validateLocations plan = .ok ())
    (hgraph : plan.toDepGraph = .ok graph)
    (hnames : ∀ node ∈ plan.nodes, ∀ edge ∈ node.edges, IsPackageName edge.name.toList) :
    ByLocation (.fromGraphWithManifest graph projectName projectVersion deps devDeps) where
  key key entry hentry := by
    rw [find?_fromGraph] at hentry
    obtain ⟨node, hnode, -⟩ := Option.map_eq_some_iff.mp hentry
    obtain ⟨placed, hplaced, rfl, -⟩ := exists_placed hgraph hnode
    obtain ⟨_, hnodes, -⟩ := Except.bind_eq_ok.mp hvalid
    exact beginsWith_of_validLocation (Store.forM_ok hnodes placed hplaced)
  name key entry dep hentry hdep := by
    rw [find?_fromGraph] at hentry
    obtain ⟨node, hnode, rfl⟩ := Option.map_eq_some_iff.mp hentry
    obtain ⟨placed, hplaced, -, hdeps⟩ := exists_placed hgraph hnode
    have hdep : dep ∈ node.dependencies.rows := hdep
    rw [hdeps] at hdep
    obtain ⟨edge, hedge, hname⟩ := exists_edge_of_targetsOf hdep
    rw [← hname]
    exact not_beginsWith_of_isPackageName
      (hnames placed hplaced edge (List.mem_filter.mp hedge).1)

/-- The commands agree with the lockfile of a plan exactly when there is nothing to report: no
package of the name, and no root with a dependency. -/
theorem lockQueries_agree_iff {Text : Type} (json : JsonText Text) (files : Files Text)
    (store : StoreReport) {directory package : String} (maxDepth : ℕ)
    (hvalid : validateLocations plan = .ok ()) (hgraph : plan.toDepGraph = .ok graph)
    (hnames : ∀ node ∈ plan.nodes, ∀ edge ∈ node.edges, IsPackageName edge.name.toList)
    (hpackage : IsPackageName package.toList)
    (hfile : files (lockPath directory) = some (json.pretty
      (Lockfile.fromGraphWithManifest graph projectName projectVersion deps devDeps).toValue)) :
    ((∃ output, cmdWhy json files directory store package = .ok output ∧
        WhyAgrees graph (.fromGraphWithManifest graph projectName projectVersion deps devDeps)
          package output) ∧
      ∃ lines, cmdGraph json files directory maxDepth = .ok lines ∧
        GraphAgrees (.fromGraphWithManifest graph projectName projectVersion deps devDeps)
          maxDepth lines) ↔
      (∀ key node, graph.nodes.find? key = some node → node.name ≠ package) ∧
        ∀ root ∈ graph.roots, ∀ node, graph.nodes.find? root = some node →
          node.dependencies.rows = [] := by
  have hlock : ByLocation (.fromGraphWithManifest graph projectName projectVersion deps devDeps) :=
    byLocation_of_plan hvalid hgraph hnames
  have hwhy := cmdWhy_notFound store hlock hfile (not_beginsWith_of_isPackageName hpackage)
  obtain ⟨printed, hprinted, hroots⟩ := cmdGraph_roots maxDepth hfile
  generalize hlockfile :
    Lockfile.fromGraphWithManifest graph projectName projectVersion deps devDeps = lock at *
  -- the output of one command
  have hnone : (∃ output, cmdWhy json files directory store package = .ok output ∧
      WhyAgrees graph lock package output) ↔
      ∀ key node, graph.nodes.find? key = some node → node.name ≠ package := by
    constructor
    · rintro ⟨output, houtput, hagrees⟩
      rw [hwhy] at houtput
      exact hagrees.notFound (Except.ok.inj houtput).symm
    · intro h
      refine ⟨.notFound, hwhy, fun _ => h, fun key node hnode hname => ?_⟩
      exact absurd hname (h key node hnode)
  -- the output of the other
  have hbare : (∃ lines, cmdGraph json files directory maxDepth = .ok lines ∧
      GraphAgrees lock maxDepth lines) ↔
      ∀ root ∈ lock.roots, ∀ entry, lock.packages.find? root = some entry →
        entry.dependencies.rows = [] := by
    by_cases hempty : lock.roots = []
    · have hagrees : GraphAgrees lock maxDepth printed := by
        intro root hroot
        rw [hempty] at hroot
        exact absurd hroot List.not_mem_nil
      refine ⟨fun _ root hroot => ?_, fun _ => ⟨printed, hprinted, hagrees⟩⟩
      rw [hempty] at hroot
      exact absurd hroot List.not_mem_nil
    · rw [← graphAgrees_iff maxDepth hlock, ← hroots hempty]
      constructor
      · rintro ⟨lines, hlines, hagrees⟩
        rw [hprinted] at hlines
        rwa [Except.ok.inj hlines]
      · exact fun hagrees => ⟨printed, hprinted, hagrees⟩
  rw [hnone, hbare]
  refine and_congr_right fun _ => ?_
  have hsame (root : String) : root ∈ lock.roots ↔ root ∈ graph.roots := by
    rw [← hlockfile]
    exact mem_fromGraph_roots
  have hfound (root : String) : lock.packages.find? root =
      (graph.nodes.find? root).map (lockEntry root) := by
    rw [← hlockfile]
    exact find?_fromGraph root
  constructor
  · intro h root hroot node hnode
    exact h root ((hsame root).mpr hroot) (lockEntry root node) (by rw [hfound, hnode]; rfl)
  · intro h root hroot entry hentry
    rw [hfound] at hentry
    obtain ⟨node, hnode, rfl⟩ := Option.map_eq_some_iff.mp hentry
    exact h root ((hsame root).mp hroot) node hnode

end Plan

/-! ## Two packages -/

def pairNode (name : String) (edges : List PlacementEdge) : PlacementNode :=
  ⟨"node_modules/" ++ name, name, name, "1.0.0", some "https://registry.npmjs.org/", none, false,
    false, false, false, false, none, edges⟩

/-- Two packages in the root directory. -/
def pairPlan (edges : List PlacementEdge) : PlacementPlan :=
  ⟨placementPlanVersion, ⟨"arborist", "11"⟩, "app", [pairNode "a" edges, pairNode "b" []], [], []⟩

def pairEdge : PlacementEdge := ⟨"b", "^1.0.0", "prod", some "node_modules/b", true⟩

def pairGraph (edges : List PlacementEdge) : DepGraph :=
  ⟨.ofList [("node_modules/a", toDepNode (pairNode "a" edges) "https://registry.npmjs.org/"),
    ("node_modules/b", toDepNode (pairNode "b" []) "https://registry.npmjs.org/")],
    ["node_modules/a", "node_modules/b"]⟩

def pairLock (edges : List PlacementEdge) : Lockfile :=
  .fromGraphWithManifest (pairGraph edges) "app" "1.0.0" .empty .empty

def lockOnly (lock : Lockfile) : Files (Except String Value) := fun path =>
  if path = lockPath "/repo" then some (demoJson.pretty lock.toValue) else none

def emptyStore : StoreReport := ⟨fun _ _ _ _ _ => .ok []⟩

theorem lockQueries_agree_pair :
    (∃ output, cmdWhy demoJson (lockOnly (pairLock [])) "/repo" emptyStore "c" = .ok output ∧
        WhyAgrees (pairGraph []) (pairLock []) "c" output) ∧
      ∃ lines, cmdGraph demoJson (lockOnly (pairLock [])) "/repo" 3 = .ok lines ∧
        GraphAgrees (pairLock []) 3 lines := by
  have hnodes : ∀ row ∈ (pairGraph []).nodes.rows,
      row.2.name ≠ "c" ∧ row.2.dependencies.rows = [] := by decide
  have hvalid : validateLocations (pairPlan []) = .ok () := rfl
  have hedges : ∀ node ∈ (pairPlan []).nodes, node.edges = [] := by decide
  refine (lockQueries_agree_iff demoJson (lockOnly (pairLock [])) emptyStore 3 hvalid rfl ?_
    (.plain (isNamePart_of_all (by decide) (by decide))) ?_).mpr ⟨?_, ?_⟩
  · intro node hnode edge hedge
    rw [hedges node hnode] at hedge
    exact absurd hedge List.not_mem_nil
  · exact if_pos rfl
  · intro key node hnode
    exact (hnodes _ (OrderedMap.find?_eq_some.mp hnode)).1
  · intro root _ node hnode
    exact (hnodes _ (OrderedMap.find?_eq_some.mp hnode)).2

/-- The package is locked and a root needs it: it is not found, and what is printed below the root
is not its key. -/
theorem dependency_not_found :
    validateLocations (pairPlan [pairEdge]) = .ok () ∧
      (pairPlan [pairEdge]).toDepGraph = .ok (pairGraph [pairEdge]) ∧
      cmdWhy demoJson (lockOnly (pairLock [pairEdge])) "/repo" emptyStore "b" = .ok .notFound ∧
      ¬ WhyAgrees (pairGraph [pairEdge]) (pairLock [pairEdge]) "b" .notFound ∧
      cmdGraph demoJson (lockOnly (pairLock [pairEdge])) "/repo" 3 =
        .ok [.root "node_modules/a", .child "" "b@node_modules/b", .root "node_modules/b", .blank] ∧
      LockEdge (pairLock [pairEdge]) "node_modules/a" "node_modules/b" := by
  refine ⟨rfl, rfl, rfl, fun h => ?_, by decide +kernel, ?_⟩
  · exact h.notFound rfl "node_modules/b" _ rfl rfl
  · exact ⟨_, "b", rfl, rfl, rfl⟩

end Oath.Cli
