import Oath.Library.FileLookup
import Oath.Store.EntryLayout
import Oath.Store.GraphLinker
import Oath.Store.StageBuild

/-! The places in the tree of a package graph: those of the packages and those of the links, and
which of them are below which others. -/

namespace Oath.Store
open Contracts Registry Resolve Unix

/-! ## Install names -/

/-- One name, or a scope and a name. Only a scope starts with an at sign. -/
def IsInstallPath (names : List Name) : Prop :=
  (∃ part, names = [part] ∧ part.head? ≠ some atSign) ∨
    ∃ scope part, names = [scope, part] ∧ scope.head? = some atSign

section InstallPath
variable {names names' : List Name}

theorem IsInstallPath.ne_nil (h : IsInstallPath names) : names ≠ [] := by
  rcases h with ⟨part, rfl, -⟩ | ⟨scope, part, rfl, -⟩
  · exact List.cons_ne_nil _ _
  · exact List.cons_ne_nil _ _

theorem IsInstallPath.length_le (h : IsInstallPath names) : names.length ≤ 2 := by
  rcases h with ⟨part, rfl, -⟩ | ⟨scope, part, rfl, -⟩
  · exact Nat.le_succ 1
  · exact le_rfl

/-- No install name is below another. -/
theorem IsInstallPath.eq_of_starts (h : IsInstallPath names) (h' : IsInstallPath names')
    (hstarts : names <+: names') : names = names' := by
  rcases h with ⟨part, rfl, hpart⟩ | ⟨scope, part, rfl, hscope⟩
  · rcases h' with ⟨part', rfl, -⟩ | ⟨scope', part', rfl, hscope'⟩
    · exact hstarts.eq_of_length rfl
    · have hfirst : part = scope' := (List.cons_prefix_cons.mp hstarts).1
      exact absurd (hfirst ▸ hscope') hpart
  · rcases h' with ⟨part', rfl, -⟩ | ⟨scope', part', rfl, -⟩
    · have hlength := hstarts.length_le
      simp at hlength
    · exact hstarts.eq_of_length rfl

theorem IsInstallPath.eq_of_common (h : IsInstallPath names) (h' : IsInstallPath names')
    {whole : List Name} (hstarts : names <+: whole) (hstarts' : names' <+: whole) :
    names = names' := by
  rcases List.prefix_or_prefix_of_prefix hstarts hstarts' with hbelow | habove
  · exact h.eq_of_starts h' hbelow
  · exact (h'.eq_of_starts h habove).symm

end InstallPath

/-! ### Valid names -/

theorem head_pieces {b : UInt8} (bs : List UInt8) (h : b ≠ slash) :
    ((pieces (b :: bs)).headD []).head? = some b := by
  rw [pieces, if_neg h]
  cases pieces bs with
  | nil => rfl
  | cons piece rest => rfl

theorem contains_slash_iff (bs : List UInt8) :
    bs.contains slash = true ↔ 1 < (pieces bs).length := by
  induction bs with
  | nil => simp [pieces]
  | cons b bs ih =>
    have hne := List.length_pos_iff.mpr (pieces_ne_nil bs)
    by_cases hslash : b = slash
    · have hpieces : pieces (b :: bs) = [] :: pieces bs := by rw [pieces, if_pos hslash]
      rw [hpieces, List.length_cons, hslash, List.contains_cons, beq_self_eq_true, Bool.true_or]
      exact ⟨fun _ => Nat.succ_lt_succ hne, fun _ => rfl⟩
    · have hlength : (pieces (b :: bs)).length = (pieces bs).length := by
        rw [pieces, if_neg hslash]
        cases hpieces : pieces bs with
        | nil => exact absurd hpieces (pieces_ne_nil bs)
        | cons piece rest => rfl
      have hbeq : (slash == b) = false := beq_eq_false_iff_ne.mpr (Ne.symm hslash)
      rw [hlength, List.contains_cons, hbeq, Bool.false_or]
      exact ih

theorem safePart_component {part : Name} (h : isSafePathNamePart part = true) :
    component? part = some (.normal part) := by
  have hsafe : part ≠ [] ∧ part ≠ [dot] ∧ part ≠ [dot, dot] := by
    have hbytes : asBytes "." = [dot] ∧ asBytes ".." = [dot, dot] := by decide
    simp only [isSafePathNamePart, hbytes.1, hbytes.2, Bool.and_eq_true, decide_eq_true_eq] at h
    exact ⟨h.1.1.1.1, h.1.1.1.2, h.1.1.2⟩
  unfold component?
  rw [if_neg (not_or.mpr ⟨hsafe.1, hsafe.2.1⟩), if_neg hsafe.2.2]

theorem components_of_safe {bs : List UInt8} (h : (pieces bs).all isSafePathNamePart = true) :
    components bs = (pieces bs).map .normal := by
  have hall := List.all_eq_true.mp h
  have hbody : (pieces bs).filterMap component? = (pieces bs).map .normal := by
    rw [← List.filterMap_eq_map]
    exact List.filterMap_congr fun part hpart => safePart_component (hall part hpart)
  have hhead : (pieces bs).headD [] ∈ pieces bs := by
    cases hpieces : pieces bs with
    | nil => exact absurd hpieces (pieces_ne_nil bs)
    | cons piece rest => exact List.mem_cons_self
  have hfirst := safePart_component (hall _ hhead)
  have hrelative : isAbsolute bs = false := by
    cases bs with
    | nil => rfl
    | cons b bs =>
      by_contra habsolute
      have hslash : b = slash := by simpa [isAbsolute] using habsolute
      rw [pieces, if_pos hslash, List.headD_cons] at hfirst
      exact absurd hfirst (by decide)
  have hdot : (pieces bs).head? ≠ some [dot] := by
    intro hdot
    rw [List.headD_eq_head?_getD, hdot, Option.getD_some] at hfirst
    exact absurd hfirst (by decide)
  unfold components
  simp only [hrelative, hdot, hbody, Bool.false_eq_true, if_false]

theorem validateInstallName_ok {name : String} (h : validateInstallName name = .ok ()) :
    components (asBytes name) = (nameParts name).map .normal ∧ IsInstallPath (nameParts name) := by
  unfold validateInstallName at h
  split_ifs at h with hempty hscoped hbad hbad
  · obtain ⟨hlength, -, hsafe⟩ := by simpa only [not_or, not_not] using hbad
    refine ⟨components_of_safe hsafe, Or.inr ?_⟩
    obtain ⟨scope, part, hparts⟩ := List.length_eq_two.mp hlength
    refine ⟨scope, part, hparts, ?_⟩
    cases hbytes : asBytes name with
    | nil =>
      rw [hbytes] at hscoped
      cases hscoped
    | cons b bs =>
      obtain rfl : b = atSign := by
        rw [hbytes] at hscoped
        exact Option.some.inj hscoped
      have hhead := head_pieces (b := atSign) bs (by decide)
      rw [← hbytes] at hhead
      rw [nameParts] at hparts
      rwa [hparts] at hhead
  · obtain ⟨hlength, hsafe⟩ := by simpa only [not_or, not_not] using hbad
    refine ⟨components_of_safe hsafe, Or.inl ?_⟩
    obtain ⟨part, hparts⟩ := List.length_eq_one_iff.mp hlength
    refine ⟨part, hparts, fun hhead => hscoped ?_⟩
    cases hbytes : asBytes name with
    | nil =>
      rw [nameParts, hbytes] at hparts
      obtain rfl : [] = part := (List.cons.inj hparts).1
      cases hhead
    | cons b bs =>
      by_cases hslash : b = slash
      · have hpieces : nameParts name = [] :: pieces bs := by
          rw [nameParts, hbytes, pieces, if_pos hslash]
        rw [hparts] at hpieces
        rw [(List.cons.inj hpieces).1] at hhead
        cases hhead
      · have hfirst := head_pieces bs hslash
        rw [nameParts, hbytes] at hparts
        rw [hparts, List.headD_cons, hhead] at hfirst
        rw [List.head?_cons, ← Option.some.inj hfirst]

/-- The scope is all of the name but its last part. -/
theorem scope_of_valid {name : String} (h : IsInstallPath (nameParts name)) :
    (nameParts name).dropLast = if isScoped name then [scopeOf name] else [] := by
  have hscoped := contains_slash_iff (asBytes name)
  have hlength : (pieces (asBytes name)).length = (nameParts name).length := rfl
  rcases h with ⟨part, hparts, -⟩ | ⟨scope, part, hparts, -⟩
  · rw [hlength, hparts] at hscoped
    have hno : isScoped name = false := by
      by_contra hyes
      have hlt := hscoped.mp (by simpa [isScoped] using hyes)
      exact absurd hlt (lt_irrefl 1)
    rw [hparts, hno]
    rfl
  · rw [hlength, hparts] at hscoped
    have hyes : isScoped name = true := hscoped.mpr (Nat.lt_succ_self 1)
    rw [hyes, scopeOf, hparts]
    rfl

theorem intercalate_pieces (bs : List UInt8) : [slash].intercalate (pieces bs) = bs := by
  induction bs with
  | nil => rfl
  | cons b bs ih =>
    by_cases hslash : b = slash
    · rw [pieces, if_pos hslash, hslash]
      cases hpieces : pieces bs with
      | nil => exact absurd hpieces (pieces_ne_nil bs)
      | cons piece rest =>
        rw [hpieces] at ih
        rw [List.intercalate_cons_cons, ih]
        rfl
    · rw [pieces, if_neg hslash]
      cases hpieces : pieces bs with
      | nil => exact absurd hpieces (pieces_ne_nil bs)
      | cons piece rest =>
        rw [hpieces] at ih
        cases rest with
        | nil =>
          rw [List.intercalate_singleton] at ih ⊢
          rw [ih]
        | cons next rest =>
          rw [List.intercalate_cons_cons] at ih ⊢
          rw [List.cons_append, List.cons_append, ih]

theorem nameParts_injective : Function.Injective nameParts := by
  intro a b h
  apply asBytes_injective
  rw [← intercalate_pieces (asBytes a), ← intercalate_pieces (asBytes b)]
  exact congrArg _ h

/-! ## Places -/

def pathOf (node : DepNode) : List Name := nameParts (installNameOf node)

def virtualPlace (key : String) : List Name := [oathName, asBytes (virtualKeyComponent key)]

def modulePlace (dir names : List Name) : List Name := dir ++ nodeModules :: names

/-- The place of a package. -/
def homeOf (row : String × DepNode) : List Name :=
  modulePlace (virtualPlace row.1) (pathOf row.2)

/-- What holds of a graph that is linked: its names are valid, and no two keys are written the same
way. -/
structure Named (graph : DepGraph) : Prop where
  valid (row : String × DepNode) : row ∈ graph.nodes.rows →
    validateInstallName (installNameOf row.2) = .ok ()
  keys (row row' : String × DepNode) : row ∈ graph.nodes.rows → row' ∈ graph.nodes.rows →
    virtualKeyComponent row.1 = virtualKeyComponent row'.1 → row = row'
  modules (row : String × DepNode) : row ∈ graph.nodes.rows → nodeModules ∉ pathOf row.2
  executables (row : String × DepNode) : row ∈ graph.nodes.rows → pathOf row.2 ≠ [binName]

def Installed (graph : DepGraph) (names : List Name) : Prop :=
  ∃ row ∈ graph.nodes.rows, names = pathOf row.2

/-- Where a link may be made. -/
inductive LinkPlace (graph : DepGraph) : List Name → Prop
  | hoisted (names : List Name) : Installed graph names → LinkPlace graph names
  | beside (row : String × DepNode) (names : List Name) : row ∈ graph.nodes.rows →
      Installed graph names → LinkPlace graph (modulePlace (virtualPlace row.1) names)
  | inside (row : String × DepNode) (names : List Name) : row ∈ graph.nodes.rows →
      Installed graph names → LinkPlace graph (modulePlace (homeOf row) names)
  | bin (name : Name) : LinkPlace graph [binName, name]

section Places
variable {graph : DepGraph} (hnamed : Named graph) {row row' : String × DepNode}
  {names names' : List Name}
include hnamed

theorem Named.path (hrow : row ∈ graph.nodes.rows) : IsInstallPath (pathOf row.2) :=
  (validateInstallName_ok (hnamed.valid row hrow)).2

theorem Named.installed (h : Installed graph names) :
    IsInstallPath names ∧ nodeModules ∉ names ∧ names ≠ [binName] := by
  obtain ⟨row, hrow, rfl⟩ := h
  exact ⟨hnamed.path hrow, hnamed.modules row hrow, hnamed.executables row hrow⟩

omit hnamed in
theorem beside_eq (key : String) (names : List Name) : modulePlace (virtualPlace key) names =
    oathName :: asBytes (virtualKeyComponent key) :: nodeModules :: names := rfl

omit hnamed in
theorem inside_eq (row : String × DepNode) (names : List Name) :
    modulePlace (homeOf row) names =
      modulePlace (virtualPlace row.1) (pathOf row.2 ++ nodeModules :: names) := by
  rw [beside_eq]
  rfl

omit hnamed in
theorem beside_starts {key key' : String} :
    modulePlace (virtualPlace key) names <+: modulePlace (virtualPlace key') names' ↔
      asBytes (virtualKeyComponent key) = asBytes (virtualKeyComponent key') ∧
        names <+: names' := by
  rw [beside_eq, beside_eq, List.cons_prefix_cons, List.cons_prefix_cons, List.cons_prefix_cons]
  exact ⟨fun ⟨_, hkey, _, h⟩ => ⟨hkey, h⟩, fun ⟨hkey, h⟩ => ⟨rfl, hkey, rfl, h⟩⟩

/-- What is below the directory of one key is not below that of another. -/
theorem Named.same_row (hrow : row ∈ graph.nodes.rows) (hrow' : row' ∈ graph.nodes.rows)
    (h : modulePlace (virtualPlace row.1) names <+: modulePlace (virtualPlace row'.1) names') :
    row = row' ∧ names <+: names' := by
  obtain ⟨hkey, hstarts⟩ := beside_starts.mp h
  exact ⟨hnamed.keys row row' hrow hrow' (asBytes_injective hkey), hstarts⟩

theorem Named.same_of_eq (hrow : row ∈ graph.nodes.rows) (hrow' : row' ∈ graph.nodes.rows)
    (h : modulePlace (virtualPlace row.1) names = modulePlace (virtualPlace row'.1) names') :
    row = row' ∧ names = names' := by
  have hstarts : modulePlace (virtualPlace row.1) names <+:
      modulePlace (virtualPlace row'.1) names' := by rw [h]
  refine ⟨(hnamed.same_row hrow hrow' hstarts).1, ?_⟩
  rw [beside_eq, beside_eq] at h
  exact (List.cons.inj (List.cons.inj (List.cons.inj h).2).2).2

/-- The place of a link is short or below the directory of a key. -/
theorem Named.linkPlace_of_length (h : LinkPlace graph names) (hlength : 2 < names.length) :
    ∃ row ∈ graph.nodes.rows, ∃ names', Installed graph names' ∧
      (names = modulePlace (virtualPlace row.1) names' ∨
        names = modulePlace (virtualPlace row.1) (pathOf row.2 ++ nodeModules :: names')) := by
  cases h with
  | hoisted _ hinstalled =>
    have hle := (hnamed.installed hinstalled).1.length_le
    omega
  | beside row names' hrow hinstalled => exact ⟨row, hrow, names', hinstalled, Or.inl rfl⟩
  | inside row names' hrow hinstalled =>
    exact ⟨row, hrow, names', hinstalled, Or.inr (inside_eq row names')⟩
  | bin name => exact absurd hlength (lt_irrefl 2)

omit hnamed in
theorem linkPlace_short (h : LinkPlace graph names) (hlength : names.length ≤ 2) :
    Installed graph names ∨ ∃ name, names = [binName, name] := by
  cases h with
  | hoisted _ hinstalled => exact Or.inl hinstalled
  | beside row names' _ hinstalled =>
    rw [beside_eq] at hlength
    simp only [List.length_cons] at hlength
    omega
  | inside row names' _ hinstalled =>
    rw [inside_eq, beside_eq] at hlength
    simp only [List.length_cons] at hlength
    omega
  | bin name => exact Or.inr ⟨name, rfl⟩

/-- Below the directory of a key there are the links beside its package and those in it. -/
theorem Named.linkPlace_above {place : List Name} (hrow : row ∈ graph.nodes.rows) (hne : names ≠ [])
    (h : LinkPlace graph place)
    (hstarts : modulePlace (virtualPlace row.1) names <+: place) :
    ∃ more, place = modulePlace (virtualPlace row.1) more ∧ names <+: more ∧
      (Installed graph more ∨
        ∃ names', Installed graph names' ∧ more = pathOf row.2 ++ nodeModules :: names') := by
  have hlength : 2 < place.length := by
    have hle := hstarts.length_le
    have hpos := List.length_pos_iff.mpr hne
    rw [beside_eq] at hle
    simp only [List.length_cons] at hle
    omega
  obtain ⟨row', hrow', names', hinstalled, rfl | rfl⟩ := hnamed.linkPlace_of_length h hlength
  · obtain ⟨rfl, hmore⟩ := hnamed.same_row hrow hrow' hstarts
    exact ⟨names', rfl, hmore, Or.inl hinstalled⟩
  · obtain ⟨rfl, hmore⟩ := hnamed.same_row hrow hrow' hstarts
    exact ⟨_, rfl, hmore, Or.inr ⟨names', hinstalled, rfl⟩⟩

/-- No link is at a directory of modules between a package and the directory of its key. -/
theorem Named.gap_above {init place : List Name} (hrow : row ∈ graph.nodes.rows)
    (hinit : init <+: pathOf row.2) (hproper : init ≠ pathOf row.2) (h : LinkPlace graph place) :
    ¬modulePlace (virtualPlace row.1) (init ++ [nodeModules]) <+: place := by
  intro hstarts
  have hmem : nodeModules ∈ init ++ [nodeModules] := List.mem_append_right _ List.mem_cons_self
  obtain ⟨more, -, hmore, hinstalled | ⟨names', -, rfl⟩⟩ :=
    hnamed.linkPlace_above hrow (List.append_ne_nil_of_right_ne_nil _ (List.cons_ne_nil _ _)) h
      hstarts
  · exact (hnamed.installed hinstalled).2.1 (hmore.subset hmem)
  · have hlength : (init ++ [nodeModules]).length ≤ (pathOf row.2).length := by
      have hlt : init.length < (pathOf row.2).length :=
        lt_of_le_of_ne hinit.length_le fun heq => hproper (hinit.eq_of_length heq)
      rwa [List.length_append, List.length_singleton]
    have hpath := List.prefix_of_prefix_length_le hmore (List.prefix_append _ _) hlength
    exact hnamed.modules row hrow (hpath.subset hmem)

/-- The files of a package are above no link. -/
theorem Named.files_above {rest place : List Name} (hrow : row ∈ graph.nodes.rows)
    (hne : rest ≠ []) (hmodules : rest.head? ≠ some nodeModules) (h : LinkPlace graph place) :
    ¬modulePlace (virtualPlace row.1) (pathOf row.2 ++ rest) <+: place := by
  intro hstarts
  have hpath := hnamed.path hrow
  obtain ⟨more, -, hmore, hinstalled | ⟨names', -, rfl⟩⟩ :=
    hnamed.linkPlace_above hrow (List.append_ne_nil_of_left_ne_nil hpath.ne_nil _) h hstarts
  · have habove := (List.prefix_append _ _).trans hmore
    have heq := hpath.eq_of_starts (hnamed.installed hinstalled).1 habove
    rw [← heq] at hmore
    have hnil := hmore.length_le
    rw [List.length_append] at hnil
    exact hne (List.length_eq_zero_iff.mp (by omega))
  · rw [List.prefix_append_right_inj] at hmore
    cases rest with
    | nil => exact hne rfl
    | cons first rest =>
      obtain rfl := (List.cons_prefix_cons.mp hmore).1
      exact hmodules rfl

/-- A link in a package is above no other. -/
theorem Named.inside_above {place : List Name} (hrow : row ∈ graph.nodes.rows)
    (hnames : Installed graph names) (h : LinkPlace graph place)
    (hstarts : modulePlace (homeOf row) names <+: place) :
    place = modulePlace (homeOf row) names := by
  have hpath := hnamed.path hrow
  rw [inside_eq] at hstarts ⊢
  obtain ⟨more, rfl, hmore, hinstalled | ⟨names', hinstalled, rfl⟩⟩ :=
    hnamed.linkPlace_above hrow (List.append_ne_nil_of_left_ne_nil hpath.ne_nil _) h hstarts
  · have habove := (List.prefix_append _ _).trans hmore
    have heq := hpath.eq_of_starts (hnamed.installed hinstalled).1 habove
    rw [← heq] at hmore
    have hnil := hmore.length_le
    rw [List.length_append, List.length_cons] at hnil
    omega
  · rw [List.prefix_append_right_inj] at hmore
    have hbelow := (List.cons_prefix_cons.mp hmore).2
    rw [(hnamed.installed hnames).1.eq_of_starts (hnamed.installed hinstalled).1 hbelow]

/-- A link beside a package is above no other, unless it has the name of the package. -/
theorem Named.beside_above {place : List Name} (hrow : row ∈ graph.nodes.rows)
    (hnames : Installed graph names) (hother : names ≠ pathOf row.2) (h : LinkPlace graph place)
    (hstarts : modulePlace (virtualPlace row.1) names <+: place) :
    place = modulePlace (virtualPlace row.1) names := by
  have hpath := (hnamed.installed hnames).1
  obtain ⟨more, rfl, hmore, hinstalled | ⟨names', hinstalled, rfl⟩⟩ :=
    hnamed.linkPlace_above hrow hpath.ne_nil h hstarts
  · rw [hpath.eq_of_starts (hnamed.installed hinstalled).1 hmore]
  · exact absurd (hpath.eq_of_common (hnamed.path hrow) hmore (List.prefix_append _ _)) hother

/-- On the way to a link there is no other, but for places on the way to a package. -/
theorem Named.linkPlace_way {init place : List Name} (h : LinkPlace graph place)
    (hinit : LinkPlace graph init) (hstarts : init <+: place) (hproper : init ≠ place) :
    ∃ row ∈ graph.nodes.rows, init <+: homeOf row := by
  cases hinit with
  | hoisted _ hinstalled =>
    obtain ⟨hpath, -, hbin⟩ := hnamed.installed hinstalled
    have hshort : ∀ row ∈ graph.nodes.rows, ∀ more,
        init <+: modulePlace (virtualPlace row.1) more → ∃ row ∈ graph.nodes.rows,
          init <+: homeOf row := by
      intro row hrow more habove
      refine ⟨row, hrow, ?_⟩
      have hcommon : [oathName, asBytes (virtualKeyComponent row.1)] <+:
          modulePlace (virtualPlace row.1) more := List.prefix_append _ _
      have hle := List.prefix_of_prefix_length_le habove hcommon hpath.length_le
      exact hle.trans (List.prefix_append _ _)
    cases h with
    | hoisted _ hother =>
      exact absurd (hpath.eq_of_starts (hnamed.installed hother).1 hstarts) hproper
    | beside row names hrow _ => exact hshort row hrow names hstarts
    | inside row names hrow _ =>
      rw [inside_eq] at hstarts
      exact hshort row hrow _ hstarts
    | bin name =>
      rcases hpath with ⟨part, rfl, -⟩ | ⟨scope, part, rfl, -⟩
      · obtain rfl := (List.cons_prefix_cons.mp hstarts).1
        exact absurd rfl hbin
      · exact absurd (hstarts.eq_of_length rfl) hproper
  | bin name =>
    have hfirst : ∀ row more, ¬[binName, name] <+: modulePlace (virtualPlace row) more := by
      intro row more habove
      have heq : binName = oathName := (List.cons_prefix_cons.mp habove).1
      exact absurd heq (by decide)
    cases h with
    | hoisted _ hinstalled =>
      exact absurd (hstarts.eq_of_length_le (hnamed.installed hinstalled).1.length_le) hproper
    | beside row names _ _ => exact absurd hstarts (hfirst row.1 names)
    | inside row names _ _ =>
      rw [inside_eq] at hstarts
      exact absurd hstarts (hfirst row.1 _)
    | bin other => exact absurd (hstarts.eq_of_length rfl) hproper
  | beside row names hrow hinstalled =>
    by_cases hown : names = pathOf row.2
    · exact ⟨row, hrow, hown ▸ List.prefix_rfl⟩
    · exact absurd (hnamed.beside_above hrow hinstalled hown h hstarts).symm hproper
  | inside row names hrow hinstalled =>
    exact absurd (hnamed.inside_above hrow hinstalled h hstarts).symm hproper

end Places

end Oath.Store
