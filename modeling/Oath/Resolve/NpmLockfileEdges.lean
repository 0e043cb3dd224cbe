import Oath.Resolve.NpmLockfile

/-! What the import of a lockfile of npm keeps of it. Packages of one name and version become one
node, so that of the places they stand in only the last one counts. -/

namespace Oath.Resolve
open Contracts Contracts.Value

/-! ## Directories -/

/-- The project, the package itself and the packages around it. -/
def Around (directory path : List Char) : Prop :=
  directory = [] ∨ directory = path ∨ ∃ rest, path = directory ++ (between ++ rest)

/-- No package is called `node_modules`. -/
def PlainPath (path : List Char) : Prop := ¬ "/node_modules/node_modules/".toList <:+: path

instance (path : List Char) : Decidable (PlainPath path) := inferInstanceAs (Decidable (¬ _))

/-- The directory around the path that is nearest to it, of those that provide the dependency. -/
structure Nearest (packages : Fields) (path dep : String) (directory : List Char) : Prop where
  around : Around directory path.toList
  provides : (packages.lookup (candidate directory dep)).isSome
  nearest (other : List Char) : Around other path.toList →
    (packages.lookup (candidate other dep)).isSome → other.length ≤ directory.length

section Directories
variable {directory path front back : List Char}

theorem PlainPath.of_append (h : PlainPath (front ++ back)) : PlainPath front := fun hwithin =>
  h (hwithin.trans List.infix_append_left)

/-- Two of the separators overlap in one character at most. -/
theorem between_overlap {middle rest : List Char} (hmiddle : middle ≠ [])
    (hshort : middle.length < between.length)
    (heq : between ++ rest = middle ++ (between ++ back)) :
    between ++ rest = "/node_modules/node_modules/".toList ++ back := by
  have hoverlap : ∀ k < between.length, 0 < k → between.drop k <+: between → k = 13 := by decide
  have htake : middle = between.take middle.length := by
    have hfront := congrArg (List.take middle.length) heq
    rw [List.take_append_of_le_length hshort.le, List.take_left] at hfront
    exact hfront.symm
  have hdrop : between.drop middle.length ++ rest = between ++ back := by
    have hback := congrArg (List.drop middle.length) heq
    rw [List.drop_append_of_le_length hshort.le, List.drop_left] at hback
    exact hback
  have hprefix : between.drop middle.length <+: between := by
    refine List.prefix_of_prefix_length_le ⟨rest, hdrop⟩ (List.prefix_append between back) ?_
    rw [List.length_drop]
    exact Nat.sub_le _ _
  have hlength := hoverlap middle.length hshort (List.length_pos_iff.mpr hmiddle) hprefix
  rw [hlength] at htake
  rw [heq, htake, ← List.append_assoc]
  rfl

theorem between_ne_nil : between ≠ [] := by decide

/-- What is in front of a separator other than the last is around what is in front of that. -/
theorem around_of_shorter {rest : List Char} (hplain : PlainPath path)
    (hlast : path = front ++ (between ++ back)) (h : path = directory ++ (between ++ rest))
    (hshort : directory.length < front.length) :
    ∃ more, front = directory ++ (between ++ more) := by
  have hdirectory : directory <+: path := ⟨between ++ rest, h.symm⟩
  have hfront : front <+: path := ⟨between ++ back, hlast.symm⟩
  obtain ⟨middle, rfl⟩ := List.prefix_of_prefix_length_le hdirectory hfront hshort.le
  rw [h, List.append_assoc] at hlast
  have heq := List.append_cancel_left hlast
  rcases Nat.lt_or_ge middle.length between.length with hinside | hlong
  · have hmiddle : middle ≠ [] := by
      rintro rfl
      rw [List.append_nil] at hshort
      exact absurd hshort (lt_irrefl _)
    have hnested : path = directory ++ ("/node_modules/node_modules/".toList ++ back) := by
      rw [h, between_overlap hmiddle hinside heq]
    refine absurd ⟨directory, back, ?_⟩ hplain
    rw [hnested, List.append_assoc]
  · have hmiddle : middle <+: between ++ rest := ⟨between ++ back, heq.symm⟩
    obtain ⟨more, rfl⟩ :=
      List.prefix_of_prefix_length_le (List.prefix_append between rest) hmiddle hlong
    exact ⟨more, rfl⟩

/-- The directories around a path are the path and those around the directory in front of its last
package. -/
theorem around_iff (hplain : PlainPath path) : Around directory path ↔
    directory = path ∨ Around directory ((Pieces.beforeLast between path).getD []) := by
  cases hbefore : Pieces.beforeLast between path with
  | none =>
    have hnone := Pieces.beforeLast_eq_none hbefore between_ne_nil
    rw [Option.getD_none]
    constructor
    · rintro (rfl | rfl | ⟨rest, rfl⟩)
      · exact Or.inr (Or.inl rfl)
      · exact Or.inl rfl
      · exact absurd ⟨directory, rest, List.append_assoc _ _ _⟩ hnone
    · rintro (rfl | rfl | rfl | ⟨rest, hrest⟩)
      · exact Or.inr (Or.inl rfl)
      · exact Or.inl rfl
      · exact Or.inl rfl
      · cases directory <;> cases hrest
  | some front =>
    obtain ⟨⟨back, hback⟩, hlast⟩ := Pieces.beforeLast_eq_some hbefore between_ne_nil
    rw [Option.getD_some]
    constructor
    · rintro (rfl | rfl | ⟨rest, hrest⟩)
      · exact Or.inr (Or.inl rfl)
      · exact Or.inl rfl
      · rcases (hlast directory rest hrest).lt_or_eq with hshort | hlength
        · exact Or.inr (Or.inr (Or.inr (around_of_shorter hplain hback hrest hshort)))
        · have hsame : directory = front :=
            (List.append_inj (hrest.symm.trans hback) hlength).1
          exact Or.inr (Or.inr (Or.inl hsame))
    · rintro (rfl | rfl | rfl | ⟨rest, rfl⟩)
      · exact Or.inr (Or.inl rfl)
      · exact Or.inl rfl
      · exact Or.inr (Or.inr ⟨back, hback⟩)
      · refine Or.inr (Or.inr ⟨rest ++ (between ++ back), ?_⟩)
        rw [hback]
        simp only [List.append_assoc]

theorem length_beforeLast_lt (hne : path ≠ []) :
    ((Pieces.beforeLast between path).getD []).length < path.length := by
  cases hbefore : Pieces.beforeLast between path with
  | none => exact List.length_pos_iff.mpr hne
  | some front =>
    obtain ⟨⟨back, hback⟩, -⟩ := Pieces.beforeLast_eq_some hbefore between_ne_nil
    have hlong : 0 < between.length := by decide
    rw [Option.getD_some, hback, List.length_append, List.length_append]
    omega

theorem PlainPath.beforeLast (hplain : PlainPath path) :
    PlainPath ((Pieces.beforeLast between path).getD []) := by
  cases hbefore : Pieces.beforeLast between path with
  | none => decide
  | some front =>
    obtain ⟨⟨back, hback⟩, -⟩ := Pieces.beforeLast_eq_some hbefore between_ne_nil
    rw [hback] at hplain
    exact hplain.of_append

theorem length_le_of_around (h : Around directory path) : directory.length ≤ path.length := by
  rcases h with rfl | rfl | ⟨rest, rfl⟩
  · exact Nat.zero_le _
  · exact le_rfl
  · rw [List.length_append]
    exact Nat.le_add_right _ _

end Directories

section Search
variable {packages : Fields} {path dep target : String} {directory : List Char}

/-- The loop finds the nearest of the directories around. -/
theorem resolveFrom_eq_some_iff {fuel : ℕ} {start : List Char} (hplain : PlainPath start)
    (hfuel : start.length < fuel) : resolveFrom packages dep fuel start = some target ↔
      ∃ directory, Nearest packages (String.ofList start) dep directory ∧
        target = candidate directory dep := by
  induction fuel generalizing start with
  | zero => exact absurd hfuel (Nat.not_lt_zero _)
  | succ fuel ih =>
    rw [resolveFrom]
    split_ifs with hhere hroot
    · constructor
      · intro h
        refine ⟨start, ⟨?_, hhere, fun other haround _ => ?_⟩, (Option.some.inj h).symm⟩
        · exact Or.inr (Or.inl String.toList_ofList.symm)
        · rw [String.toList_ofList] at haround
          exact length_le_of_around haround
      · rintro ⟨directory, hnearest, rfl⟩
        have haround := hnearest.around
        rw [String.toList_ofList] at haround
        have hlong := hnearest.nearest start (Or.inr (Or.inl String.toList_ofList.symm)) hhere
        rcases haround with rfl | rfl | ⟨rest, hrest⟩
        · rw [List.eq_nil_of_length_eq_zero (Nat.le_zero.mp hlong)]
        · rfl
        · have hnone : (between ++ rest).length = 0 := by
            rw [hrest, List.length_append] at hlong
            omega
          exact absurd (List.append_eq_nil_iff.mp (List.eq_nil_of_length_eq_zero hnone)).1
            between_ne_nil
    · refine iff_of_false (fun h => by cases h) ?_
      rintro ⟨directory, hnearest, -⟩
      have haround := hnearest.around
      rw [String.toList_ofList, hroot] at haround
      have hnil : directory = [] :=
        List.eq_nil_of_length_eq_zero (Nat.le_zero.mp (length_le_of_around haround))
      rw [hroot, ← hnil] at hhere
      exact hhere hnearest.provides
    · have hshort := length_beforeLast_lt hroot
      rw [ih hplain.beforeLast (by omega)]
      have hiff (directory : List Char)
          (hprovides : (packages.lookup (candidate directory dep)).isSome) :
          Around directory start ↔
            Around directory ((Pieces.beforeLast between start).getD []) := by
        rw [around_iff hplain]
        refine or_iff_right fun heq => hhere ?_
        rw [← heq]
        exact hprovides
      refine exists_congr fun directory => and_congr_left fun _ => ?_
      constructor
      · rintro ⟨haround, hprovides, hnearest⟩
        rw [String.toList_ofList] at haround hnearest
        refine ⟨?_, hprovides, fun other hother hfound => ?_⟩
        · rw [String.toList_ofList]
          exact (hiff directory hprovides).mpr haround
        · rw [String.toList_ofList] at hother
          exact hnearest other ((hiff other hfound).mp hother) hfound
      · rintro ⟨haround, hprovides, hnearest⟩
        rw [String.toList_ofList] at haround hnearest
        refine ⟨?_, hprovides, fun other hother hfound => ?_⟩
        · rw [String.toList_ofList]
          exact (hiff directory hprovides).mp haround
        · rw [String.toList_ofList] at hother
          exact hnearest other ((hiff other hfound).mpr hother) hfound

theorem resolveDepPath_eq_some_iff (hplain : PlainPath path.toList) :
    resolveDepPath packages path dep = some target ↔
      ∃ directory, Nearest packages path dep directory ∧ target = candidate directory dep := by
  rw [resolveDepPath, resolveFrom_eq_some_iff hplain (Nat.lt_succ_self _), String.ofList_toList]

end Search

/-! ## Packages -/

section Packages
variable (host : Host) (packages : Fields)

/-- The key of the package that stands at the path, when it is imported. -/
def keyAt (path : String) : Option String :=
  (packages.lookup path).bind fun value => (npmNode? host path value).map canonicalKey

/-- The entry at the path is imported as this node. -/
structure At (path : String) (entry : Fields) (node : DepNode) : Prop where
  mem : (path, Value.object entry) ∈ packages
  imports : npmNode? host path (.object entry) = some node

/-- Nothing of the same name and version stands behind it in the map. -/
structure LastAt (path : String) (entry : Fields) (node : DepNode) : Prop where
  imports : npmNode? host path (.object entry) = some node
  last : ∃ front back, packages = front ++ (path, .object entry) :: back ∧
    ∀ row ∈ back, ∀ other, npmNode? host row.1 row.2 = some other →
      canonicalKey other ≠ canonicalKey node

/-- What an entry declares. -/
def declared (entry : Fields) : List String :=
  depNames entry ["dependencies", "optionalDependencies"]

end Packages

section Passes
variable {host : Host} {packages : Fields} {path : String} {entry : Fields} {node : DepNode}
  {value : Value} {key dep : String}

theorem object_of_npmNode? (h : npmNode? host path value = some node) :
    ∃ entry, value = .object entry := by
  unfold npmNode? at h
  split_ifs at h
  cases value with
  | object entry => exact ⟨entry, rfl⟩
  | _ => cases h

theorem LastAt.at (h : LastAt host packages path entry node) :
    At host packages path entry node := by
  obtain ⟨front, back, hsplit, -⟩ := h.last
  refine ⟨?_, h.imports⟩
  rw [hsplit]
  exact List.mem_append_right front List.mem_cons_self

variable (hnodup : (packages.map Prod.fst).Nodup)
include hnodup

theorem lookup_eq_some_iff : packages.lookup path = some value ↔ (path, value) ∈ packages := by
  induction packages with
  | nil => exact iff_of_false (fun h => by cases h) List.not_mem_nil
  | cons row rest ih =>
    obtain ⟨path', value'⟩ := row
    obtain ⟨hfresh, hrest⟩ := List.nodup_cons.mp hnodup
    rw [lookup_cons, List.mem_cons, Prod.mk_inj]
    split_ifs with hsame
    · have hnot : (path, value) ∉ rest := by
        intro hmem
        have hkeys : path ∈ rest.map Prod.fst := List.mem_map_of_mem hmem
        rw [hsame] at hkeys
        exact hfresh hkeys
      rw [Option.some_inj, or_iff_left hnot]
      exact ⟨fun heq => ⟨hsame, heq.symm⟩, fun h => h.2.symm⟩
    · rw [ih hrest]
      exact ⟨Or.inr, fun h => h.resolve_left fun heq => hsame heq.1⟩

theorem keyAt_eq_some_iff : keyAt host packages path = some key ↔
    ∃ entry node, At host packages path entry node ∧ canonicalKey node = key := by
  unfold keyAt
  rw [Option.bind_eq_some_iff]
  constructor
  · rintro ⟨value, hlookup, hkey⟩
    obtain ⟨node, hnode, rfl⟩ := Option.map_eq_some_iff.mp hkey
    obtain ⟨entry, rfl⟩ := object_of_npmNode? hnode
    exact ⟨entry, node, ⟨(lookup_eq_some_iff hnodup).mp hlookup, hnode⟩, rfl⟩
  · rintro ⟨entry, node, hat, rfl⟩
    refine ⟨_, (lookup_eq_some_iff hnodup).mpr hat.mem, ?_⟩
    rw [hat.imports]
    rfl

theorem find?_pathToKey (path : String) :
    (pathToKey host packages).find? path = keyAt host packages path := by
  have hpaths : ((imported host packages).map fun row =>
      (row.1, canonicalKey row.2)).Pairwise fun row other => row.1 ≠ other.1 := by
    refine List.pairwise_map.mpr (List.pairwise_filterMap.mpr ?_)
    refine (List.pairwise_map.mp hnodup).imp ?_
    intro row other hne imported himported later hlater
    obtain ⟨node, -, rfl⟩ := Option.map_eq_some_iff.mp himported
    obtain ⟨node', -, rfl⟩ := Option.map_eq_some_iff.mp hlater
    exact hne
  refine Option.ext fun key => ?_
  rw [keyAt_eq_some_iff hnodup]
  constructor
  · intro h
    obtain ⟨row, hrow, heq⟩ := List.mem_map.mp (OrderedMap.mem_of_find?_ofList h)
    obtain ⟨⟨path', value⟩, hmem, himport⟩ := List.mem_filterMap.mp hrow
    obtain ⟨node, hnode, rfl⟩ := Option.map_eq_some_iff.mp himport
    obtain ⟨rfl, rfl⟩ := Prod.mk_inj.mp heq
    obtain ⟨entry, rfl⟩ := object_of_npmNode? hnode
    exact ⟨entry, node, ⟨hmem, hnode⟩, rfl⟩
  · rintro ⟨entry, node, hat, rfl⟩
    have hrow : (path, canonicalKey node) ∈ (imported host packages).map fun row =>
        (row.1, canonicalKey row.2) := by
      refine List.mem_map.mpr ⟨(path, node), List.mem_filterMap.mpr ⟨_, hat.mem, ?_⟩, rfl⟩
      rw [hat.imports]
      rfl
    obtain ⟨front, back, hsplit⟩ := List.append_of_mem hrow
    rw [hsplit] at hpaths
    have hback : ∀ row ∈ back, row.1 ≠ path := fun row hmem =>
      (List.rel_of_pairwise_cons (List.pairwise_append.mp hpaths).2.1 hmem).symm
    unfold pathToKey
    rw [hsplit]
    exact OrderedMap.find?_ofList_last hback

omit hnodup in
/-- What is put under names is the same whenever a name comes. -/
theorem find?_foldl_insertFound (found : String → Option String) (names : List String)
    (m : OrderedMap String String) : (names.foldl (insertFound found) m).find? dep =
      if dep ∈ names then (found dep).or (m.find? dep) else m.find? dep := by
  induction names generalizing m with
  | nil => exact (if_neg List.not_mem_nil).symm
  | cons name names ih =>
    have hstep : (insertFound found m name).find? dep =
        if dep = name then (found dep).or (m.find? dep) else m.find? dep := by
      unfold insertFound
      cases hfound : found name with
      | none =>
        split_ifs with hsame
        · rw [hsame, hfound, Option.none_or]
        · rfl
      | some key =>
        dsimp only
        rw [OrderedMap.find?_insert]
        split_ifs with hsame
        · rw [hsame, hfound, Option.some_or]
        · rfl
    rw [List.foldl_cons, ih, hstep]
    simp only [List.mem_cons]
    by_cases hmem : dep ∈ names
    · rw [if_pos hmem, if_pos (Or.inr hmem)]
      split_ifs
      · rw [← Option.or_assoc, Option.or_self]
      · rfl
    · rw [if_neg hmem]
      simp only [hmem, or_false]

theorem find?_resolvedDeps (dep : String) :
    (resolvedDeps host packages path entry).find? dep =
      if dep ∈ declared entry then (resolveDepPath packages path dep).bind (keyAt host packages)
      else none := by
  have hkeys : (pathToKey host packages).find? = keyAt host packages :=
    funext (find?_pathToKey hnodup)
  unfold resolvedDeps
  rw [find?_foldl_insertFound, OrderedMap.find?_empty, Option.or_none, resolvedKey, hkeys]
  rfl

omit hnodup in
/-- Every package is imported from the last of the places it stands in. -/
theorem find?_skeletons (h : LastAt host packages path entry node) :
    (skeletons host packages).find? (canonicalKey node) = some node := by
  obtain ⟨front, back, hsplit, hlast⟩ := h.last
  have hback : ∀ row ∈ (imported host back).map fun row => (canonicalKey row.2, row.2),
      row.1 ≠ canonicalKey node := by
    intro row hrow
    obtain ⟨⟨path', other⟩, hmem, rfl⟩ := List.mem_map.mp hrow
    obtain ⟨source, hsource, hother⟩ := List.mem_filterMap.mp hmem
    obtain ⟨other', hnode, heq⟩ := Option.map_eq_some_iff.mp hother
    obtain ⟨rfl, rfl⟩ := Prod.mk_inj.mp heq
    exact hlast source hsource other' hnode
  unfold skeletons imported
  rw [hsplit, List.filterMap_append, List.filterMap_cons, h.imports, Option.map_some,
    List.map_append, List.map_cons]
  exact OrderedMap.find?_ofList_last hback

/-! ## The second pass -/

theorem find?_linkEntry (h : At host packages path entry node)
    (nodes : OrderedMap String DepNode) :
    (linkEntry host packages nodes (path, .object entry)).find? (canonicalKey node) =
      (nodes.find? (canonicalKey node)).map fun old =>
        { old with dependencies := resolvedDeps host packages path entry } := by
  have hkey : (pathToKey host packages).find? path = some (canonicalKey node) := by
    rw [find?_pathToKey hnodup]
    exact (keyAt_eq_some_iff hnodup).mpr ⟨entry, node, h, rfl⟩
  unfold linkEntry
  dsimp only [asObject?]
  rw [hkey]
  dsimp only
  cases hold : nodes.find? (canonicalKey node) with
  | none => exact hold
  | some old =>
    dsimp only
    rw [OrderedMap.find?_insert, if_pos rfl]
    rfl

theorem find?_linkEntry_of_ne {row : String × Value} (hmem : row ∈ packages)
    (hne : ∀ other, npmNode? host row.1 row.2 = some other → canonicalKey other ≠ key)
    (nodes : OrderedMap String DepNode) :
    (linkEntry host packages nodes row).find? key = nodes.find? key := by
  obtain ⟨path, value⟩ := row
  unfold linkEntry
  rw [find?_pathToKey hnodup]
  dsimp only
  cases value.asObject? with
  | none => rfl
  | some entry =>
    cases hkey : keyAt host packages path with
    | none => rfl
    | some own =>
      obtain ⟨entry', node, hat, rfl⟩ := (keyAt_eq_some_iff hnodup).mp hkey
      have hvalue : value = .object entry' := by
        have hlookup := (lookup_eq_some_iff hnodup).mpr hmem
        rw [(lookup_eq_some_iff hnodup).mpr hat.mem] at hlookup
        exact (Option.some.inj hlookup).symm
      have hother : key ≠ canonicalKey node := (hne node (hvalue ▸ hat.imports)).symm
      dsimp only
      cases nodes.find? (canonicalKey node) with
      | none => rfl
      | some old =>
        dsimp only
        rw [OrderedMap.find?_insert, if_neg hother]

theorem find?_linked_of_ne {rows : Fields} (hrows : rows ⊆ packages)
    (hne : ∀ row ∈ rows, ∀ other, npmNode? host row.1 row.2 = some other →
      canonicalKey other ≠ key) (nodes : OrderedMap String DepNode) :
    (rows.foldl (linkEntry host packages) nodes).find? key = nodes.find? key := by
  induction rows generalizing nodes with
  | nil => rfl
  | cons row rows ih =>
    have hrest : rows ⊆ packages := fun other hmem => hrows (List.mem_cons_of_mem row hmem)
    rw [List.foldl_cons, ih hrest fun other hmem => hne other (List.mem_cons_of_mem row hmem)]
    exact find?_linkEntry_of_ne hnodup (hrows List.mem_cons_self) (hne row List.mem_cons_self) nodes

/-- The second pass changes nothing of a node but its dependencies. -/
theorem find?_linked {rows : Fields} (hrows : rows ⊆ packages)
    {nodes : OrderedMap String DepNode} (h : nodes.find? key = some node) :
    ∃ dependencies, (rows.foldl (linkEntry host packages) nodes).find? key =
      some { node with dependencies } := by
  induction rows generalizing nodes node with
  | nil => exact ⟨node.dependencies, h⟩
  | cons row rows ih =>
    have hrest : rows ⊆ packages := fun other hmem => hrows (List.mem_cons_of_mem row hmem)
    rw [List.foldl_cons]
    by_cases hother : ∀ other, npmNode? host row.1 row.2 = some other → canonicalKey other ≠ key
    · refine ih hrest ?_
      rw [find?_linkEntry_of_ne hnodup (hrows List.mem_cons_self) hother, h]
    · push Not at hother
      obtain ⟨own, hown, rfl⟩ := hother
      obtain ⟨path, value⟩ := row
      obtain ⟨entry, rfl⟩ := object_of_npmNode? hown
      have hat : At host packages path entry own := ⟨hrows List.mem_cons_self, hown⟩
      have hstep := find?_linkEntry hnodup hat nodes
      rw [h, Option.map_some] at hstep
      obtain ⟨dependencies, hfound⟩ := ih hrest hstep
      exact ⟨dependencies, hfound⟩

/-- A node of the graph is what the last of its places makes of it. -/
theorem find?_nodes (h : LastAt host packages path entry node) :
    (packages.foldl (linkEntry host packages) (skeletons host packages)).find? (canonicalKey node) =
      some { node with dependencies := resolvedDeps host packages path entry } := by
  have hskeleton := find?_skeletons h
  have hstep := find?_linkEntry hnodup h.at
  obtain ⟨front, back, hsplit, hlast⟩ := h.last
  have hfront : front ⊆ packages := by
    rw [hsplit]
    exact List.subset_append_left front _
  have hback : back ⊆ packages := by
    rw [hsplit]
    exact fun row hmem => List.mem_append_right front (List.mem_cons_of_mem _ hmem)
  obtain ⟨dependencies, hfound⟩ := find?_linked hnodup hfront hskeleton
  have hfold : packages.foldl (linkEntry host packages) (skeletons host packages) =
      back.foldl (linkEntry host packages) (linkEntry host packages
        (front.foldl (linkEntry host packages) (skeletons host packages))
          (path, .object entry)) := by
    have hwhole := congrArg (List.foldl (linkEntry host packages) (skeletons host packages)) hsplit
    refine hwhole.trans ?_
    rw [List.foldl_append, List.foldl_cons]
  rw [hfold, find?_linked_of_ne hnodup hback hlast, hstep, hfound]
  rfl

omit hnodup in
theorem exists_lastAt (h : At host packages path entry node) :
    ∃ path' entry' node', LastAt host packages path' entry' node' ∧
      canonicalKey node' = canonicalKey node := by
  let hasKey (row : String × Value) : Bool :=
    (npmNode? host row.1 row.2).map canonicalKey = some (canonicalKey node)
  have hsome : (packages.reverse.find? hasKey).isSome := by
    refine List.find?_isSome.mpr ⟨_, List.mem_reverse.mpr h.mem, ?_⟩
    exact decide_eq_true (by rw [h.imports]; rfl)
  obtain ⟨⟨path', value⟩, hfind⟩ := Option.isSome_iff_exists.mp hsome
  obtain ⟨hrow, after, before, hsplit, hafter⟩ := List.find?_eq_some_iff_append.mp hfind
  obtain ⟨node', hnode, hkey⟩ := Option.map_eq_some_iff.mp (of_decide_eq_true hrow)
  obtain ⟨entry', rfl⟩ := object_of_npmNode? hnode
  refine ⟨path', entry', node', ⟨hnode, before.reverse, after.reverse, ?_, ?_⟩, hkey⟩
  · rw [← List.reverse_reverse packages, hsplit]
    simp
  · intro row hmem other hother heq
    have hnot := hafter row (List.mem_reverse.mp hmem)
    have hhas : hasKey row = true := decide_eq_true (by rw [hother, ← hkey, ← heq]; rfl)
    rw [hhas] at hnot
    cases hnot

end Passes

/-! ## The graph -/

section Graph
variable (host : Host) (packages : Fields)

/-- Each package has an edge to what the nearest directory around it provides for a dependency, and
is a package for development only where it stands only for development. -/
structure Faithful (graph : DepGraph) : Prop where
  edges (path : String) (entry : Fields) (node : DepNode) : At host packages path entry node →
    ∃ merged, graph.nodes.find? (canonicalKey node) = some merged ∧
      ∀ dep ∈ declared entry, ∀ directory, Nearest packages path dep directory →
        merged.dependencies.find? dep = keyAt host packages (candidate directory dep)
  dev (key : String) (merged : DepNode) : graph.nodes.find? key = some merged → merged.dev →
    ∀ path entry node, At host packages path entry node → canonicalKey node = key → node.dev

/-- A place and the last place of the same name and version have the same edges for what the first
declares, and if the last is for development the first is. -/
structure Agree : Prop where
  edges (path path' : String) (entry entry' : Fields) (node node' : DepNode) :
    At host packages path entry node → LastAt host packages path' entry' node' →
    canonicalKey node = canonicalKey node' →
    ∀ dep ∈ declared entry, ∀ directory, Nearest packages path dep directory →
      ∀ key, keyAt host packages (candidate directory dep) = some key ↔
        dep ∈ declared entry' ∧ ∃ directory', Nearest packages path' dep directory' ∧
          keyAt host packages (candidate directory' dep) = some key
  dev (path path' : String) (entry entry' : Fields) (node node' : DepNode) :
    At host packages path entry node → LastAt host packages path' entry' node' →
    canonicalKey node = canonicalKey node' → node'.dev → node.dev

end Graph

section Import
variable {host : Host} {packages : Fields} {path dep key : String} {entry : Fields}
  (hnodup : (packages.map Prod.fst).Nodup)
  (hplain : ∀ row ∈ packages, PlainPath row.1.toList)
include hnodup hplain

theorem find?_resolvedDeps_eq_some_iff {node : DepNode} (h : At host packages path entry node) :
    (resolvedDeps host packages path entry).find? dep = some key ↔
      dep ∈ declared entry ∧ ∃ directory, Nearest packages path dep directory ∧
        keyAt host packages (candidate directory dep) = some key := by
  have hpath : PlainPath path.toList := hplain _ h.mem
  rw [find?_resolvedDeps hnodup, Option.ite_none_right_eq_some, Option.bind_eq_some_iff]
  refine and_congr_right fun _ => ?_
  constructor
  · rintro ⟨target, htarget, hkey⟩
    obtain ⟨directory, hnearest, rfl⟩ := (resolveDepPath_eq_some_iff hpath).mp htarget
    exact ⟨directory, hnearest, hkey⟩
  · rintro ⟨directory, hnearest, hkey⟩
    exact ⟨_, (resolveDepPath_eq_some_iff hpath).mpr ⟨directory, hnearest, rfl⟩, hkey⟩

/-- The import is faithful exactly when the places of one name and version agree with the last. -/
theorem faithful_iff {graph : DepGraph} (hnodes : graph.nodes =
      packages.foldl (linkEntry host packages) (skeletons host packages)) :
    Faithful host packages graph ↔ Agree host packages := by
  constructor
  · intro hfaithful
    constructor
    · intro path path' entry entry' node node' hat hlast hsame dep hdep directory hnearest key
      obtain ⟨merged, hfound, hedges⟩ := hfaithful.edges path entry node hat
      have hmerged := find?_nodes hnodup hlast
      rw [← hnodes, ← hsame, hfound] at hmerged
      have hdeps : merged.dependencies = resolvedDeps host packages path' entry' :=
        congrArg DepNode.dependencies (Option.some.inj hmerged)
      rw [← hedges dep hdep directory hnearest, hdeps]
      exact find?_resolvedDeps_eq_some_iff hnodup hplain hlast.at
    · intro path path' entry entry' node node' hat hlast hsame hdev
      have hmerged := find?_nodes hnodup hlast
      rw [← hnodes] at hmerged
      exact hfaithful.dev _ _ hmerged hdev path entry node hat hsame
  · intro hagree
    constructor
    · intro path entry node hat
      obtain ⟨path', entry', node', hlast, hsame⟩ := exists_lastAt hat
      have hmerged := find?_nodes hnodup hlast
      rw [← hnodes, hsame] at hmerged
      refine ⟨_, hmerged, fun dep hdep directory hnearest => Option.ext fun key => ?_⟩
      rw [hagree.edges path path' entry entry' node node' hat hlast hsame.symm dep hdep directory
        hnearest key]
      exact find?_resolvedDeps_eq_some_iff hnodup hplain hlast.at
    · intro key merged hfound hdev path entry node hat hkey
      obtain ⟨path', entry', node', hlast, hsame⟩ := exists_lastAt hat
      have hmerged := find?_nodes hnodup hlast
      rw [← hnodes, hsame, hkey, hfound] at hmerged
      rw [Option.some.inj hmerged] at hdev
      exact hagree.dev path path' entry entry' node node' hat hlast hsame.symm hdev

/-- Where no name and version stands in two places all agree. -/
theorem agree_of_once (honce : ∀ path path' entry entry' node node',
      At host packages path entry node → At host packages path' entry' node' →
      canonicalKey node = canonicalKey node' → path = path') : Agree host packages := by
  have hentry {path : String} {entry entry' : Fields} {node node' : DepNode}
      (hat : At host packages path entry node) (hat' : At host packages path entry' node') :
      entry = entry' ∧ node = node' := by
    have hlookup := (lookup_eq_some_iff hnodup).mpr hat.mem
    rw [(lookup_eq_some_iff hnodup).mpr hat'.mem] at hlookup
    obtain rfl : entry' = entry := by simpa using hlookup
    exact ⟨rfl, Option.some.inj (hat.imports.symm.trans hat'.imports)⟩
  constructor
  · intro path path' entry entry' node node' hat hlast hsame dep hdep directory hnearest key
    obtain rfl := honce path path' entry entry' node node' hat hlast.at hsame
    obtain ⟨rfl, rfl⟩ := hentry hat hlast.at
    have hpath : PlainPath path.toList := hplain _ hat.mem
    have hfound := (resolveDepPath_eq_some_iff hpath).mpr ⟨directory, hnearest, rfl⟩
    constructor
    · exact fun hkey => ⟨hdep, directory, hnearest, hkey⟩
    · rintro ⟨-, other, hother, hkey⟩
      have hfound' := (resolveDepPath_eq_some_iff hpath).mpr ⟨other, hother, rfl⟩
      rw [Option.some.inj (hfound.symm.trans hfound')]
      exact hkey
  · intro path path' entry entry' node node' hat hlast hsame hdev
    obtain rfl := honce path path' entry entry' node node' hat hlast.at hsame
    obtain ⟨-, rfl⟩ := hentry hat hlast.at
    exact hdev

omit hplain in
/-- A lockfile with a package that can be installed is imported. -/
theorem exists_import {fromStr : String → Except String Value} {data : String} {root : Value}
    {node : DepNode} (file : String) (hroot : fromStr data = .ok root)
    (hpackages : (root.get? "packages").bind asObject? = some packages)
    (h : At host packages path entry node) :
    ∃ graph, importNpmLockfile host fromStr file (.ok data) = .ok graph := by
  obtain ⟨path', entry', node', hlast, -⟩ := exists_lastAt h
  have hfound := OrderedMap.find?_eq_some.mp (find?_nodes hnodup hlast)
  unfold importNpmLockfile
  dsimp only
  rw [hroot]
  dsimp only
  rw [hpackages]
  dsimp only
  rw [if_neg]
  · exact ⟨_, rfl⟩
  · intro hempty
    rw [List.isEmpty_iff.mp hempty] at hfound
    exact List.not_mem_nil hfound

omit hnodup hplain in
theorem nodes_of_import {fromStr : String → Except String Value} {file data : String}
    {root : Value} {graph : DepGraph} (hroot : fromStr data = .ok root)
    (hpackages : (root.get? "packages").bind asObject? = some packages)
    (h : importNpmLockfile host fromStr file (.ok data) = .ok graph) : graph.nodes =
      packages.foldl (linkEntry host packages) (skeletons host packages) := by
  unfold importNpmLockfile at h
  dsimp only at h
  rw [hroot] at h
  dsimp only at h
  rw [hpackages] at h
  dsimp only at h
  split_ifs at h
  obtain rfl := Except.ok.inj h
  rfl

theorem import_faithful_iff {fromStr : String → Except String Value} {file data : String}
    {root : Value} {graph : DepGraph} (hroot : fromStr data = .ok root)
    (hpackages : (root.get? "packages").bind asObject? = some packages)
    (h : importNpmLockfile host fromStr file (.ok data) = .ok graph) :
    Faithful host packages graph ↔ Agree host packages :=
  faithful_iff hnodup hplain (nodes_of_import hroot hpackages h)

end Import

/-! ## Two lockfiles -/

namespace Demo

def linux : Host := ⟨"linux", "x86_64"⟩

/-- An entry with its version, what it needs and whether it is for development only. -/
def entryOf (version : String) (needs : List String) (dev : Bool) : Fields :=
  [("dependencies", .object (needs.map fun name => (name, .string "^1.0.0"))), ("dev", .bool dev),
    ("version", .string version)]

def lockOf (packages : Fields) : Value :=
  .object [("lockfileVersion", .int 3), ("packages", .object packages)]

/-- `b` is nested, since another one is needed above. -/
def nestedPackages : Fields := [
  ("node_modules/a", .object (entryOf "1.0.0" ["b"] false)),
  ("node_modules/a/node_modules/b", .object (entryOf "1.2.0" [] false)),
  ("node_modules/b", .object (entryOf "2.0.0" [] false))]

def nestedText : String :=
  "\x7b\"lockfileVersion\":3,\"packages\":\x7b" ++
    "\"node_modules/a\":\x7b\"version\":\"1.0.0\",\"dependencies\":\x7b\"b\":\"^1.0.0\"\x7d," ++
    "\"dev\":false\x7d,\"node_modules/a/node_modules/b\":\x7b\"version\":\"1.2.0\"," ++
    "\"dependencies\":\x7b\x7d,\"dev\":false\x7d,\"node_modules/b\":\x7b\"version\":\"2.0.0\"," ++
    "\"dependencies\":\x7b\x7d,\"dev\":false\x7d\x7d\x7d"

/-- `x` stands in two places, and only in the second for development. -/
def sharedPackages : Fields := [
  ("node_modules/a", .object (entryOf "1.0.0" ["x"] false)),
  ("node_modules/a/node_modules/x", .object (entryOf "1.0.0" [] false)),
  ("node_modules/b", .object (entryOf "1.0.0" ["x"] true)),
  ("node_modules/b/node_modules/x", .object (entryOf "1.0.0" [] true)),
  ("node_modules/x", .object (entryOf "2.0.0" [] false))]

def sharedText : String :=
  "\x7b\"lockfileVersion\":3,\"packages\":\x7b" ++
    "\"node_modules/a\":\x7b\"version\":\"1.0.0\",\"dependencies\":\x7b\"x\":\"^1.0.0\"\x7d," ++
    "\"dev\":false\x7d,\"node_modules/a/node_modules/x\":\x7b\"version\":\"1.0.0\"," ++
    "\"dependencies\":\x7b\x7d,\"dev\":false\x7d,\"node_modules/b\":\x7b\"version\":\"1.0.0\"," ++
    "\"dependencies\":\x7b\"x\":\"^1.0.0\"\x7d,\"dev\":true\x7d," ++
    "\"node_modules/b/node_modules/x\":\x7b\"version\":\"1.0.0\",\"dependencies\":\x7b\x7d," ++
    "\"dev\":true\x7d,\"node_modules/x\":\x7b\"version\":\"2.0.0\"," ++
    "\"dependencies\":\x7b\x7d,\"dev\":false\x7d\x7d\x7d"

end Demo

open Demo in
theorem import_faithful_nested : ∃ graph,
    importNpmLockfile linux (fun _ => .ok (lockOf nestedPackages)) "package-lock.json"
      (.ok nestedText) = .ok graph ∧ Faithful linux nestedPackages graph := by
  have hnodup : (nestedPackages.map Prod.fst).Nodup := by decide
  have hplain : ∀ row ∈ nestedPackages, PlainPath row.1.toList := by
    intro row hrow
    have hpaths : ∀ path ∈ nestedPackages.map Prod.fst, PlainPath path.toList := by decide
    exact hpaths row.1 (List.mem_map_of_mem hrow)
  have honce : ∀ path ∈ nestedPackages.map Prod.fst, ∀ path' ∈ nestedPackages.map Prod.fst,
      keyAt linux nestedPackages path = keyAt linux nestedPackages path' → path = path' := by
    decide +kernel
  obtain ⟨graph, hgraph⟩ : ∃ graph, importNpmLockfile linux
      (fun _ => .ok (lockOf nestedPackages)) "package-lock.json" (.ok nestedText) = .ok graph :=
    exists_import hnodup "package-lock.json" rfl rfl ⟨.head _, rfl⟩
  refine ⟨graph, hgraph, ?_⟩
  refine (import_faithful_iff hnodup hplain rfl rfl hgraph).mpr ?_
  refine agree_of_once hnodup hplain fun path path' entry entry' node node' hat hat' hsame => ?_
  refine honce path (List.mem_map_of_mem hat.mem) path' (List.mem_map_of_mem hat'.mem) ?_
  rw [(keyAt_eq_some_iff hnodup).mpr ⟨entry, node, hat, rfl⟩,
    (keyAt_eq_some_iff hnodup).mpr ⟨entry', node', hat', rfl⟩, hsame]

open Demo in
/-- A package that is not for development is marked as if it were. -/
theorem import_dev_leaked : ∃ graph,
    importNpmLockfile linux (fun _ => .ok (lockOf sharedPackages)) "package-lock.json"
      (.ok sharedText) = .ok graph ∧ ¬ Faithful linux sharedPackages graph := by
  have hnodup : (sharedPackages.map Prod.fst).Nodup := by decide
  have hplain : ∀ row ∈ sharedPackages, PlainPath row.1.toList := by
    intro row hrow
    have hpaths : ∀ path ∈ sharedPackages.map Prod.fst, PlainPath path.toList := by decide
    exact hpaths row.1 (List.mem_map_of_mem hrow)
  obtain ⟨node, hnode, hdev, hkey⟩ : ∃ node, npmNode? linux "node_modules/a/node_modules/x"
      (.object (entryOf "1.0.0" [] false)) = some node ∧ node.dev = false ∧
        canonicalKey node = "x@1.0.0" := ⟨_, rfl, rfl, by decide⟩
  obtain ⟨last, hlast, hlastDev, hlastKey⟩ : ∃ node, npmNode? linux "node_modules/b/node_modules/x"
      (.object (entryOf "1.0.0" [] true)) = some node ∧ node.dev = true ∧
        canonicalKey node = "x@1.0.0" := ⟨_, rfl, rfl, by decide⟩
  have hat : At linux sharedPackages "node_modules/a/node_modules/x" _ node :=
    ⟨.tail _ (.head _), hnode⟩
  have hlastAt : LastAt linux sharedPackages "node_modules/b/node_modules/x"
      (entryOf "1.0.0" [] true) last := by
    refine ⟨hlast, sharedPackages.take 3, sharedPackages.drop 4, rfl, ?_⟩
    intro row hrow other hother heq
    obtain rfl := List.mem_singleton.mp hrow
    have hroot : (npmNode? linux "node_modules/x" (.object (entryOf "2.0.0" [] false))).map
        canonicalKey ≠ some "x@1.0.0" := by
      decide
    rw [hother, Option.map_some, heq, hlastKey] at hroot
    exact hroot rfl
  obtain ⟨graph, hgraph⟩ : ∃ graph, importNpmLockfile linux
      (fun _ => .ok (lockOf sharedPackages)) "package-lock.json" (.ok sharedText) = .ok graph :=
    exists_import hnodup "package-lock.json" rfl rfl hat
  refine ⟨graph, hgraph, fun hfaithful => ?_⟩
  have hagree := (faithful_iff hnodup hplain (nodes_of_import rfl rfl hgraph)).mp hfaithful
  have hleaked := hagree.dev _ _ _ _ _ _ hat hlastAt (hkey.trans hlastKey.symm) hlastDev
  rw [hdev] at hleaked
  cases hleaked

end Oath.Resolve
