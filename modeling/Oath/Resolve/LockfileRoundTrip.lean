import Oath.Resolve.Lockfile

/-! When a package graph comes back from its lockfile: what the tarball address of a node, or its
key, must say of the name that its entry leaves out. -/

namespace Oath.Resolve

/-! ## Names in addresses -/

/-- The text ends in a piece that is a scope. -/
def EndsInScope (text : List Char) : Prop :=
  ∃ front scope, text = front ++ '/' :: '@' :: scope ∧ '/' ∉ scope

/-- What stands before the tarball names a package, with a slash thought in front: a scoped name
with its slash encoded, a scope and the rest of the name, or a name that is not below a scope. -/
inductive AddressNames (address : List Char) : List Char → Prop
  | encoded {front last : List Char} (haddress : '/' :: address = front ++ '/' :: last)
      (hlast : '/' ∉ last) (hscoped : Scoped (decodeSlashes last)) :
      AddressNames address (decodeSlashes last)
  | inScope {front scope last : List Char}
      (haddress : '/' :: address = front ++ '/' :: '@' :: scope ++ '/' :: last)
      (hscope : '/' ∉ scope) (hlast : '/' ∉ last) (hplain : ¬Scoped (decodeSlashes last)) :
      AddressNames address ('@' :: scope ++ '/' :: decodeSlashes last)
  | plain {front last : List Char} (haddress : '/' :: address = front ++ '/' :: last)
      (hlast : '/' ∉ last) (hplain : ¬Scoped (decodeSlashes last)) (hfront : ¬EndsInScope front) :
      AddressNames address (decodeSlashes last)

theorem endsInScope_iff {address front last : List Char}
    (haddress : '/' :: address = front ++ '/' :: last) (hlast : '/' ∉ last) :
    EndsInScope front ↔ (Pieces.lastPiece '/' (Pieces.front '/' address)).head? = some '@' := by
  have hpiece : ∀ scope : List Char, '/' ∉ scope → ∀ h : '/' ∉ '@' :: scope,
      (Pieces.lastPiece '/' (Pieces.front '/' address) = '@' :: scope ↔
        ∃ start, front = start ++ '/' :: '@' :: scope) := fun scope _ h =>
    Pieces.lastPiece_front_eq_iff hlast h (List.cons_ne_nil _ _) haddress
  have hnot : ∀ {scope : List Char}, '/' ∉ scope → '/' ∉ '@' :: scope := fun h =>
    List.not_mem_cons_of_ne_of_not_mem (by decide) h
  constructor
  · rintro ⟨start, scope, hfront, hscope⟩
    rw [(hpiece scope hscope (hnot hscope)).mpr ⟨start, hfront⟩]
    rfl
  · intro hhead
    obtain ⟨scope, hscope⟩ := List.head?_eq_some_iff.mp hhead
    have hmem : '/' ∉ '@' :: scope := hscope ▸ Pieces.notMem_lastPiece
    have hrest : '/' ∉ scope := fun h => hmem (List.mem_cons_of_mem _ h)
    obtain ⟨start, hfront⟩ := (hpiece scope hrest hmem).mp hscope
    exact ⟨start, scope, hfront, hrest⟩

theorem addressName_eq_iff {address name : List Char} :
    addressName address = name ↔ AddressNames address name := by
  constructor
  · rintro rfl
    obtain ⟨front, haddress, -⟩ := Pieces.cons_eq_lastPiece '/' address
    have hlast : '/' ∉ Pieces.lastPiece '/' address := Pieces.notMem_lastPiece
    have hends := endsInScope_iff haddress hlast
    unfold addressName
    dsimp only
    split_ifs with hscoped hhead
    · exact .encoded haddress hlast hscoped
    · obtain ⟨start, scope, rfl, hscope⟩ := hends.mpr hhead
      have hprevious : Pieces.lastPiece '/' (Pieces.front '/' address) = '@' :: scope :=
        (Pieces.lastPiece_front_eq_iff hlast
          (List.not_mem_cons_of_ne_of_not_mem (by decide) hscope) (List.cons_ne_nil _ _)
          haddress).mpr ⟨start, rfl⟩
      rw [hprevious]
      exact .inScope haddress hscope hlast hscoped
    · exact .plain haddress hlast hscoped fun hscope => hhead (hends.mp hscope)
  · intro h
    cases h with
    | encoded haddress hlast hscoped =>
      unfold addressName
      dsimp only
      rw [Pieces.lastPiece_eq_of_cons hlast haddress, if_pos hscoped]
    | inScope haddress hscope hlast hplain =>
      have hprevious := (Pieces.lastPiece_front_eq_iff hlast
        (List.not_mem_cons_of_ne_of_not_mem (by decide) hscope) (List.cons_ne_nil _ _)
        haddress).mpr ⟨_, rfl⟩
      unfold addressName
      dsimp only
      rw [Pieces.lastPiece_eq_of_cons hlast haddress, if_neg hplain, hprevious]
      exact if_pos rfl
    | plain haddress hlast hplain hfront =>
      have hhead := (endsInScope_iff haddress hlast).not.mp hfront
      unfold addressName
      dsimp only
      rw [Pieces.lastPiece_eq_of_cons hlast haddress, if_neg hplain, if_neg hhead]

/-! ## Names in keys -/

theorem sliceTo_append (front rest : List Char) (bytes : ℕ) :
    sliceTo (byteLength front + bytes) (front ++ rest) = (sliceTo bytes rest).map (front ++ ·) := by
  induction front with
  | nil =>
    rw [List.nil_append]
    have hzero : byteLength [] + bytes = bytes := Nat.zero_add bytes
    rw [hzero]
    exact Option.map_id'.symm
  | cons c front ih =>
    have hpos := c.utf8Size_pos
    have hlength : byteLength (c :: front) = c.utf8Size + byteLength front := List.sum_cons
    obtain ⟨more, hmore⟩ : ∃ more, byteLength (c :: front) + bytes = more + 1 :=
      ⟨byteLength (c :: front) + bytes - 1, by omega⟩
    have hle : c.utf8Size ≤ more + 1 := by omega
    have hrest : more + 1 - c.utf8Size = byteLength front + bytes := by omega
    rw [hmore, List.cons_append, sliceTo, if_pos hle, hrest, ih, Option.map_map]
    rfl

/-- One byte short of a character is a character boundary when the character is one byte. -/
theorem sliceTo_short {c : Char} {rest : List Char} :
    sliceTo (c.utf8Size - 1) (c :: rest) = if c.utf8Size = 1 then some [] else none := by
  have hpos := c.utf8Size_pos
  split_ifs with hone
  · rw [hone]
    rfl
  · obtain ⟨bytes, hbytes⟩ : ∃ bytes, c.utf8Size - 1 = bytes + 1 :=
      ⟨c.utf8Size - 2, by omega⟩
    have hnot : ¬c.utf8Size ≤ bytes + 1 := by omega
    rw [hbytes, sliceTo, if_neg hnot]

/-- What stands after the last `node_modules/` begins with the name: a whole piece that is not a
scope, or else the scope and the next piece without their last character, which is one byte. -/
inductive ModuleNames (rest : List Char) : List Char → Prop
  | piece {name more : List Char} (hrest : rest = name ++ more) (hname : '/' ∉ name)
      (hmore : Pieces.AtEnd '/' more) (hscope : name.head? = some '@' → more = []) :
      ModuleNames rest name
  | inScope {name scope package more : List Char} {c : Char} (hrest : rest = name ++ c :: more)
      (hname : name ++ [c] = '@' :: scope ++ '/' :: package) (hscope : '/' ∉ scope)
      (hpackage : '/' ∉ package) (hmore : Pieces.AtEnd '/' more) (hbyte : c.utf8Size = 1) :
      ModuleNames rest name

theorem moduleName_scoped {name scope package more : List Char} {c : Char}
    (hname : name ++ [c] = '@' :: scope ++ '/' :: package) (hscope : '/' ∉ scope)
    (hpackage : '/' ∉ package) (hmore : Pieces.AtEnd '/' more) :
    moduleName (name ++ c :: more) = if c.utf8Size = 1 then some name else none := by
  have hrest : name ++ c :: more = '@' :: (scope ++ '/' :: (package ++ more)) := by
    calc name ++ c :: more = name ++ [c] ++ more := by rw [List.append_assoc, List.singleton_append]
      _ = '@' :: (scope ++ '/' :: (package ++ more)) := by
        rw [hname, List.append_assoc, List.cons_append, List.cons_append]
  have hslash : Pieces.AtEnd '/' ('/' :: (package ++ more)) := fun d hd =>
    (Option.some.inj hd).symm
  have htake : (name ++ c :: more).tail.takeWhile (· ≠ '/') = scope := by
    rw [hrest]
    exact Pieces.takeWhile_append hscope hslash
  have hdrop : ((name ++ c :: more).tail.drop (scope.length + 1)).takeWhile (· ≠ '/') =
      package := by
    rw [hrest, List.tail_cons, ← List.drop_drop, List.drop_left, List.drop_one, List.tail_cons]
    exact Pieces.takeWhile_append hpackage hmore
  have hlength : byteLength name + c.utf8Size =
      byteLength scope + 1 + byteLength package + 1 := by
    have hsum := congrArg byteLength hname
    simp only [byteLength, List.map_append, List.map_cons, List.map_nil, List.sum_append,
      List.sum_cons, List.sum_nil] at hsum ⊢
    have hmark : '@'.utf8Size = 1 := rfl
    have hsep : '/'.utf8Size = 1 := rfl
    omega
  have hbytes : byteLength scope + 1 + byteLength package = byteLength name + (c.utf8Size - 1) := by
    have hpos := c.utf8Size_pos
    omega
  have hcase : (name ++ c :: more).head? = some '@' ∧ '/' ∈ name ++ c :: more := by
    rw [hrest]
    exact ⟨rfl, List.mem_cons_of_mem _ (List.mem_append_right _ List.mem_cons_self)⟩
  unfold moduleName
  dsimp only
  rw [if_pos hcase, htake, hdrop, hbytes, sliceTo_append, sliceTo_short]
  split_ifs
  · rw [Option.map_some, List.append_nil]
  · rfl

theorem not_scoped_piece {name more : List Char} (hname : '/' ∉ name)
    (hmore : Pieces.AtEnd '/' more) (hscope : name.head? = some '@' → more = []) :
    ¬((name ++ more).head? = some '@' ∧ '/' ∈ name ++ more) := by
  rintro ⟨hhead, hslash⟩
  cases name with
  | nil => exact absurd (hmore '@' hhead) (by decide)
  | cons c name =>
    rw [hscope hhead, List.append_nil] at hslash
    exact hname hslash

theorem moduleName_eq_iff {rest name : List Char} :
    moduleName rest = some name ↔ ModuleNames rest name := by
  constructor
  · by_cases hcase : rest.head? = some '@' ∧ '/' ∈ rest
    · obtain ⟨tail, rfl⟩ := List.head?_eq_some_iff.mp hcase.1
      have hslash : '/' ∈ tail := (List.mem_cons.mp hcase.2).resolve_left (by decide)
      obtain ⟨scope, behind, rfl, hscope⟩ := List.eq_append_cons_of_mem hslash
      obtain ⟨more, hbehind, hpackage, hmore⟩ :=
        Pieces.takeWhile_eq_iff.mp (rfl : behind.takeWhile (· ≠ '/') = _)
      generalize behind.takeWhile (· ≠ '/') = package at hbehind hpackage
      obtain ⟨front, c, hfront⟩ : ∃ front c, front ++ [c] = '@' :: scope ++ '/' :: package :=
        ⟨_, _, List.dropLast_append_getLast (List.cons_ne_nil '@' (scope ++ '/' :: package))⟩
      have hrest : '@' :: (scope ++ '/' :: behind) = front ++ c :: more := by
        rw [List.append_cons front c more, hfront, hbehind, List.append_assoc, List.cons_append,
          List.cons_append]
      intro h
      rw [hrest, moduleName_scoped hfront hscope hpackage hmore] at h
      split_ifs at h with hbyte
      obtain rfl := Option.some.inj h
      exact .inScope hrest hfront hscope hpackage hmore hbyte
    · intro h
      unfold moduleName at h
      rw [if_neg hcase] at h
      obtain ⟨more, hrest, hname, hmore⟩ := Pieces.takeWhile_eq_iff.mp (Option.some.inj h)
      refine .piece hrest hname hmore fun hhead => ?_
      -- a slash after a mark would be a scope
      have hnot : '/' ∉ rest := fun hslash => hcase ⟨by rw [hrest]; simp [hhead], hslash⟩
      cases more with
      | nil => rfl
      | cons d more =>
        rw [hrest, hmore d rfl] at hnot
        exact absurd (List.mem_append_right name List.mem_cons_self) hnot
  · intro h
    cases h with
    | piece hrest hname hmore hscope =>
      unfold moduleName
      rw [hrest, if_neg (not_scoped_piece hname hmore hscope),
        Pieces.takeWhile_append hname hmore]
    | inScope hrest hname hscope hpackage hmore hbyte =>
      rw [hrest, moduleName_scoped hname hscope hpackage hmore, if_pos hbyte]

/-- The key of a package names it: no version has the mark that stands before the version, and in
the key of a location the name stands in it once more. -/
def KeyNames (name version : List Char) : Prop :=
  match Pieces.after "node_modules/".toList (name ++ '@' :: version) with
  | some rest => ModuleNames rest name
  | none => name ≠ [] ∧ '@' ∉ version

theorem lockKeyPackageName_eq_iff {name version : List Char} :
    lockKeyPackageName (name ++ '@' :: version) = some name ↔ KeyNames name version := by
  unfold lockKeyPackageName KeyNames
  cases Pieces.after "node_modules/".toList (name ++ '@' :: version) with
  | some rest => exact moduleName_eq_iff
  | none =>
    have hlong : name ++ '@' :: version ≠ name := by simp
    by_cases hversion : '@' ∈ version
    · obtain ⟨base, last, rfl, hlast⟩ := Pieces.exists_lastPiece hversion
      have hfront : Pieces.front '@' (name ++ '@' :: (base ++ '@' :: last)) =
          name ++ '@' :: base := by
        rw [← List.cons_append, ← List.append_assoc, Pieces.front_append hlast]
      simp [hfront]
    · rw [Pieces.front_append hversion]
      by_cases hname : name = []
      · simp [hname]
      · simp [hname, hversion]

/-! ## The round trip -/

/-- What is read for a node whose entry has no name: the address up to the tarball, or the key where
the address has no such part. -/
def NameRead (node : DepNode) : Prop :=
  match Pieces.before ['/', '-', '/'] (addressPath node.resolved) with
  | some address => AddressNames address node.name.toList
  | none => KeyNames node.name.toList node.version.toList

theorem nameKept_iff {row : String × DepNode} :
    NameKept row ↔ (row.1 = canonicalKey row.2 → NameRead row.2) := by
  unfold NameKept LockEntry.packageNameForKey lockEntry NameRead npmTarballPackageName
  by_cases hkey : row.1 = canonicalKey row.2
  · have hchars : row.1.toList = row.2.name.toList ++ '@' :: row.2.version.toList := by
      rw [hkey, canonicalKey, String.toList_append, String.toList_append, List.append_assoc]
      rfl
    have hname : ∀ cs : List Char, String.ofList cs = row.2.name ↔ cs = row.2.name.toList :=
      fun cs => ⟨fun h => by rw [← h, String.toList_ofList],
        fun h => by rw [h, String.ofList_toList]⟩
    rw [if_neg (not_not.mpr hkey)]
    dsimp only
    cases Pieces.before ['/', '-', '/'] (addressPath row.2.resolved) with
    | some address =>
      simp only [Option.map_some, Option.some_inj, hname, addressName_eq_iff]
      exact ⟨fun h _ => h, fun h => h hkey⟩
    | none =>
      simp only [Option.map_none, Option.map_eq_some_iff, hname, exists_eq_right, hchars,
        lockKeyPackageName_eq_iff]
      exact ⟨fun h _ => h, fun h => h hkey⟩
  · rw [if_pos hkey]
    exact iff_of_true rfl fun h => absurd h hkey

theorem toGraph_fromGraph {graph : DepGraph} {projectName projectVersion : String}
    {deps devDeps : OrderedMap String String} :
    (∃ back, (Lockfile.fromGraphWithManifest graph projectName projectVersion deps
        devDeps).toGraph = some back ∧ SameGraph graph back) ↔
      ∀ row ∈ graph.nodes.rows, row.1 = canonicalKey row.2 → NameRead row.2 := by
  rw [toGraph_fromGraph_iff]
  exact forall₂_congr fun _ _ => nameKept_iff

/-! ## An address with a name of its own -/

def padKey : String := "pad@1.0.0"

/-- The package is kept among the files of another project. -/
def padNode : DepNode where
  name := "pad"
  aliasName := none
  version := "1.0.0"
  resolved := "https://gitlab.example/acme/tools/-/package_files/42/download"
  integrity := some "sha512-pad"
  dependencies := .empty
  hasInstallScript := false
  dev := false
  optional := false
  peerDependencies := .empty
  optionalPeers := .empty
  resolvedPeers := .empty

def padGraph : DepGraph where
  nodes := OrderedMap.empty.insert padKey padNode
  roots := [padKey]

theorem toGraph_renamed :
    ¬∃ back, (Lockfile.fromGraphWithManifest padGraph "app" "1.0.0" .empty .empty).toGraph =
      some back ∧ SameGraph padGraph back := by
  rintro ⟨back, hback, hsame⟩
  have hread : (Lockfile.fromGraphWithManifest padGraph "app" "1.0.0" .empty .empty).toGraph =
      some { nodes := OrderedMap.empty.insert padKey { padNode with name := "tools" }
             roots := [padKey] } := by decide
  obtain rfl := Option.some.inj (hread.symm.trans hback)
  obtain ⟨⟨-, hnode⟩, -⟩ := List.forall₂_cons.mp hsame.nodes
  have hname : "pad" = "tools" := hnode.name
  exact absurd hname (by decide)

end Oath.Resolve
