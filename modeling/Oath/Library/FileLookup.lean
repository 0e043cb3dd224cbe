import Mathlib.Data.List.Infix
import Oath.Library.CallRules

/-! Where relative symbolic links lead, and the lookup of a name in the directories of modules of a
directory and of those above it, the nearest first. -/

namespace Unix

/-! ## Walks over directories -/

section Walk
variable {fs : LinkedFiles} {base : Location} {names : List Name} {follow : Bool}
  {jump : Location → List Component → Except FileError Location} {rest : List Component}

/-- All of the way down is made of directories. -/
def Open (fs : LinkedFiles) (base : Location) (names : List Name) : Prop :=
  ∀ init, init ≠ [] → init <+: names → fs.entryAt? (base ++ init) = some .directory

theorem Open.of_prefix {names' : List Name} (h : Open fs base names) (hstarts : names' <+: names) :
    Open fs base names' := fun init hne hinit => h init hne (hinit.trans hstarts)

theorem open_of_directory (hrooted : Rooted fs)
    (h : fs.entryAt? (base ++ names) = some .directory) : Open fs base names := by
  intro init _ hinit
  obtain ⟨more, rfl⟩ := hinit
  cases more with
  | nil => rwa [List.append_nil] at h
  | cons name more =>
    by_contra hdir
    have hnone := hrooted.below hdir name more
    rw [List.append_assoc, h] at hnone
    cases hnone

theorem Open.child {name : Name} (h : Open fs base (name :: names)) :
    fs.entryAt? (base ++ [name]) = some .directory ∧ Open fs (base ++ [name]) names := by
  refine ⟨h [name] (List.cons_ne_nil _ _) ⟨names, rfl⟩, fun init _ hinit => ?_⟩
  have hdir := h (name :: init) (List.cons_ne_nil _ _) (List.cons_prefix_cons.mpr ⟨rfl, hinit⟩)
  rwa [List.append_assoc, List.singleton_append]

theorem walk_down (h : Open fs base names) :
    fs.walk follow jump base (names.map .normal ++ rest) =
      fs.walk follow jump (base ++ names) rest := by
  induction names generalizing base with
  | nil => rw [List.map_nil, List.nil_append, List.append_nil]
  | cons name names ih =>
    obtain ⟨hdir, hopen⟩ := h.child
    rw [List.map_cons, List.cons_append, LinkedFiles.walk, hdir, ih hopen, List.append_assoc,
      List.singleton_append]

theorem walk_up :
    fs.walk follow jump (base ++ names) (List.replicate names.length .parentDir ++ rest) =
      fs.walk follow jump base rest := by
  induction names using List.reverseRecOn with
  | nil => rw [List.append_nil, List.length_nil, List.replicate_zero, List.nil_append]
  | append_singleton names last ih =>
    rw [List.length_append, List.length_singleton, List.replicate_succ, List.cons_append,
      LinkedFiles.walk, ← List.append_assoc, List.dropLast_concat, ih]

end Walk

/-! ## Relative links -/

def commonNames : List Name → List Name → ℕ
  | a :: as, b :: bs => if a = b then commonNames as bs + 1 else 0
  | _, _ => 0

/-- The way up from one directory and down to another place. -/
def relativeParts (source dest : List Name) : List Component :=
  let parts := List.replicate (source.length - commonNames source dest) .parentDir ++
    (dest.drop (commonNames source dest)).map .normal
  if parts.isEmpty then [.curDir] else parts

theorem take_commonNames (source dest : List Name) :
    source.take (commonNames source dest) = dest.take (commonNames source dest) := by
  fun_induction commonNames source dest with
  | case1 as b bs ih => rw [List.take_succ_cons, List.take_succ_cons, ih]
  | case2 a as b bs hne => rfl
  | case3 source dest hshort => rfl

section Relative
variable {fs : LinkedFiles} {root : Location} {source dest : List Name} {follow : Bool}
  {jump : Location → List Component → Except FileError Location}

theorem walk_relativeParts (h : Open fs root dest) :
    fs.walk follow jump (root ++ source) (relativeParts source dest) = .ok (root ++ dest) := by
  have htake := take_commonNames source dest
  generalize hn : commonNames source dest = n at htake
  have hwalk : fs.walk follow jump (root ++ source)
      (List.replicate (source.length - n) .parentDir ++ (dest.drop n).map .normal) =
        .ok (root ++ dest) := by
    have hup : fs.walk follow jump (root ++ source)
        (List.replicate (source.drop n).length .parentDir ++ (dest.drop n).map .normal) =
          fs.walk follow jump (root ++ source.take n) ((dest.drop n).map .normal) := by
      have hsplit : root ++ source = root ++ source.take n ++ source.drop n := by
        rw [List.append_assoc, List.take_append_drop]
      rw [hsplit, walk_up]
    rw [← List.length_drop, hup, htake]
    have hopen : Open fs (root ++ dest.take n) (dest.drop n) := by
      intro init hne hinit
      have hwhole : dest.take n ++ init <+: dest := by
        obtain ⟨more, hmore⟩ := hinit
        refine ⟨more, ?_⟩
        rw [List.append_assoc, hmore, List.take_append_drop]
      have hdir := h (dest.take n ++ init) (List.append_ne_nil_of_right_ne_nil _ hne) hwhole
      rwa [← List.append_assoc] at hdir
    have hdown : fs.walk follow jump (root ++ dest.take n) ((dest.drop n).map .normal ++ []) =
        fs.walk follow jump (root ++ dest.take n ++ dest.drop n) [] := walk_down hopen
    rw [List.append_nil] at hdown
    rw [hdown, List.append_assoc, List.take_append_drop]
    rfl
  unfold relativeParts
  simp only [hn]
  split_ifs with hempty
  · -- the same directory
    rw [List.isEmpty_iff.mp hempty] at hwalk
    exact hwalk
  · exact hwalk

theorem canonicalize_eq_ok {p : Path} {loc : Location} :
    fs.canonicalize p = .ok loc ↔ fs.find true p = .ok loc ∧ fs.entryAt? loc ≠ none := by
  unfold LinkedFiles.canonicalize
  constructor
  · intro h
    obtain ⟨place, hfind, hentry⟩ := Except.bind_eq_ok.mp h
    cases hthere : fs.entryAt? place with
    | none =>
      rw [hthere] at hentry
      cases hentry
    | some entry =>
      rw [hthere] at hentry
      obtain rfl := Except.ok.inj hentry
      refine ⟨hfind, ?_⟩
      rw [hthere]
      exact Option.some_ne_none entry
  · intro ⟨hfind, hentry⟩
    refine Except.bind_eq_ok.mpr ⟨loc, hfind, ?_⟩
    cases hthere : fs.entryAt? loc with
    | none => exact absurd hthere hentry
    | some entry => rfl

theorem metadata_isOk {follow : Bool} {p : Path} :
    (fs.metadata follow p).isOk = true ↔
      ∃ loc, fs.find follow p = .ok loc ∧ fs.entryAt? loc ≠ none := by
  constructor
  · intro h
    cases hresult : fs.metadata follow p with
    | error e =>
      rw [hresult] at h
      cases h
    | ok entry =>
      obtain ⟨loc, hfind, hentry⟩ := Except.bind_eq_ok.mp hresult
      refine ⟨loc, hfind, fun hnone => ?_⟩
      rw [hnone] at hentry
      cases hentry
  · intro ⟨loc, hfind, hentry⟩
    cases hthere : fs.entryAt? loc with
    | none => exact absurd hthere hentry
    | some entry =>
      have hresult : fs.metadata follow p = .ok entry := by
        refine Except.bind_eq_ok.mpr ⟨loc, hfind, ?_⟩
        rw [hthere]
      rw [hresult]
      rfl

theorem pathExists_eq_true {p : Path} :
    fs.pathExists p = true ↔ ∃ loc, fs.find true p = .ok loc ∧ fs.entryAt? loc ≠ none :=
  metadata_isOk

/-- A link in a directory that is there leads to where its relative path does. -/
theorem canonicalize_link {base : Location} {up : List Name} {last : Name}
    (hopen : Open fs base up)
    (hlink : fs.entryAt? (base ++ (up ++ [last])) = some (.symlink (relativeParts source dest)))
    (hplace : base ++ up = root ++ source) (hdest : Open fs root dest) (hne : dest ≠ []) :
    fs.canonicalize (.ofNames base (up ++ [last])) = .ok (root ++ dest) := by
  have hparts : (up ++ [last]).map Component.normal = up.map .normal ++ [.normal last] := by
    rw [List.map_append, List.map_singleton]
  have hfind : fs.find true (.ofNames base (up ++ [last])) = .ok (root ++ dest) := by
    show fs.walk true (fs.walkLinks true 39) base ((up ++ [last]).map .normal) = _
    obtain ⟨jump, hjump⟩ := walkLinks_eq fs true 39
    rw [hparts, walk_down hopen, LinkedFiles.walk, List.append_assoc, hlink]
    simp only [List.isEmpty_nil, Bool.not_true, Bool.and_false, Bool.false_eq_true, if_false,
      List.append_nil]
    rw [hplace, hjump, walk_relativeParts hdest]
  refine canonicalize_eq_ok.mpr ⟨hfind, ?_⟩
  rw [hdest dest hne List.prefix_rfl]
  exact Option.some_ne_none _

theorem canonicalize_open (h : Open fs root dest) (hne : dest ≠ []) :
    fs.canonicalize (.ofNames root dest) = .ok (root ++ dest) := by
  obtain ⟨jump, hjump⟩ := walkLinks_eq fs true LinkedFiles.maxLinks
  have hdown : fs.walk true jump root (dest.map .normal ++ []) =
      fs.walk true jump (root ++ dest) [] := walk_down h
  rw [List.append_nil, ← hjump] at hdown
  refine canonicalize_eq_ok.mpr ⟨hdown, ?_⟩
  rw [h dest hne List.prefix_rfl]
  exact Option.some_ne_none _

theorem pathExists_open (h : Open fs root dest) (hne : dest ≠ []) :
    fs.pathExists (.ofNames root dest) = true :=
  pathExists_eq_true.mpr ⟨_, canonicalize_eq_ok.mp (canonicalize_open h hne)⟩

/-- A file in an open directory is found. -/
theorem fileAt_open {name : Name} {inode : ℕ} (h : Open fs root dest)
    (hfile : fs.entryAt? (root ++ dest ++ [name]) = some (.file inode)) :
    fileAt fs (.ofNames root (dest ++ [name])) = .ok (root ++ dest ++ [name], inode) := by
  obtain ⟨jump, hjump⟩ := walkLinks_eq fs true LinkedFiles.maxLinks
  have hdown : fs.walk true jump root (dest.map .normal ++ [.normal name]) =
      fs.walk true jump (root ++ dest) [.normal name] := walk_down h
  have hlast : fs.walk true jump (root ++ dest) [.normal name] =
      .ok (root ++ dest ++ [name]) := by
    rw [LinkedFiles.walk, hfile]
    rfl
  have hfind : fs.find true (.ofNames root (dest ++ [name])) = .ok (root ++ dest ++ [name]) := by
    rw [← hlast, ← hdown, ← hjump]
    simp only [LinkedFiles.find, Path.ofNames, List.map_append, List.map_cons, List.map_nil]
  simp only [fileAt, hfind, bind, Except.bind, hfile]

theorem canonicalize_none {base loc : Location} {names : List Name}
    (hfree : LinkFree fs (way base names)) (hnone : fs.entryAt? (base ++ names) = none) :
    fs.canonicalize (.ofNames base names) ≠ .ok loc := by
  intro h
  obtain ⟨hfind, hentry⟩ := canonicalize_eq_ok.mp h
  have hwhole : LinkFree fs (wholeWay base names) := by
    rintro other ⟨init, hne, hinit, rfl⟩
    by_cases heq : init = names
    · subst heq
      rintro ⟨target, hlink⟩
      rw [hnone] at hlink
      cases hlink
    · exact hfree _ ⟨init, hne, hinit, heq, rfl⟩
  rw [find_follow_plain hwhole hfind] at hentry
  exact hentry hnone

theorem canonicalize_absent {base loc : Location} {name : Name} {rest : List Name}
    (hrooted : Rooted fs) (hnone : fs.entryAt? (base ++ [name]) = none) :
    fs.canonicalize (.ofNames base (name :: rest)) ≠ .ok loc := by
  have hbelow : ∀ more, fs.entryAt? (base ++ name :: more) = none := by
    intro more
    have habsent := hrooted.none_below hnone more
    rwa [List.append_assoc, List.singleton_append] at habsent
  apply canonicalize_none _ (hbelow rest)
  rintro place ⟨init, hne, hinit, -, rfl⟩ ⟨target, hlink⟩
  cases init with
  | nil => exact hne rfl
  | cons first more =>
    obtain rfl := (List.cons_prefix_cons.mp hinit).1
    rw [hbelow more] at hlink
    cases hlink

end Relative

/-! ## Lookup -/

/-- A directory of modules is not searched for one of its own. -/
def searchDirs (modules : Name) (dir : Location) : List Location :=
  dir.inits.reverse.filter fun above => above.getLast? ≠ some modules

/-- What a module looked up by a directory is found to be, by the place of its directory. -/
def lookup (fs : LinkedFiles) (modules : Name) (dir : Location) (name : List Name) :
    Option Location :=
  (searchDirs modules dir).findSome? fun above =>
    (fs.canonicalize (.ofNames above (modules :: name))).toOption

section Lookup
variable {fs : LinkedFiles} {modules : Name} {root place : Location} {inside name : List Name}

/-- What is found from a module in a directory when nothing else is found on the way up. -/
theorem lookup_of_above (hroot : root.getLast? ≠ some modules)
    (habove : fs.canonicalize (.ofNames root (modules :: name)) = .ok place)
    (hbelow : ∀ init, init ≠ [] → init <+: inside → ∀ other,
      fs.canonicalize (.ofNames (root ++ modules :: init) (modules :: name)) = .ok other →
        other = place) :
    lookup fs modules (root ++ modules :: inside) name = some place := by
  have hinits : (root ++ modules :: inside).inits.reverse =
      ((modules :: inside).inits.tail.map (root ++ ·)).reverse ++ root.inits.reverse := by
    rw [List.inits_append, List.reverse_append]
  have hself : ∃ more, root.inits.reverse = root :: more := by
    cases root using List.reverseRecOn with
    | nil => exact ⟨[], rfl⟩
    | append_singleton root last =>
      refine ⟨root.inits.reverse, ?_⟩
      rw [List.inits_append, List.reverse_append]
      rfl
  obtain ⟨more, hmore⟩ := hself
  unfold lookup searchDirs
  rw [hinits, hmore, List.filter_append, List.findSome?_append]
  cases hfound : List.findSome? (fun above =>
      (fs.canonicalize (.ofNames above (modules :: name))).toOption)
      (((modules :: inside).inits.tail.map (root ++ ·)).reverse.filter
        fun above => above.getLast? ≠ some modules) with
  | some other =>
    obtain ⟨above, hmem, hcanonical⟩ := List.exists_of_findSome?_eq_some hfound
    obtain ⟨hmem, hlast⟩ := List.mem_filter.mp hmem
    rw [List.mem_reverse] at hmem
    obtain ⟨_, hinit, rfl⟩ := List.mem_map.mp hmem
    rw [List.inits_cons, List.tail_cons] at hinit
    obtain ⟨init, hinside, rfl⟩ := List.mem_map.mp hinit
    have hne : init ≠ [] := by
      rintro rfl
      rw [List.getLast?_append, List.getLast?_singleton] at hlast
      exact absurd rfl (of_decide_eq_true hlast)
    have hplace : fs.canonicalize (.ofNames (root ++ modules :: init) (modules :: name)) =
        .ok other := by
      cases hresult : fs.canonicalize (.ofNames (root ++ modules :: init) (modules :: name)) with
      | ok found =>
        rw [hresult] at hcanonical
        rw [Option.some.inj hcanonical]
      | error e =>
        rw [hresult] at hcanonical
        cases hcanonical
    rw [hbelow init hne ((List.mem_inits _ _).mp hinside) other hplace]
    rfl
  | none =>
    have hlast : decide (root.getLast? ≠ some modules) = true := decide_eq_true hroot
    rw [List.filter_cons, if_pos hlast, List.findSome?_cons, habove]
    rfl

end Lookup

end Unix
