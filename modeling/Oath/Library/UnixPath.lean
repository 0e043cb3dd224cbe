import Mathlib.Data.List.Infix

/-! Unix paths as byte strings: their components and the lexical resolution of `.` and
`..` against an absolute location. -/

namespace Unix

abbrev Name := List UInt8

/-- The names on the way from the root directory. -/
abbrev Location := List Name

def slash : UInt8 := 47
def dot : UInt8 := 46

/-- What stands between the slashes of a path; a leading, trailing or doubled slash leaves
an empty piece. -/
def pieces : List UInt8 → List Name
  | [] => [[]]
  | b :: bs =>
    if b = slash then [] :: pieces bs
    else match pieces bs with
      | [] => [[b]]
      | piece :: rest => (b :: piece) :: rest

inductive Component
  | rootDir
  | curDir
  | parentDir
  | normal (name : Name)
deriving DecidableEq, Repr

/-- Empty pieces and `.` are dropped. -/
def component? (piece : Name) : Option Component :=
  if piece = [] ∨ piece = [dot] then none
  else if piece = [dot, dot] then some .parentDir
  else some (.normal piece)

def isAbsolute (path : List UInt8) : Bool := path.head? == some slash

/-- Only a path that starts with a `.` keeps that one. -/
def components (path : List UInt8) : List Component :=
  let body := (pieces path).filterMap component?
  if isAbsolute path then .rootDir :: body
  else if (pieces path).head? = some [dot] then .curDir :: body
  else body

/-- `starts_with` compares whole components. -/
def startsWith (path : List UInt8) (base : List Component) : Bool :=
  base.isPrefixOf (components path)

/-- The last piece is a name: the path does not end in a slash, `.` or `..`. -/
def endsInName (path : List UInt8) : Bool :=
  match (pieces path).getLast? with
  | some piece => piece ≠ [] ∧ piece ≠ [dot] ∧ piece ≠ [dot, dot]
  | none => false

def Component.step (loc : Location) : Component → Location
  | .rootDir => []
  | .curDir => loc
  | .parentDir => loc.dropLast
  | .normal name => loc ++ [name]

/-- Lexical resolution: `..` takes back the name before it. -/
def resolve (base : Location) (path : List Component) : Location := path.foldl Component.step base

@[simp] theorem resolve_nil (base : Location) : resolve base [] = base := rfl

@[simp] theorem resolve_cons (base : Location) (c : Component) (cs : List Component) :
    resolve base (c :: cs) = resolve (c.step base) cs := rfl

theorem resolve_append (base : Location) (as bs : List Component) :
    resolve base (as ++ bs) = resolve (resolve base as) bs := List.foldl_append

theorem resolve_normal (base : Location) (names : List Name) :
    resolve base (names.map .normal) = base ++ names := by
  induction names generalizing base with
  | nil => simp
  | cons name names ih =>
    rw [List.map_cons, resolve_cons, ih]
    simp [Component.step]

/-- The names of a path without `..` that is not absolute. -/
def normalNames? : List Component → Option (List Name)
  | [] => some []
  | .normal name :: cs => (normalNames? cs).map (name :: ·)
  | .curDir :: cs => normalNames? cs
  | _ :: _ => none

theorem normalNames?_map_normal (names : List Name) :
    normalNames? (names.map .normal) = some names := by
  induction names with
  | nil => rfl
  | cons name names ih =>
    rw [List.map_cons, normalNames?, ih]
    rfl

theorem eq_map_normal {cs : List Component} {names : List Name} (hdot : .curDir ∉ cs)
    (h : normalNames? cs = some names) : cs = names.map .normal := by
  induction cs generalizing names with
  | nil =>
    obtain rfl := Option.some.inj h
    rfl
  | cons c cs ih =>
    rw [List.mem_cons, not_or] at hdot
    cases c with
    | curDir => exact absurd rfl hdot.1
    | rootDir => simp [normalNames?] at h
    | parentDir => simp [normalNames?] at h
    | normal name =>
      obtain ⟨rest, hrest, rfl⟩ := Option.map_eq_some_iff.mp h
      rw [ih hdot.2 hrest, List.map_cons]

theorem curDir_notMem_body (path : List UInt8) :
    .curDir ∉ (pieces path).filterMap component? := by
  intro hmem
  obtain ⟨piece, -, hpiece⟩ := List.mem_filterMap.mp hmem
  unfold component? at hpiece
  split_ifs at hpiece <;> simp at hpiece

/-- A path without `..` that starts with a name is the names it is made of. -/
theorem components_eq_map_normal {path : List UInt8} {name : Name} {names : List Name}
    (hhead : (components path).head? = some (.normal name))
    (h : normalNames? (components path) = some names) : components path = names.map .normal := by
  apply eq_map_normal _ h
  have hbody := curDir_notMem_body path
  unfold components at hhead ⊢
  dsimp only at hhead ⊢
  split_ifs at hhead ⊢
  · simp at hhead
  · simp at hhead
  · exact hbody

theorem pieces_ne_nil (path : List UInt8) : pieces path ≠ [] := by
  cases path with
  | nil => simp [pieces]
  | cons b bs =>
    rw [pieces]
    split_ifs
    · simp
    · split <;> simp

theorem pieces_append_slash (front back : List UInt8) :
    pieces (front ++ slash :: back) = pieces front ++ pieces back := by
  induction front with
  | nil => simp [pieces]
  | cons b bs ih =>
    rw [List.cons_append, pieces, pieces, ih]
    split_ifs
    · rfl
    · cases hbs : pieces bs with
      | nil => exact absurd hbs (pieces_ne_nil bs)
      | cons piece rest => rfl

theorem pieces_name {name : Name} (h : slash ∉ name) : pieces name = [name] := by
  induction name with
  | nil => rfl
  | cons b bs ih =>
    have hb : b ≠ slash := fun heq => h (heq ▸ List.mem_cons_self)
    have hbs : slash ∉ bs := fun hmem => h (List.mem_cons_of_mem _ hmem)
    rw [pieces, if_neg hb, ih hbs]

/-- A path made of names is cut into these names again. -/
theorem pieces_intercalate {names : List Name} (hne : names ≠ [])
    (h : ∀ name ∈ names, slash ∉ name) : pieces ([slash].intercalate names) = names := by
  induction names with
  | nil => exact absurd rfl hne
  | cons name rest ih =>
    have hname := pieces_name (h name List.mem_cons_self)
    cases rest with
    | nil =>
      rw [List.intercalate_singleton, hname]
    | cons next more =>
      have hrest : ∀ other ∈ next :: more, slash ∉ other := fun other hmem =>
        h other (List.mem_cons_of_mem _ hmem)
      rw [List.intercalate_cons_cons, List.append_assoc, List.singleton_append,
        pieces_append_slash, hname, ih (List.cons_ne_nil _ _) hrest, List.singleton_append]

/-- A path that ends in a name does not end in a slash. -/
theorem getLast?_of_endsInName {path : List UInt8} (h : endsInName path) :
    path.getLast? ≠ some slash := by
  intro hlast
  obtain ⟨init, rfl⟩ := List.getLast?_eq_some_iff.mp hlast
  rw [endsInName, pieces_append_slash, pieces, List.getLast?_concat] at h
  simp at h

end Unix
