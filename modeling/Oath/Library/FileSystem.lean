import Mathlib.Algebra.Ring.Nat
import Oath.Library.Outcome
import Oath.Library.Table
import Oath.Library.UnixPath

/-! A tree of files and directories with the owner's permission bits, and the calls
programs make on it. There are no links, so the place a path leads to is its lexical
resolution whenever the kernel can walk it. -/

namespace Unix

inductive IoError
  | notFound
  | permissionDenied
  | alreadyExists
  | notADirectory
  | isADirectory
  | invalidInput
  | nameTooLong
deriving DecidableEq, Repr

def IoError.text : IoError → String
  | .notFound => "No such file or directory (os error 2)"
  | .permissionDenied => "Permission denied (os error 13)"
  | .alreadyExists => "File exists (os error 17)"
  | .notADirectory => "Not a directory (os error 20)"
  | .isADirectory => "Is a directory (os error 21)"
  | .invalidInput => "file name contained an unexpected NUL byte"
  | .nameTooLong => "File name too long (os error 36)"

inductive Node
  | file (mode : ℕ) (bytes : List UInt8)
  | directory (mode : ℕ)
deriving DecidableEq, Repr

@[simp] def Node.isDirectory : Node → Bool
  | .file _ _ => false
  | .directory _ => true

def readable (mode : ℕ) : Bool := mode.testBit 8
def writable (mode : ℕ) : Bool := mode.testBit 7
def searchable (mode : ℕ) : Bool := mode.testBit 6

/-- The modes of new files and directories under the usual mask. -/
def newFileMode : ℕ := 0o644
def newDirMode : ℕ := 0o755

structure FileSystem where
  table : Table (Prod.fst : Location × Node → Location)

namespace FileSystem

def node? (fs : FileSystem) (loc : Location) : Option Node := (fs.table.find? loc).map Prod.snd

def set (fs : FileSystem) (loc : Location) (node : Node) : FileSystem :=
  ⟨fs.table.upsert (loc, node)⟩

@[simp] theorem node?_set (fs : FileSystem) (loc loc' : Location) (node : Node) :
    (fs.set loc node).node? loc' = if loc = loc' then some node else fs.node? loc' := by
  rw [node?, set, Table.find?_upsert]
  by_cases h : loc = loc' <;> simp [h, node?]

def isDirectory (fs : FileSystem) (loc : Location) : Bool :=
  match fs.node? loc with
  | some node => node.isDirectory
  | none => false

def fileBytes? (fs : FileSystem) (loc : Location) : Option (List UInt8) :=
  match fs.node? loc with
  | some (.file _ bytes) => some bytes
  | _ => none

theorem isDirectory_iff {fs : FileSystem} {loc : Location} :
    fs.isDirectory loc ↔ ∃ mode, fs.node? loc = some (.directory mode) := by
  unfold isDirectory
  cases h : fs.node? loc with
  | none => simp
  | some node => cases node <;> simp [Node.isDirectory]

theorem fileBytes?_eq_some {fs : FileSystem} {loc : Location} {bytes : List UInt8} :
    fs.fileBytes? loc = some bytes ↔ ∃ mode, fs.node? loc = some (.file mode bytes) := by
  unfold fileBytes?
  split <;> simp_all

theorem fileBytes?_of_isDirectory {fs : FileSystem} {loc : Location} (h : fs.isDirectory loc) :
    fs.fileBytes? loc = none := by
  obtain ⟨mode, hmode⟩ := isDirectory_iff.mp h
  rw [fileBytes?, hmode]

theorem fileBytes?_set_file (fs : FileSystem) (loc loc' : Location) (mode : ℕ)
    (bytes : List UInt8) :
    (fs.set loc (.file mode bytes)).fileBytes? loc' =
      if loc = loc' then some bytes else fs.fileBytes? loc' := by
  unfold fileBytes?
  rw [node?_set]
  by_cases h : loc = loc' <;> simp [h]

theorem isDirectory_eq_isNone {fs : FileSystem} {loc : Location} (h : fs.node? loc ≠ none) :
    fs.isDirectory loc = (fs.fileBytes? loc).isNone := by
  unfold isDirectory fileBytes?
  cases hnode : fs.node? loc with
  | none => exact absurd hnode h
  | some node => cases node <;> simp

/-! ## Walking a path -/

/-- The right to look a name up in a directory. -/
def search (fs : FileSystem) (loc : Location) : Except IoError Unit :=
  match fs.node? loc with
  | some (.directory mode) => if searchable mode then .ok () else .error .permissionDenied
  | some (.file _ _) => .error .notADirectory
  | none => .error .notFound

def checkName (name : Name) : Except IoError Unit :=
  if 0 ∈ name then .error .invalidInput
  else if 255 < name.length then .error .nameTooLong
  else .ok ()

def enter (fs : FileSystem) (cur : Location) : Component → Except IoError Location
  | .rootDir => .ok []
  | .curDir => .ok cur
  | .parentDir => do
    fs.search cur
    .ok cur.dropLast
  | .normal name => do
    checkName name
    fs.search cur
    match fs.node? (cur ++ [name]) with
    | some (.directory _) => .ok (cur ++ [name])
    | some (.file _ _) => .error .notADirectory
    | none => .error .notFound

def walkTo (fs : FileSystem) (cur : Location) : List Component → Except IoError Location
  | [] => .ok cur
  | c :: cs => do
    let next ← fs.enter cur c
    fs.walkTo next cs

/-! ## Creating directories and files -/

/-- One level of `create_dir_all`: enter the directory or make it. -/
def makeDir (fs : FileSystem) (cur : Location) (last : Bool) :
    Component → Except IoError (Location × FileSystem)
  | .normal name => do
    checkName name
    fs.search cur
    match fs.node? (cur ++ [name]), fs.node? cur with
    | some (.directory _), _ => .ok (cur ++ [name], fs)
    | some (.file _ _), _ => .error (if last then .alreadyExists else .notADirectory)
    | none, some (.directory mode) =>
      if writable mode then .ok (cur ++ [name], fs.set (cur ++ [name]) (.directory newDirMode))
      else .error .permissionDenied
    | none, _ => .error .notFound
  | c => do
    let next ← fs.enter cur c
    .ok (next, fs)

/-- What is made before an error stays. -/
def createDirAll (cur : Location) : List Component → FileSystem → Except IoError Unit × FileSystem
  | [], fs => (.ok (), fs)
  | c :: cs, fs =>
    match fs.makeDir cur cs.isEmpty c with
    | .ok (next, fs') => createDirAll next cs fs'
    | .error e => (.error e, fs)

/-- Open for writing, creating or truncating, and write everything. -/
def writeAt (fs : FileSystem) (parent : Location) (name : Name) (bytes : List UInt8) :
    Except IoError FileSystem := do
  checkName name
  fs.search parent
  match fs.node? (parent ++ [name]), fs.node? parent with
  | some (.directory _), _ => .error .isADirectory
  | some (.file mode _), _ =>
    if writable mode then .ok (fs.set (parent ++ [name]) (.file mode bytes))
    else .error .permissionDenied
  | none, some (.directory mode) =>
    if writable mode then .ok (fs.set (parent ++ [name]) (.file newFileMode bytes))
    else .error .permissionDenied
  | none, _ => .error .notFound

def pathMax : ℕ := 4095

/-- `std::fs::write` of `base.join(path)` for a relative path: the kernel walks every
component but the last, and the last piece has to be a name. -/
def writeFile (fs : FileSystem) (base : Location) (path : List UInt8) (bytes : List UInt8) :
    Except IoError FileSystem := do
  if pathMax < (base.map fun name => name.length + 1).sum + 1 + path.length then
    .error .nameTooLong
  else
    let parent ← fs.walkTo base (components path).dropLast
    match endsInName path, (components path).getLast? with
    | true, some (.normal name) => fs.writeAt parent name bytes
    | _, _ => .error .isADirectory

/-! ## Reading -/

/-- The entry at `base.join(rel)`, reached by walking down from `base`. -/
def lookup (fs : FileSystem) (base : Location) (rel : List Name) : Except IoError Node := do
  let parent ← fs.walkTo base (rel.dropLast.map .normal)
  fs.search parent
  match fs.node? (base ++ rel) with
  | some node => .ok node
  | none => .error .notFound

/-- `Path::exists` is false for what cannot be reached. -/
def exists? (fs : FileSystem) (base : Location) (rel : List Name) : Bool :=
  (fs.lookup base rel).isOk

def read (fs : FileSystem) (base : Location) (rel : List Name) : Except IoError (List UInt8) := do
  match ← fs.lookup base rel with
  | .file mode bytes => if readable mode then .ok bytes else .error .permissionDenied
  | .directory _ => .error .isADirectory

/-- Every directory from `base` down to the entry can be listed, and every one but the
last can be searched for the next. -/
def listed (fs : FileSystem) (base rel : Location) : Bool :=
  (List.range rel.length).all fun k =>
    match fs.node? (base ++ rel.take k) with
    | some (.directory mode) => readable mode && (k + 1 == rel.length || searchable mode)
    | _ => false

/-- The files a walk below `base` meets, by their paths relative to it. A directory that
cannot be listed is passed over; what is in it is not met. -/
def walkFiles (fs : FileSystem) (base : Location) : List Location :=
  fs.table.rows.filterMap fun (loc, node) =>
    match node with
    | .file _ _ =>
      if base.isPrefixOf loc && fs.listed base (loc.drop base.length) then
        some (loc.drop base.length)
      else none
    | .directory _ => none

/-! ## What a successful call does -/

theorem search_ok {fs : FileSystem} {loc : Location} (h : fs.search loc = .ok ()) :
    ∃ mode, fs.node? loc = some (.directory mode) ∧ searchable mode := by
  unfold search at h
  split at h
  · next mode hmode =>
    split at h
    · next hs => exact ⟨mode, hmode, hs⟩
    · simp at h
  · simp at h
  · simp at h

theorem enter_ok {fs : FileSystem} {cur next : Location} {c : Component}
    (h : fs.enter cur c = .ok next) : next = c.step cur := by
  cases c with
  | rootDir => simpa [enter, Component.step] using h.symm
  | curDir => simpa [enter, Component.step] using h.symm
  | parentDir =>
    obtain ⟨-, -, h⟩ := Except.bind_eq_ok.mp h
    simpa [Component.step] using h.symm
  | normal name =>
    obtain ⟨-, -, h⟩ := Except.bind_eq_ok.mp h
    obtain ⟨-, -, h⟩ := Except.bind_eq_ok.mp h
    split at h
    · simpa [Component.step] using h.symm
    · simp at h
    · simp at h

theorem walkTo_ok {fs : FileSystem} {cur loc : Location} {cs : List Component}
    (h : fs.walkTo cur cs = .ok loc) : loc = resolve cur cs := by
  induction cs generalizing cur with
  | nil => simpa [walkTo] using h.symm
  | cons c cs ih =>
    obtain ⟨next, hnext, h⟩ := Except.bind_eq_ok.mp h
    rw [resolve_cons, ← enter_ok hnext]
    exact ih h

theorem writeAt_ok {fs fs' : FileSystem} {parent : Location} {name : Name} {bytes : List UInt8}
    (h : fs.writeAt parent name bytes = .ok fs') :
    fs.isDirectory parent ∧ ¬ fs.isDirectory (parent ++ [name]) ∧
      ∃ mode, fs' = fs.set (parent ++ [name]) (.file mode bytes) := by
  obtain ⟨-, -, h⟩ := Except.bind_eq_ok.mp h
  obtain ⟨⟨⟩, hs, h⟩ := Except.bind_eq_ok.mp h
  obtain ⟨pmode, hpmode, -⟩ := search_ok hs
  have hparent : fs.isDirectory parent := isDirectory_iff.mpr ⟨pmode, hpmode⟩
  split at h
  · simp at h
  · next mode bytes' hfile =>
    split at h
    · refine ⟨hparent, ?_, mode, (Except.ok.inj h).symm⟩
      simp [isDirectory, hfile]
    · simp at h
  · next mode hnone hdir =>
    split at h
    · refine ⟨hparent, ?_, newFileMode, (Except.ok.inj h).symm⟩
      simp [isDirectory, hnone]
    · simp at h
  · simp at h

/-- A write that succeeds puts the file where the path leads lexically. -/
theorem writeFile_ok {fs fs' : FileSystem} {base : Location} {path bytes : List UInt8}
    (h : fs.writeFile base path bytes = .ok fs') :
    ∃ parent name mode, (components path).getLast? = some (.normal name) ∧ endsInName path ∧
      parent = resolve base (components path).dropLast ∧
      fs.isDirectory parent ∧ ¬ fs.isDirectory (parent ++ [name]) ∧
      fs' = fs.set (parent ++ [name]) (.file mode bytes) := by
  unfold writeFile at h
  split at h
  · simp at h
  · obtain ⟨parent, hparent, h⟩ := Except.bind_eq_ok.mp h
    split at h
    · next name hname hlast =>
      obtain ⟨hdir, hnot, mode, rfl⟩ := writeAt_ok h
      exact ⟨parent, name, mode, hlast, hname, walkTo_ok hparent, hdir, hnot, rfl⟩
    · simp at h

theorem resolve_of_getLast? {base : Location} {cs : List Component} {name : Name}
    (h : cs.getLast? = some (.normal name)) :
    resolve base cs = resolve base cs.dropLast ++ [name] := by
  have hcs : cs = cs.dropLast ++ [.normal name] := by
    have hne : cs ≠ [] := by
      rintro rfl
      simp at h
    rw [List.getLast?_eq_some_getLast hne] at h
    rw [← Option.some.inj h, List.dropLast_append_getLast]
  nth_rewrite 1 [hcs]
  rw [resolve_append]
  rfl

theorem makeDir_ok {fs fs' : FileSystem} {cur next : Location} {last : Bool} {c : Component}
    (h : fs.makeDir cur last c = .ok (next, fs')) :
    next = c.step cur ∧
      (fs' = fs ∨ fs.node? next = none ∧ fs' = fs.set next (.directory newDirMode)) := by
  have hother : ∀ c', (do
      let next ← fs.enter cur c'
      .ok (next, fs) : Except IoError (Location × FileSystem)) = .ok (next, fs') →
      next = c'.step cur ∧ fs' = fs := by
    intro c' h
    obtain ⟨next', hnext, h⟩ := Except.bind_eq_ok.mp h
    obtain ⟨rfl, rfl⟩ := Prod.mk.inj (Except.ok.inj h)
    exact ⟨enter_ok hnext, rfl⟩
  cases c with
  | normal name =>
    obtain ⟨-, -, h⟩ := Except.bind_eq_ok.mp h
    obtain ⟨-, -, h⟩ := Except.bind_eq_ok.mp h
    split at h
    · obtain ⟨rfl, rfl⟩ := Prod.mk.inj (Except.ok.inj h)
      exact ⟨rfl, Or.inl rfl⟩
    · simp at h
    · next hnone _ =>
      split at h
      · obtain ⟨rfl, rfl⟩ := Prod.mk.inj (Except.ok.inj h)
        exact ⟨rfl, Or.inr ⟨hnone, rfl⟩⟩
      · simp at h
    · simp at h
  | rootDir => exact ⟨(hother _ h).1, Or.inl (hother _ h).2⟩
  | curDir => exact ⟨(hother _ h).1, Or.inl (hother _ h).2⟩
  | parentDir => exact ⟨(hother _ h).1, Or.inl (hother _ h).2⟩

/-- Whatever `create_dir_all` returns, no entry is lost or changed and only directories
are new. -/
theorem createDirAll_node? (cur : Location) (cs : List Component) (fs : FileSystem)
    (loc : Location) :
    (createDirAll cur cs fs).2.node? loc = fs.node? loc ∨
      fs.node? loc = none ∧
        (createDirAll cur cs fs).2.node? loc = some (.directory newDirMode) := by
  induction cs generalizing cur fs with
  | nil => exact Or.inl rfl
  | cons c cs ih =>
    rw [createDirAll]
    split
    · next next fs' h =>
      obtain ⟨-, rfl | ⟨hnone, rfl⟩⟩ := makeDir_ok h
      · exact ih next fs'
      · have hset := fs.node?_set next loc (.directory newDirMode)
        rcases ih next (fs.set next (.directory newDirMode)) with hsame | ⟨hloc, hnew⟩
        · rw [hsame, hset]
          by_cases heq : next = loc
          · subst heq
            simp [hnone]
          · simp [heq]
        · rw [hset] at hloc
          by_cases heq : next = loc
          · simp [heq] at hloc
          · rw [if_neg heq] at hloc
            exact Or.inr ⟨hloc, hnew⟩
    · exact Or.inl rfl

theorem createDirAll_fileBytes? (cur : Location) (cs : List Component) (fs : FileSystem)
    (loc : Location) :
    (createDirAll cur cs fs).2.fileBytes? loc = fs.fileBytes? loc := by
  unfold fileBytes?
  rcases createDirAll_node? cur cs fs loc with hsame | ⟨hnone, hdir⟩
  · rw [hsame]
  · rw [hnone, hdir]

theorem createDirAll_outside {cur loc : Location} {names : List Name} (fs : FileSystem)
    (h : ¬ cur <+: loc) :
    (createDirAll cur (names.map .normal) fs).2.node? loc = fs.node? loc := by
  induction names generalizing cur fs with
  | nil => rfl
  | cons name names ih =>
    rw [List.map_cons, createDirAll]
    split
    · next next fs' hmake =>
      have hnext : next = cur ++ [name] := (makeDir_ok hmake).1
      have hout : ¬ next <+: loc := by
        rw [hnext]
        exact fun hpre => h ((List.prefix_append _ _).trans hpre)
      rw [ih fs' hout]
      obtain ⟨-, rfl | ⟨-, rfl⟩⟩ := makeDir_ok hmake
      · rfl
      · rw [node?_set, if_neg]
        rintro rfl
        exact hout (List.prefix_refl _)
    · rfl

/-! ## Placing an entry below a directory -/

/-- A location strictly below `base` on the way to `target`, `target` included. -/
def OnTheWay (base target loc : Location) : Prop := loc <+: target ∧ base.length < loc.length

instance (base target loc : Location) : Decidable (OnTheWay base target loc) :=
  inferInstanceAs (Decidable (_ ∧ _))

/-- The missing directories on the way to `base ++ names` have been made. -/
structure Made (fs fs' : FileSystem) (base : Location) (names : List Name) : Prop where
  node?_eq (loc : Location) : fs'.node? loc =
    if fs.node? loc = none ∧ OnTheWay base (base ++ names) loc then some (.directory newDirMode)
    else fs.node? loc
  isDirectory (loc : Location) (h : OnTheWay base (base ++ names) loc) : fs'.isDirectory loc

theorem onTheWay_cons {base : Location} {name : Name} {names : List Name} {loc : Location} :
    OnTheWay base (base ++ name :: names) loc ↔
      loc = base ++ [name] ∨ OnTheWay (base ++ [name]) ((base ++ [name]) ++ names) loc := by
  have hassoc : base ++ name :: names = (base ++ [name]) ++ names := by simp
  rw [hassoc]
  constructor
  · rintro ⟨hpre, hlen⟩
    by_cases heq : loc.length = base.length + 1
    · left
      have hpre' : base ++ [name] <+: (base ++ [name]) ++ names := List.prefix_append _ _
      have := List.prefix_of_prefix_length_le hpre hpre' (by simp [heq])
      exact this.eq_of_length (by simp [heq])
    · exact Or.inr ⟨hpre, by simp only [List.length_append, List.length_singleton]; omega⟩
  · rintro (rfl | ⟨hpre, hlen⟩)
    · exact ⟨List.prefix_append _ _, by simp⟩
    · simp only [List.length_append, List.length_singleton] at hlen
      exact ⟨hpre, by omega⟩

theorem not_onTheWay_nil (base loc : Location) : ¬ OnTheWay base (base ++ []) loc := by
  rintro ⟨hpre, hlen⟩
  have := hpre.length_le
  simp only [List.append_nil] at this
  omega

theorem makeDir_normal {fs fs' : FileSystem} {cur next : Location} {last : Bool} {name : Name}
    (h : fs.makeDir cur last (.normal name) = .ok (next, fs')) :
    next = cur ++ [name] ∧ fs.isDirectory cur ∧ fs'.isDirectory next := by
  obtain ⟨-, -, h⟩ := Except.bind_eq_ok.mp h
  obtain ⟨⟨⟩, hs, h⟩ := Except.bind_eq_ok.mp h
  obtain ⟨mode, hmode, -⟩ := search_ok hs
  refine ⟨?_, isDirectory_iff.mpr ⟨mode, hmode⟩, ?_⟩
  · split at h
    · exact (Prod.mk.inj (Except.ok.inj h)).1.symm
    · simp at h
    · split at h
      · exact (Prod.mk.inj (Except.ok.inj h)).1.symm
      · simp at h
    · simp at h
  · split at h
    · next hdir =>
      obtain ⟨rfl, rfl⟩ := Prod.mk.inj (Except.ok.inj h)
      exact isDirectory_iff.mpr ⟨_, hdir⟩
    · simp at h
    · split at h
      · obtain ⟨rfl, rfl⟩ := Prod.mk.inj (Except.ok.inj h)
        exact isDirectory_iff.mpr ⟨newDirMode, by simp⟩
      · simp at h
    · simp at h

theorem createDirAll_made {base : Location} {names : List Name} {fs fs' : FileSystem}
    (h : createDirAll base (names.map .normal) fs = (.ok (), fs')) : Made fs fs' base names := by
  induction names generalizing base fs with
  | nil =>
    obtain ⟨-, rfl⟩ := Prod.mk.inj h
    constructor
    · intro loc
      rw [if_neg (fun hloc => not_onTheWay_nil base loc hloc.2)]
    · intro loc hloc
      exact absurd hloc (not_onTheWay_nil base loc)
  | cons name names ih =>
    rw [List.map_cons, createDirAll] at h
    split at h
    · next next fs₁ hmake =>
      obtain ⟨rfl, -, hdir⟩ := makeDir_normal hmake
      have hmade := ih h
      have hstep : ∀ loc, fs₁.node? loc =
          if fs.node? loc = none ∧ loc = base ++ [name] then some (.directory newDirMode)
          else fs.node? loc := by
        intro loc
        obtain ⟨-, rfl | ⟨hnone, rfl⟩⟩ := makeDir_ok hmake
        · obtain ⟨mode, hmode⟩ := isDirectory_iff.mp hdir
          rw [if_neg]
          rintro ⟨hloc, rfl⟩
          simp [hloc] at hmode
        · rw [node?_set]
          by_cases heq : loc = base ++ [name]
          · subst heq
            simp [hnone]
          · rw [if_neg (Ne.symm heq), if_neg (fun hloc => heq hloc.2)]
      constructor
      · intro loc
        simp only [hmade.node?_eq, hstep, onTheWay_cons]
        by_cases hnone : fs.node? loc = none
        · by_cases heq : loc = base ++ [name]
          · subst heq
            simp [hnone]
          · simp [hnone, heq]
        · simp [hnone]
      · intro loc hloc
        rcases onTheWay_cons.mp hloc with rfl | hloc
        · obtain ⟨mode, hmode⟩ := isDirectory_iff.mp hdir
          refine isDirectory_iff.mpr ⟨mode, ?_⟩
          rw [hmade.node?_eq, if_neg (by simp [hmode]), hmode]
        · exact hmade.isDirectory loc hloc
    · simp at h

/-- The entry at `base ++ names` is `node` now, the missing directories on the way to it
have been made, and nothing else differs. -/
structure Placed (fs fs' : FileSystem) (base : Location) (names : List Name) (node : Node) :
    Prop where
  node?_target : fs'.node? (base ++ names) = some node
  node?_other (loc : Location) (h : loc ≠ base ++ names) : fs'.node? loc =
    if fs.node? loc = none ∧ OnTheWay base (base ++ names) loc then some (.directory newDirMode)
    else fs.node? loc
  isDirectory (loc : Location) (h : OnTheWay base (base ++ names) loc)
    (hne : loc ≠ base ++ names) : fs'.isDirectory loc
  isDirectory_target : fs.node? (base ++ names) ≠ none →
    fs'.isDirectory (base ++ names) = fs.isDirectory (base ++ names)

theorem onTheWay_dropLast {base : Location} {names : List Name} (hne : names ≠ [])
    {loc : Location} (h : loc ≠ base ++ names) :
    OnTheWay base (base ++ names.dropLast) loc ↔ OnTheWay base (base ++ names) loc := by
  have hcat : base ++ names = (base ++ names.dropLast) ++ [names.getLast hne] := by
    rw [List.append_assoc, List.dropLast_append_getLast]
  unfold OnTheWay
  apply and_congr_left
  intro _
  rw [hcat, List.prefix_concat_iff, ← hcat]
  simp [h]

/-- Making the directories on the way and then setting the entry places it. -/
theorem made_set_placed {fs fs₁ fs' : FileSystem} {base : Location} {names : List Name}
    {name : Name} {node : Node} (hmade : Made fs fs₁ base names)
    (hkind : fs₁.node? (base ++ names ++ [name]) ≠ none →
      node.isDirectory = fs₁.isDirectory (base ++ names ++ [name]))
    (hset : fs' = fs₁.set (base ++ names ++ [name]) node) :
    Placed fs fs' base (names ++ [name]) node := by
  have hne : names ++ [name] ≠ [] := by simp
  have hway : ∀ loc, loc ≠ base ++ (names ++ [name]) →
      (OnTheWay base (base ++ names) loc ↔ OnTheWay base (base ++ (names ++ [name])) loc) := by
    intro loc hloc
    have := onTheWay_dropLast hne hloc
    rwa [List.dropLast_concat] at this
  have htarget : ¬ OnTheWay base (base ++ names) (base ++ (names ++ [name])) := by
    rintro ⟨hpre, -⟩
    have := hpre.length_le
    simp only [List.length_append, List.length_singleton] at this
    omega
  rw [List.append_assoc] at hkind hset
  subst hset
  constructor
  · rw [node?_set, if_pos rfl]
  · intro loc hloc
    rw [node?_set, if_neg (Ne.symm hloc), hmade.node?_eq]
    simp only [hway loc hloc]
  · intro loc hloc hne'
    obtain ⟨mode', hmode⟩ := isDirectory_iff.mp (hmade.isDirectory loc ((hway loc hne').mpr hloc))
    refine isDirectory_iff.mpr ⟨mode', ?_⟩
    rw [node?_set, if_neg (Ne.symm hne'), hmode]
  · intro hsome
    have hsame := hmade.node?_eq (base ++ (names ++ [name]))
    rw [if_neg (fun h => htarget h.2)] at hsame
    have hdir : fs₁.isDirectory (base ++ (names ++ [name])) =
        fs.isDirectory (base ++ (names ++ [name])) := by
      unfold isDirectory
      rw [hsame]
    rw [← hdir, ← hkind (by rwa [hsame])]
    simp [isDirectory]

/-! ## Trees grown by placing entries -/

/-- The mode of the directory here; that of a new one when there is none. -/
def dirMode (fs : FileSystem) (loc : Location) : ℕ :=
  match fs.node? loc with
  | some (.directory mode) => mode
  | _ => newDirMode

theorem Placed.fileBytes?_file {fs fs' : FileSystem} {base : Location} {names : List Name}
    {mode : ℕ} {bytes : List UInt8} (h : Placed fs fs' base names (.file mode bytes))
    (loc : Location) :
    fs'.fileBytes? loc = if loc = base ++ names then some bytes else fs.fileBytes? loc := by
  split_ifs with hloc
  · subst hloc
    exact fileBytes?_eq_some.mpr ⟨mode, h.node?_target⟩
  · unfold fileBytes?
    rw [h.node?_other loc hloc]
    split_ifs with hnew
    · rw [hnew.1]
    · rfl

/-- Nothing that was there changes its kind. -/
theorem Placed.isDirectory_of {fs fs' : FileSystem} {base : Location} {names : List Name}
    {node : Node} (h : Placed fs fs' base names node) {loc : Location}
    (hdir : fs.isDirectory loc) : fs'.isDirectory loc := by
  obtain ⟨mode, hmode⟩ := isDirectory_iff.mp hdir
  by_cases hloc : loc = base ++ names
  · subst hloc
    rw [h.isDirectory_target (by simp [hmode])]
    exact hdir
  · refine isDirectory_iff.mpr ⟨mode, ?_⟩
    rw [h.node?_other loc hloc, if_neg (by simp [hmode]), hmode]

theorem Placed.node?_of {fs fs' : FileSystem} {base : Location} {names : List Name}
    {node : Node} (h : Placed fs fs' base names node) {loc : Location}
    (hloc : fs.node? loc ≠ none) : fs'.node? loc ≠ none := by
  by_cases htarget : loc = base ++ names
  · simp [htarget, h.node?_target]
  · rwa [h.node?_other loc htarget, if_neg (fun hnew => hloc hnew.1)]

theorem Placed.fileBytes?_directory {fs fs' : FileSystem} {base : Location} {names : List Name}
    {mode : ℕ} (h : Placed fs fs' base names (.directory mode)) (loc : Location) :
    fs'.fileBytes? loc = fs.fileBytes? loc := by
  by_cases hloc : loc = base ++ names
  · subst hloc
    have hdir : fs'.isDirectory (base ++ names) := isDirectory_iff.mpr ⟨mode, h.node?_target⟩
    rw [fileBytes?_of_isDirectory hdir]
    by_cases hnone : fs.node? (base ++ names) = none
    · rw [fileBytes?, hnone]
    · rw [h.isDirectory_target hnone] at hdir
      rw [fileBytes?_of_isDirectory hdir]
  · unfold fileBytes?
    rw [h.node?_other loc hloc]
    split_ifs with hnew
    · rw [hnew.1]
    · rfl

theorem Placed.dirMode_of_ne {fs fs' : FileSystem} {base : Location} {names : List Name}
    {node : Node} (h : Placed fs fs' base names node) {loc : Location}
    (hloc : loc ≠ base ++ names) : fs'.dirMode loc = fs.dirMode loc := by
  unfold dirMode
  rw [h.node?_other loc hloc]
  split_ifs with hnew
  · rw [hnew.1]
  · rfl

theorem Placed.dirMode_file {fs fs' : FileSystem} {base : Location} {names : List Name}
    {mode : ℕ} {bytes : List UInt8} (h : Placed fs fs' base names (.file mode bytes))
    (loc : Location) : fs'.dirMode loc = fs.dirMode loc := by
  by_cases hloc : loc = base ++ names
  · subst hloc
    have hfile : ¬ fs.isDirectory (base ++ names) := fun hdir => by
      obtain ⟨mode', hmode⟩ := isDirectory_iff.mp (h.isDirectory_of hdir)
      rw [h.node?_target] at hmode
      cases hmode
    unfold dirMode
    rw [h.node?_target]
    cases hnode : fs.node? (base ++ names) with
    | none => rfl
    | some node =>
      cases node with
      | file mode' bytes' => rfl
      | directory mode' => exact absurd (isDirectory_iff.mpr ⟨mode', hnode⟩) hfile
  · exact h.dirMode_of_ne hloc

theorem Placed.dirMode_directory {fs fs' : FileSystem} {base : Location} {names : List Name}
    {mode : ℕ} (h : Placed fs fs' base names (.directory mode)) (loc : Location) :
    fs'.dirMode loc = if loc = base ++ names then mode else fs.dirMode loc := by
  split_ifs with hloc
  · subst hloc
    rw [dirMode, h.node?_target]
  · exact h.dirMode_of_ne hloc

/-- What lies below `base` lies in directories. -/
def Rooted (fs : FileSystem) (base : Location) : Prop :=
  ∀ loc above, base <+: loc → fs.node? loc ≠ none → OnTheWay base loc above → above ≠ loc →
    fs.isDirectory above

theorem Placed.rooted {fs fs' : FileSystem} {base : Location} {names : List Name} {node : Node}
    (h : Placed fs fs' base names node) (hrooted : fs.Rooted base) : fs'.Rooted base := by
  intro loc above hbase hloc habove hne
  by_cases htarget : loc = base ++ names
  · rw [htarget] at habove hne
    exact h.isDirectory above habove hne
  · rw [h.node?_other loc htarget] at hloc
    split_ifs at hloc with hnew
    · have hlt : above.length < loc.length := lt_of_le_of_ne habove.1.length_le fun heq =>
        hne (habove.1.eq_of_length heq)
      refine h.isDirectory above ⟨habove.1.trans hnew.2.1, habove.2⟩ ?_
      rintro rfl
      exact absurd hnew.2.1.length_le (by omega)
    · exact h.isDirectory_of (hrooted loc above hbase hloc habove hne)

/-! ## What a walk meets -/

theorem mem_walkFiles {fs : FileSystem} {base rel : Location} :
    rel ∈ fs.walkFiles base ↔ (fs.fileBytes? (base ++ rel)).isSome ∧ fs.listed base rel := by
  unfold walkFiles
  rw [List.mem_filterMap, Option.isSome_iff_exists]
  simp only [fileBytes?_eq_some]
  constructor
  · rintro ⟨⟨loc, node⟩, hrow, hrel⟩
    cases node with
    | directory mode => simp at hrel
    | file mode bytes =>
      simp only [Option.ite_none_right_eq_some, Bool.and_eq_true, Option.some.injEq] at hrel
      obtain ⟨⟨hunder, hlisted⟩, rfl⟩ := hrel
      obtain ⟨rest, rfl⟩ := List.isPrefixOf_iff_prefix.mp hunder
      rw [List.drop_left] at hlisted ⊢
      refine ⟨⟨bytes, mode, ?_⟩, hlisted⟩
      rw [node?, Table.find?_key hrow]
      rfl
  · rintro ⟨⟨bytes, mode, hnode⟩, hlisted⟩
    obtain ⟨⟨loc, node⟩, hfind, rfl⟩ := Option.map_eq_some_iff.mp hnode
    obtain rfl := Table.key_of_find? hfind
    refine ⟨_, Table.mem_of_find? hfind, ?_⟩
    simp [hlisted]

/-- The walk gets down to `rel` when every directory on the way has the mode for it. -/
theorem listed_iff {fs : FileSystem} {base rel : Location}
    (hdirs : ∀ k < rel.length, fs.isDirectory (base ++ rel.take k)) :
    fs.listed base rel ↔ ∀ k < rel.length, readable (fs.dirMode (base ++ rel.take k)) ∧
      (k + 1 = rel.length ∨ searchable (fs.dirMode (base ++ rel.take k))) := by
  unfold listed
  rw [List.all_eq_true]
  simp only [List.mem_range]
  apply forall₂_congr
  intro k hk
  obtain ⟨mode, hmode⟩ := isDirectory_iff.mp (hdirs k hk)
  rw [dirMode, hmode]
  simp

/-- The bytes of the file a walk below `base` meets at `rel`. -/
def walkedFile (fs : FileSystem) (base rel : Location) : Option (List UInt8) :=
  if rel ∈ fs.walkFiles base then fs.fileBytes? (base ++ rel) else none

theorem walkedFile_of_none {fs : FileSystem} {base rel : Location}
    (h : fs.fileBytes? (base ++ rel) = none) : fs.walkedFile base rel = none := by
  rw [walkedFile, h, ite_self]

theorem walkedFile_of_some {fs : FileSystem} {base rel : Location} {bytes : List UInt8}
    (h : fs.fileBytes? (base ++ rel) = some bytes) :
    fs.walkedFile base rel = if fs.listed base rel then some bytes else none := by
  rw [walkedFile, h]
  simp only [mem_walkFiles, h, Option.isSome_some, true_and]

end FileSystem
end Unix
