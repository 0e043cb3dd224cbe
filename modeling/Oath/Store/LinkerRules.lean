import Oath.Library.CallRules
import Oath.Store.Linker

/-! What the parts of the linker do to the files when no symbolic link is on their way. -/

namespace Oath.Store
open Contracts Registry Resolve Unix

/-! ## Trees -/

section Trees
variable {faults : Faults} {k k' : Kernel} {base : Location} {names : List Name}

/-- What the making of a tree can touch. -/
def near (base : Location) (names : List Name) : Set Location :=
  wholeWay base names ∪ below (base ++ names)

/-- Another entry of the same directory is not touched. -/
theorem not_near {name other : Name} (h : name ≠ other) (rest : List Name) :
    base ++ (names ++ [other]) ++ rest ∉ near base (names ++ [name]) := by
  have hsame : ∀ more : List Name, names ++ [name] ++ more ≠ names ++ [other] ++ rest := by
    intro more heq
    rw [List.append_assoc, List.append_assoc] at heq
    exact h (List.cons.inj (List.append_cancel_left heq)).1
  rintro (⟨init, -, ⟨more, hmore⟩, heq⟩ | ⟨more, heq⟩)
  · rw [List.append_assoc] at heq
    have hinit := List.append_cancel_left heq
    rw [← hinit, List.append_assoc, List.append_assoc] at hmore
    have htail := List.append_cancel_left hmore
    exact h (List.cons.inj htail).1.symm
  · rw [List.append_assoc, List.append_assoc base] at heq
    exact hsame more (List.append_cancel_left heq)

/-- A place with nothing at it is no link either. -/
theorem linkFree_wholeWay {fs : LinkedFiles} (hfree : LinkFree fs (way base names))
    (hnone : fs.entryAt? (base ++ names) = none) : LinkFree fs (wholeWay base names) := by
  rintro loc ⟨init, hne, hprefix, rfl⟩ hlink
  by_cases heq : init = names
  · obtain ⟨target, htarget⟩ := hlink
    rw [heq, hnone] at htarget
    cases htarget
  · exact hfree _ ⟨init, hne, hprefix, heq, rfl⟩ hlink

theorem makes_linkOrCopy {source : Location} (hfree : LinkFree k.files (way base names))
    (hnone : k.files.entryAt? (base ++ names) = none) :
    Makes (Within (filesOnly {base ++ names})) (linkOrCopy faults source (.ofNames base names))
      k := by
  refine makes_bind (makes_attempt (makes_hardLink hfree rfl)) fun result k₁ hresult => ?_
  cases result with
  | ok u => exact makes_pure ()
  | error e =>
    have hfiles : k₁.files = k.files := (perform_eq_error (attempt_eq_error.mp hresult)).1
    apply makes_copyFile
    · rw [hfiles]
      exact linkFree_wholeWay hfree hnone
    · rintro ⟨inode, hinode⟩
      rw [hfiles, hnone] at hinode
      cases hinode

/-- The entries of a directory that are still to come have no place yet. -/
structure Remaining (I : LinkedFiles → Prop) (base : Location) (names remaining : List Name)
    (fs : LinkedFiles) : Prop where
  rooted : Rooted fs
  inv : I fs
  free : LinkFree fs (wholeWay base names)
  nodup : remaining.Nodup
  absent : ∀ name ∈ remaining, ∀ rest, fs.entryAt? (base ++ (names ++ [name]) ++ rest) = none

theorem Remaining.next {I : LinkedFiles → Prop} {A : Limits} {name : Name}
    {remaining : List Name} {fs : LinkedFiles} {effects : List Effect}
    (h : Remaining I base names (name :: remaining) fs)
    (hI : ∀ fs effect, I fs → Within A fs effect → I (effect.apply fs))
    (hnear : A.dirs ∪ A.files ⊆ near base (names ++ [name])) (hlinks : A.links = ∅)
    (hobey : Obey (Within A) fs effects) :
    Remaining I base names remaining (applyAll fs effects) where
  rooted := hobey.inv (fun _ _ hbefore hwithin => rooted_of_within hbefore hwithin) h.rooted
  inv := hobey.inv hI h.inv
  free := by
    apply hobey.inv (I := fun fs => LinkFree fs (wholeWay base names)) _ h.free
    intro fs effect hbefore hwithin
    refine linkFree_of_within hbefore hwithin fun loc hloc => ?_
    rw [hlinks] at hloc
    exact hloc.elim
  nodup := (List.nodup_cons.mp h.nodup).2
  absent := by
    intro other hother rest
    have hne : name ≠ other := fun heq => (List.nodup_cons.mp h.nodup).1 (heq ▸ hother)
    have hplace : base ++ (names ++ [other]) ++ rest ∉ near base (names ++ [name]) :=
      not_near hne rest
    apply hobey.inv (I := fun fs => fs.entryAt? (base ++ (names ++ [other]) ++ rest) = none) _
      (h.absent other (List.mem_cons_of_mem _ hother) rest)
    intro fs effect hbefore hwithin
    apply hwithin.stays_none hbefore
    · exact fun hmem => hplace (hnear (Or.inl hmem))
    · exact fun hmem => hplace (hnear (Or.inr hmem))
    · rw [hlinks]
      exact Set.notMem_empty _

/-- The directory itself is there now, and nothing below it. -/
theorem absent_of_createDirAll (hfree : LinkFree k.files (way base names))
    (habsent : ∀ rest, k.files.entryAt? (base ++ names ++ rest) = none)
    (h : createDirAll faults (.ofNames base names) k = .ok () k') (name : Name)
    (rest : List Name) : k'.files.entryAt? (base ++ (names ++ [name]) ++ rest) = none := by
  have hmkdir : Makes (Within (dirsOnly (wholeWay base names)))
      (createDirAll faults (.ofNames base names)) k := makes_createDirAll hfree le_rfl
  have hnone := habsent ([name] ++ rest)
  have hsame : base ++ (names ++ [name]) ++ rest = base ++ names ++ ([name] ++ rest) := by
    simp only [List.append_assoc]
  rw [hsame]
  apply hmkdir.inv_ok h (fun fs effect hbefore hwithin =>
    hwithin.stays_none hbefore ?_ (Set.notMem_empty _) (Set.notMem_empty _)) hnone
  rintro ⟨init, -, hprefix, heq⟩
  rw [List.append_assoc] at heq
  have hinit := List.append_cancel_left heq
  have hlength := hprefix.length_le
  rw [← hinit, List.length_append, List.length_append, List.length_singleton] at hlength
  omega

theorem remaining_of_createDirAll {I : LinkedFiles → Prop} {source : Location}
    (hrooted : Rooted k.files) (hfree : LinkFree k.files (way base names))
    (habsent : ∀ rest, k.files.entryAt? (base ++ names ++ rest) = none) (hinv : I k'.files)
    (h : createDirAll faults (.ofNames base names) k = .ok () k') :
    Remaining I base names (k'.files.readDir source) k'.files := by
  have hmkdir : Makes (Within (dirsOnly (wholeWay base names)))
      (createDirAll faults (.ofNames base names)) k := makes_createDirAll hfree le_rfl
  refine ⟨rooted_kept hmkdir h hrooted, hinv, ?_, LinkedFiles.nodup_readDir _ _, ?_⟩
  · apply hmkdir.inv_ok h (fun fs effect hbefore hwithin =>
      linkFree_of_within hbefore hwithin fun _ hnone => hnone.elim)
    exact linkFree_wholeWay hfree (by simpa using habsent [])
  · exact fun name _ rest => absent_of_createDirAll hfree habsent h name rest

/-- A copy has directories and files where the source has them. -/
theorem makes_hardlinkDir {dirs files : Set Location} {I : LinkedFiles → Prop} {depth : ℕ}
    {source : Location} (hrooted : Rooted k.files) (hfree : LinkFree k.files (way base names))
    (habsent : ∀ rest, k.files.entryAt? (base ++ names ++ rest) = none)
    (hway : wholeWay base names ⊆ dirs)
    (hI : ∀ fs effect, I fs → Within ⟨dirs, files, ∅, ∅⟩ fs effect → I (effect.apply fs))
    (hstart : I k.files)
    (hdirs : ∀ fs rest, I fs → fs.entryAt? (source ++ rest) = some .directory →
      base ++ names ++ rest ∈ dirs)
    (hfiles : ∀ fs rest, I fs → IsFile fs (source ++ rest) → base ++ names ++ rest ∈ files) :
    Makes (Within ⟨dirs, files, ∅, ∅⟩) (hardlinkDir faults depth source (.ofNames base names)) k := by
  induction depth generalizing dirs files source names k with
  | zero => exact makes_throw _
  | succ depth ih =>
    unfold hardlinkDir
    have hmkdir : Makes (Within (dirsOnly (wholeWay base names)))
        (createDirAll faults (.ofNames base names)) k := makes_createDirAll hfree le_rfl
    have hallowed : ∀ fs effect, Within (dirsOnly (wholeWay base names)) fs effect →
        Within ⟨dirs, files, ∅, ∅⟩ fs effect :=
      Within.mono ⟨hway, Set.empty_subset _, le_rfl, le_rfl⟩
    refine makes_bind (hmkdir.mono hallowed) fun _ k₁ hk₁ => ?_
    refine makes_bind (makes_readOk _) fun listed k₂ hlisted => ?_
    obtain ⟨hlist, rfl⟩ := readOk_eq_ok.mp hlisted
    have hnames : listed = k₂.files.readDir source := by
      unfold listDir at hlist
      split_ifs at hlist
      exact (Except.ok.inj hlist).symm
    have hbefore : Remaining I base names listed k₂.files := by
      rw [hnames]
      exact remaining_of_createDirAll hrooted hfree habsent
        ((hmkdir.mono hallowed).inv_ok hk₁ hI hstart) hk₁
    apply makes_forM (J := Remaining I base names) hbefore
    intro name remaining k hremaining
    have hchild : wholeWay base names ⊆ dirs ∩ near base (names ++ [name]) :=
      fun loc hloc => ⟨hway hloc, Or.inl (wholeWay_mono (List.prefix_append _ _) hloc)⟩
    have hle : (⟨dirs ∩ near base (names ++ [name]), files ∩ near base (names ++ [name]),
        ∅, ∅⟩ : Limits) ≤ ⟨dirs, files, ∅, ∅⟩ :=
      ⟨Set.inter_subset_left, Set.inter_subset_left, le_rfl, le_rfl⟩
    have hinvChild : ∀ fs effect, I fs → Within ⟨dirs ∩ near base (names ++ [name]),
        files ∩ near base (names ++ [name]), ∅, ∅⟩ fs effect → I (effect.apply fs) :=
      fun fs effect hinv hwithin => hI fs effect hinv (Within.mono hle _ _ hwithin)
    have hkeeps {x : Syscall Unit} (hdone : Makes (Within ⟨dirs ∩ near base (names ++ [name]),
        files ∩ near base (names ++ [name]), ∅, ∅⟩) x k) :
        Makes (Within ⟨dirs, files, ∅, ∅⟩) x k ∧
          ∀ k', x k = .ok () k' → Remaining I base names remaining k'.files := by
      refine ⟨hdone.mono (Within.mono hle), fun k' hk' => ?_⟩
      obtain ⟨effects, -, hstate, hobey⟩ := hdone.of_ok hk'
      rw [hstate]
      apply hremaining.next hinvChild _ rfl hobey
      rintro loc (hloc | hloc)
      · exact hloc.2
      · exact hloc.2
    apply hkeeps
    refine makes_bind (makes_read _) fun entry k₃ hentry => ?_
    obtain ⟨hentry, rfl⟩ := read_eq_ok.mp hentry
    have habsent' := hremaining.absent name List.mem_cons_self
    have hfree' : LinkFree k₃.files (way base (names ++ [name])) := by
      rw [wholeWay_eq_way]
      exact hremaining.free
    rw [Path.join_ofNames]
    split
    · apply ih hremaining.rooted hfree' habsent'
      · rintro loc ⟨init, hne, hprefix, rfl⟩
        rcases List.prefix_concat_iff.mp hprefix with rfl | hinit
        · refine ⟨?_, Or.inl ⟨_, hne, hprefix, rfl⟩⟩
          have hmem := hdirs k₃.files [name] hremaining.inv hentry.symm
          rwa [List.append_assoc] at hmem
        · exact hchild ⟨init, hne, hinit, rfl⟩
      · exact hinvChild
      · exact hremaining.inv
      · intro fs rest hinv hsource
        refine ⟨?_, Or.inr (List.prefix_append _ _)⟩
        rw [List.append_assoc] at hsource
        have hmem := hdirs fs ([name] ++ rest) hinv hsource
        simpa only [List.append_assoc] using hmem
      · intro fs rest hinv hsource
        refine ⟨?_, Or.inr (List.prefix_append _ _)⟩
        rw [List.append_assoc] at hsource
        have hmem := hfiles fs ([name] ++ rest) hinv hsource
        simpa only [List.append_assoc] using hmem
    · next inode _ =>
      have hnone := habsent' []
      rw [List.append_nil] at hnone
      refine (makes_linkOrCopy hfree' hnone).mono (Within.mono ⟨Set.empty_subset _, ?_,
        le_rfl, le_rfl⟩)
      rintro loc rfl
      have hmem := hfiles k₃.files [name] hremaining.inv ⟨inode, hentry.symm⟩
      rw [List.append_assoc] at hmem
      exact ⟨hmem, Or.inr List.prefix_rfl⟩
    · exact makes_pure ()
end Trees

/-! ## Places in the stage -/

def LinkEnvironment.staged (env : LinkEnvironment) (relative : List Name) : Location :=
  env.project ++ stageName :: relative

theorem inStage_eq (env : LinkEnvironment) (names : List Name) :
    env.inStage (names.map .normal) = .ofNames env.project (stageName :: names) := rfl

theorem staged_append (env : LinkEnvironment) (names rest : List Name) :
    env.staged names ++ rest = env.staged (names ++ rest) := by
  unfold LinkEnvironment.staged
  rw [List.append_assoc, List.cons_append]

theorem staged_injective (env : LinkEnvironment) : Function.Injective env.staged := by
  intro names names' heq
  exact (List.cons.inj (List.append_cancel_left heq)).2

theorem mem_wholeWay_staged {env : LinkEnvironment} {names : List Name} {loc : Location} :
    loc ∈ wholeWay env.project (stageName :: names) ↔
      ∃ init, init <+: names ∧ loc = env.staged init := by
  constructor
  · rintro ⟨init, hne, hprefix, rfl⟩
    cases init with
    | nil => exact absurd rfl hne
    | cons first init =>
      obtain ⟨rfl, hinit⟩ := List.cons_prefix_cons.mp hprefix
      exact ⟨init, hinit, rfl⟩
  · rintro ⟨init, hinit, rfl⟩
    exact ⟨stageName :: init, List.cons_ne_nil _ _, List.cons_prefix_cons.mpr ⟨rfl, hinit⟩, rfl⟩

theorem mem_way_staged {env : LinkEnvironment} {names : List Name} {loc : Location} :
    loc ∈ way env.project (stageName :: names) ↔
      ∃ init, init <+: names ∧ init ≠ names ∧ loc = env.staged init := by
  constructor
  · rintro ⟨init, hne, hprefix, hproper, rfl⟩
    cases init with
    | nil => exact absurd rfl hne
    | cons first init =>
      obtain ⟨rfl, hinit⟩ := List.cons_prefix_cons.mp hprefix
      exact ⟨init, hinit, fun heq => hproper (by rw [heq]), rfl⟩
  · rintro ⟨init, hinit, hproper, rfl⟩
    refine ⟨stageName :: init, List.cons_ne_nil _ _, List.cons_prefix_cons.mpr ⟨rfl, hinit⟩, ?_, rfl⟩
    exact fun heq => hproper (List.cons.inj heq).2

/-- The symbolic links of the stage are at these places only. -/
def LinksAt (env : LinkEnvironment) (places : Set (List Name)) (fs : LinkedFiles) : Prop :=
  ∀ relative, IsLink fs (env.staged relative) → relative ∈ places

theorem LinksAt.way {env : LinkEnvironment} {places : Set (List Name)} {fs : LinkedFiles}
    (h : LinksAt env places fs) {names : List Name}
    (hclear : ∀ init, init <+: names → init ≠ names → init ∉ places) :
    LinkFree fs (way env.project (stageName :: names)) := by
  intro loc hloc hlink
  obtain ⟨init, hprefix, hproper, rfl⟩ := mem_way_staged.mp hloc
  exact hclear init hprefix hproper (h init hlink)

theorem LinksAt.wholeWay {env : LinkEnvironment} {places : Set (List Name)} {fs : LinkedFiles}
    (h : LinksAt env places fs) {names : List Name}
    (hclear : ∀ init, init <+: names → init ∉ places) :
    LinkFree fs (wholeWay env.project (stageName :: names)) := by
  intro loc hloc hlink
  obtain ⟨init, hprefix, rfl⟩ := mem_wholeWay_staged.mp hloc
  exact hclear init hprefix (h init hlink)

theorem linksAt_of_within {env : LinkEnvironment} {places more : Set (List Name)} {A : Limits}
    {fs : LinkedFiles} {effect : Effect} (h : LinksAt env places fs)
    (hwithin : Within A fs effect) (hmore : ∀ relative, env.staged relative ∈ A.links →
      relative ∈ more) (hsubset : places ⊆ more) : LinksAt env more (effect.apply fs) := by
  intro relative hlink
  rcases hwithin.isLink hlink with hbefore | hnew
  · exact hsubset (h relative hbefore)
  · exact hmore relative hnew

/-! ## Single steps -/

theorem ensure_eq_ok {condition : Bool} {message : String} {k k' : Kernel} :
    ensure condition message k = .ok () k' ↔ condition = true ∧ k' = k := by
  unfold ensure
  cases condition <;> simp [EStateM.pure_eq_ok, EStateM.throw_ne_ok]

theorem makes_ensure {Q : LinkedFiles → Effect → Prop} (condition : Bool) (message : String)
    (k : Kernel) : Makes Q (ensure condition message) k := by
  unfold ensure
  split_ifs
  · exact makes_pure ()
  · exact makes_throw message

theorem required_eq_ok {α : Type} {message : String} {x : Option α} {a : α} {k k' : Kernel} :
    required message x k = .ok a k' ↔ x = some a ∧ k' = k := by
  unfold required
  cases x <;> simp [EStateM.pure_eq_ok, EStateM.throw_ne_ok]

theorem makes_required {α : Type} {Q : LinkedFiles → Effect → Prop} (message : String)
    (x : Option α) (k : Kernel) : Makes Q (required message x) k := by
  unfold required
  split
  · exact makes_pure _
  · exact makes_throw _

section Remove
variable {faults : Faults} {k k' : Kernel} {base : Location} {names : List Name}

theorem makes_removeExistingPath (hrooted : Rooted k.files)
    (hfree : LinkFree k.files (way base names)) :
    Makes (Within (removesBelow (base ++ names)))
      (removeExistingPath faults (.ofNames base names)) k := by
  unfold removeExistingPath
  refine makes_bind (makes_read _) fun metadata k₁ hk₁ => ?_
  obtain ⟨-, rfl⟩ := read_eq_ok.mp hk₁
  split
  · exact makes_pure ()
  · exact makes_throw _
  · exact makes_unlink hfree hrooted List.prefix_rfl
  · exact makes_removeDirAll hrooted hfree
  · exact makes_unlink hfree hrooted List.prefix_rfl

theorem metadata_notFound (hrooted : Rooted k.files) (hfree : LinkFree k.files (way base names))
    (h : k.files.metadata false (.ofNames base names) = .error .notFound) :
    k.files.entryAt? (base ++ names) = none := by
  unfold LinkedFiles.metadata at h
  cases hfind : k.files.find false (.ofNames base names) with
  | error e =>
    rw [hfind] at h
    obtain rfl := Except.error.inj h
    exact none_of_notFound hfree hrooted hfind
  | ok loc =>
    have hloc := find_plain hfree hfind
    rw [hfind, hloc] at h
    cases hentry : k.files.entryAt? (base ++ names) with
    | none => rfl
    | some entry =>
      simp only [bind, Except.bind, hentry] at h
      cases h

theorem entryAt?_of_removeExistingPath (hrooted : Rooted k.files)
    (hfree : LinkFree k.files (way base names))
    (h : removeExistingPath faults (.ofNames base names) k = .ok () k') :
    k'.files.entryAt? (base ++ names) = none := by
  obtain ⟨metadata, k₁, hk₁, h1⟩ := EStateM.bind_eq_ok.mp h
  obtain ⟨hmetadata, rfl⟩ := read_eq_ok.mp hk₁
  split at h1
  · obtain ⟨-, rfl⟩ := EStateM.pure_eq_ok.mp h1
    exact metadata_notFound hrooted hfree hmetadata.symm
  · exact absurd h1 EStateM.throw_ne_ok
  · exact entryAt?_of_unlink hfree h1
  · exact entryAt?_of_removeDirAll hfree h1
  · exact entryAt?_of_unlink hfree h1

end Remove

/-! ## Packages -/

/-- What the placing of a tree may do: make directories and files where the source has them,
and the directories above it, and remove what was there. -/
def treeLimits (env : LinkEnvironment) (names : List Name) (dirs files : Set (List Name)) :
    Limits where
  dirs := {loc | (∃ init, init <+: names ∧ loc = env.staged init) ∨
    ∃ rest ∈ dirs, loc = env.staged (names ++ rest)}
  files := {loc | ∃ rest ∈ files, loc = env.staged (names ++ rest)}
  links := ∅
  removed := below (env.staged names)

/-- The directories and files of the tree that a path leads to, as long as the invariant holds. -/
def Sourced (I : LinkedFiles → Prop) (p : Path) (dirs files : Set (List Name)) : Prop :=
  ∀ fs fs' source rest, I fs → fs.find true p = .ok source → I fs' →
    (fs'.entryAt? (source ++ rest) = some .directory → rest ∈ dirs) ∧
      (IsFile fs' (source ++ rest) → rest ∈ files)

/-- The state from which something is linked to a place of the stage. -/
structure Ready (I : LinkedFiles → Prop) (env : LinkEnvironment) (names : List Name)
    (fs : LinkedFiles) : Prop where
  rooted : Rooted fs
  inv : I fs
  free : LinkFree fs (way env.project (stageName :: names))

section Place
variable {env : LinkEnvironment} {I : LinkedFiles → Prop} {names : List Name}
  {dirs files : Set (List Name)} {k k' : Kernel} {A : Limits}

theorem Ready.next {ε α : Type} {x : EStateM ε Kernel α} {a : α}
    (h : Ready I env names k.files) (hmakes : Makes (Within A) x k) (hx : x k = .ok a k')
    (hI : ∀ fs effect, I fs → Within A fs effect → I (effect.apply fs))
    (hlinks : ∀ loc ∈ A.links, loc ∉ way env.project (stageName :: names)) :
    Ready I env names k'.files where
  rooted := rooted_kept hmakes hx h.rooted
  inv := hmakes.inv_ok hx hI h.inv
  free := hmakes.inv_ok hx
    (fun _ _ hbefore hwithin => linkFree_of_within hbefore hwithin hlinks) h.free

theorem parent_inStage {init : List Name} {last : Name} :
    (env.inStage ((init ++ [last]).map .normal)).parent =
      .ofNames env.project (stageName :: init) := by
  rw [inStage_eq, Path.parent_ofNames, ← List.cons_append, List.dropLast_concat]

theorem wholeWay_init {init : List Name} {last : Name} :
    wholeWay env.project (stageName :: init) = way env.project (stageName :: (init ++ [last])) := by
  rw [← List.cons_append, wholeWay_eq_way]

/-- The directories above a place. -/
theorem makes_createParent (hnames : names ≠ []) (hready : Ready I env names k.files) :
    Makes (Within (dirsOnly {loc | ∃ init, init <+: names ∧ init ≠ names ∧ loc = env.staged init}))
      (createDirAll env.faults (env.inStage (names.map .normal)).parent) k := by
  obtain ⟨init, last, rfl⟩ := (List.eq_nil_or_concat' names).resolve_left hnames
  rw [parent_inStage]
  have hfree : LinkFree k.files (wholeWay env.project (stageName :: init)) := by
    rw [wholeWay_init]
    exact hready.free
  apply makes_createDirAll (hfree.mono (way_subset _ _))
  intro loc hloc
  obtain ⟨up, hup, rfl⟩ := mem_wholeWay_staged.mp hloc
  refine ⟨up, hup.trans (List.prefix_append _ _), ?_, rfl⟩
  rintro rfl
  have hlength := hup.length_le
  rw [List.length_append, List.length_singleton] at hlength
  omega

theorem tree_way : dirsOnly {loc | ∃ init, init <+: names ∧ init ≠ names ∧ loc = env.staged init} ≤
    treeLimits env names dirs files := by
  refine ⟨?_, Set.empty_subset _, le_rfl, Set.empty_subset _⟩
  rintro loc ⟨init, hprefix, -, rfl⟩
  exact Or.inl ⟨init, hprefix, rfl⟩

theorem removes_tree : removesBelow (env.staged names) ≤ treeLimits env names dirs files :=
  ⟨Set.empty_subset _, Set.empty_subset _, le_rfl, le_rfl⟩

/-- A tree is linked to a place where there is nothing. -/
theorem makes_linkTree {p : Path} {depth : ℕ} (hnames : names ≠ [])
    (hI : ∀ fs effect, I fs → Within (treeLimits env names dirs files) fs effect →
      I (effect.apply fs))
    (hsourced : Sourced I p dirs files) (hready : Ready I env names k.files)
    (hnone : k.files.entryAt? (env.staged names) = none) :
    Makes (Within (treeLimits env names dirs files)) (do
      orText (createDirAll env.faults (env.inStage (names.map .normal)).parent)
      let source ← orText (readOk (·.find true p))
      orText (hardlinkDir env.faults depth source (env.inStage (names.map .normal)))) k := by
  have hparent : Makes (Within (treeLimits env names dirs files))
      (createDirAll env.faults (env.inStage (names.map .normal)).parent) k :=
    (makes_createParent hnames hready).mono (Within.mono tree_way)
  refine makes_bind (makes_withErrors hparent) fun _ k₁ hk₁ => ?_
  have hk₁ := withErrors_eq_ok.mp hk₁
  have hready₁ := hready.next hparent hk₁ hI fun _ hempty => hempty.elim
  have hnone₁ : k₁.files.entryAt? (env.staged names) = none := by
    apply (makes_createParent hnames hready).inv_ok hk₁ (fun fs effect hbefore hwithin =>
      hwithin.stays_none hbefore ?_ (Set.notMem_empty _) (Set.notMem_empty _)) hnone
    rintro ⟨init, -, hproper, heq⟩
    exact hproper (staged_injective env heq).symm
  refine makes_bind (makes_withErrors (makes_readOk _)) fun source k₂ hk₂ => ?_
  obtain ⟨hfind, rfl⟩ := readOk_eq_ok.mp (withErrors_eq_ok.mp hk₂)
  have hle : (⟨(treeLimits env names dirs files).dirs, (treeLimits env names dirs files).files,
      ∅, ∅⟩ : Limits) ≤ treeLimits env names dirs files :=
    ⟨le_rfl, le_rfl, le_rfl, Set.empty_subset _⟩
  apply (makes_withErrors (makes_hardlinkDir (I := I) hready₁.rooted hready₁.free _ _ _
    hready₁.inv _ _)).mono (Within.mono hle)
  · intro rest
    exact hready₁.rooted.none_below hnone₁ rest
  · intro loc hloc
    obtain ⟨init, hprefix, rfl⟩ := mem_wholeWay_staged.mp hloc
    exact Or.inl ⟨init, hprefix, rfl⟩
  · exact fun fs effect hinv hwithin => hI fs effect hinv (Within.mono hle _ _ hwithin)
  · intro fs rest hinv hsource
    have hrest := (hsourced k₂.files fs source rest hready₁.inv hfind hinv).1 hsource
    exact Or.inr ⟨rest, hrest, staged_append env names rest⟩
  · intro fs rest hinv hsource
    have hrest := (hsourced k₂.files fs source rest hready₁.inv hfind hinv).2 hsource
    exact ⟨rest, hrest, staged_append env names rest⟩

/-- Where the linker takes the package of a node from. -/
def LinkEnvironment.origin (env : LinkEnvironment) (preserveExisting : Bool)
    (node : PlacementNode) (relative : List Component) : Path :=
  if preserveExisting && node.reuseExisting then env.inLive relative else env.sourceOf node

theorem makes_placePackage {preserveExisting : Bool} {node : PlacementNode} (hnames : names ≠ [])
    (hI : ∀ fs effect, I fs → Within (treeLimits env names dirs files) fs effect →
      I (effect.apply fs))
    (hsourced : Sourced I (env.origin preserveExisting node (names.map .normal)) dirs files)
    (hready : Ready I env names k.files) :
    Makes (Within (treeLimits env names dirs files)) (placePackage env preserveExisting node
      (names.map .normal) (env.inStage (names.map .normal))) k := by
  have hremove : ∀ k, Ready I env names k.files → Makes (Within (treeLimits env names dirs files))
      (removeExistingPath env.faults (env.inStage (names.map .normal))) k := by
    intro k hready
    exact (makes_removeExistingPath hready.rooted hready.free).mono (Within.mono removes_tree)
  unfold placePackage
  unfold LinkEnvironment.origin at hsourced
  split_ifs at hsourced ⊢
  · unfold reuseExisting
    refine makes_bind (makes_read _) fun _ k₁ hk₁ => ?_
    obtain ⟨-, rfl⟩ := read_eq_ok.mp hk₁
    refine makes_bind (makes_ensure _ _ _) fun _ k₂ hk₂ => ?_
    obtain ⟨-, rfl⟩ := ensure_eq_ok.mp hk₂
    refine makes_bind (makes_withErrors (hremove _ hready)) fun _ k₃ hk₃ => ?_
    have hk₃ := withErrors_eq_ok.mp hk₃
    have hready₃ := hready.next (hremove _ hready) hk₃ hI fun _ hempty => hempty.elim
    exact makes_linkTree hnames hI hsourced hready₃
      (entryAt?_of_removeExistingPath hready.rooted hready.free hk₃)
  · unfold placeFromStore
    refine makes_bind (makes_withErrors (hremove _ hready)) fun _ k₁ hk₁ => ?_
    have hk₁ := withErrors_eq_ok.mp hk₁
    have hready₁ := hready.next (hremove _ hready) hk₁ hI fun _ hempty => hempty.elim
    refine makes_bind (makes_read _) fun _ k₂ hk₂ => ?_
    obtain ⟨-, rfl⟩ := read_eq_ok.mp hk₂
    refine makes_bind (makes_ensure _ _ _) fun _ k₃ hk₃ => ?_
    obtain ⟨-, rfl⟩ := ensure_eq_ok.mp hk₃
    exact makes_linkTree hnames hI hsourced hready₁
      (entryAt?_of_removeExistingPath hready.rooted hready.free hk₁)

/-! ## Workspace links -/

def linkLimits (env : LinkEnvironment) (names : List Name) : Limits where
  dirs := {loc | ∃ init, init <+: names ∧ init ≠ names ∧ loc = env.staged init}
  files := ∅
  links := {env.staged names}
  removed := below (env.staged names)

theorem not_mem_own_way : env.staged names ∉ way env.project (stageName :: names) := by
  intro hmem
  obtain ⟨init, -, hproper, heq⟩ := mem_way_staged.mp hmem
  exact hproper (staged_injective env heq).symm

theorem checkedTarget_state {target : String} {parts : List Component}
    (h : checkedTarget env target k = .ok parts k') : k' = k := by
  unfold checkedTarget at h
  split at h
  · exact (EStateM.Result.ok.inj h).2.symm
  · cases h

theorem makes_checkedTarget {Q : LinkedFiles → Effect → Prop} (target : String) :
    Makes Q (checkedTarget env target) k := by
  have hstate : (checkedTarget env target k).state = k := by
    unfold checkedTarget
    split <;> rfl
  exact makes_of_state (by rw [hstate]) (by rw [hstate])

theorem makes_linkWorkspace {node : PlacementNode} (hnames : names ≠ [])
    (hI : ∀ fs effect, I fs → Within (linkLimits env names) fs effect → I (effect.apply fs))
    (hready : Ready I env names k.files) :
    Makes (Within (linkLimits env names))
      (linkWorkspace env node (env.inStage (names.map .normal))) k := by
  have hlinks : ∀ loc ∈ (linkLimits env names).links, loc ∉ way env.project (stageName :: names) := by
    rintro loc rfl
    exact not_mem_own_way
  have hremove : Makes (Within (linkLimits env names))
      (removeExistingPath env.faults (env.inStage (names.map .normal))) k :=
    (makes_removeExistingPath hready.rooted hready.free).mono (Within.mono
      ⟨Set.empty_subset _, le_rfl, Set.empty_subset _, le_rfl⟩)
  refine makes_bind (makes_withErrors hremove) fun _ k₁ hk₁ => ?_
  have hready₁ := hready.next hremove (withErrors_eq_ok.mp hk₁) hI hlinks
  refine makes_bind (makes_required _ _ _) fun target k₂ hk₂ => ?_
  obtain ⟨-, rfl⟩ := required_eq_ok.mp hk₂
  refine makes_bind (makes_checkedTarget _) fun parts k₃ hk₃ => ?_
  obtain rfl := checkedTarget_state hk₃
  have hparent : Makes (Within (linkLimits env names))
      (createDirAll env.faults (env.inStage (names.map .normal)).parent) k₃ :=
    (makes_createParent hnames hready₁).mono (Within.mono
      ⟨le_rfl, le_rfl, Set.empty_subset _, Set.empty_subset _⟩)
  refine makes_bind (makes_withErrors hparent) fun _ k₄ hk₄ => ?_
  have hready₄ := hready₁.next hparent (withErrors_eq_ok.mp hk₄) hI hlinks
  exact makes_withErrors (makes_symlink hready₄.free rfl)

end Place

/-! ## Executables -/

def binLimits (env : LinkEnvironment) (names : List Name) : Limits where
  dirs := {loc | ∃ init, init <+: names.dropLast ++ [binName] ∧ loc = env.staged init}
  files := ∅
  links := {loc | ∃ bin, loc = env.staged (names.dropLast ++ [binName, bin])}
  removed := ∅

section Bins
variable {env : LinkEnvironment} {names : List Name} {k : Kernel}

/-- No link is on the way to the directory of executables. -/
def BinsFree (env : LinkEnvironment) (names : List Name) (fs : LinkedFiles) : Prop :=
  LinkFree fs (wholeWay env.project (stageName :: (names.dropLast ++ [binName])))

theorem binsFree_of_within {A : Limits} {fs : LinkedFiles} {effect : Effect}
    (h : BinsFree env names fs) (hwithin : Within A fs effect)
    (hlinks : A.links ⊆ (binLimits env names).links) : BinsFree env names (effect.apply fs) := by
  apply linkFree_of_within h hwithin
  intro loc hloc hmem
  obtain ⟨bin, rfl⟩ := hlinks hloc
  obtain ⟨init, hprefix, heq⟩ := mem_wholeWay_staged.mp hmem
  have hinit := staged_injective env heq
  have hlength := hprefix.length_le
  rw [← hinit] at hlength
  simp only [List.length_append, List.length_cons, List.length_nil] at hlength
  omega

theorem binDir_inStage (hnames : names ≠ []) :
    binDir (env.inStage (names.map .normal)) =
      .ofNames env.project (stageName :: (names.dropLast ++ [binName])) := by
  obtain ⟨init, last, rfl⟩ := (List.eq_nil_or_concat' names).resolve_left hnames
  unfold binDir
  rw [parent_inStage, Path.join_ofNames, List.dropLast_concat]
  rfl

theorem makes_linkBin {link target : Path} {result : LinkResult} {bin : Name}
    (hfree : BinsFree env names k.files)
    (hlink : link = .ofNames env.project (stageName :: (names.dropLast ++ [binName, bin]))) :
    Makes (Within (binLimits env names)) (linkBin env link target result) k := by
  subst hlink
  refine makes_bind (makes_read _) fun present k₁ hk₁ => ?_
  obtain ⟨-, rfl⟩ := read_eq_ok.mp hk₁
  have hway : way env.project (stageName :: (names.dropLast ++ [binName, bin])) =
      wholeWay env.project (stageName :: (names.dropLast ++ [binName])) := by
    have hsplit : stageName :: (names.dropLast ++ [binName, bin]) =
        stageName :: (names.dropLast ++ [binName]) ++ [bin] := by simp
    rw [hsplit, wholeWay_eq_way]
  split_ifs
  · exact makes_pure _
  · refine makes_bind (makes_withErrors (makes_symlink ?_ ⟨bin, rfl⟩)) fun _ k₂ _ => makes_pure _
    rw [hway]
    exact hfree

theorem makes_linkBins {bins : List (String × List Name)} {result : LinkResult}
    (hnames : names ≠ []) (hfree : BinsFree env names k.files) :
    Makes (Within (binLimits env names))
      (linkBins env (env.inStage (names.map .normal)) bins result) k := by
  induction bins generalizing result k with
  | nil => exact makes_pure _
  | cons entry bins ih =>
    obtain ⟨name, path⟩ := entry
    unfold linkBins
    refine makes_bind (makes_read _) fun present k₁ hk₁ => ?_
    obtain ⟨-, rfl⟩ := read_eq_ok.mp hk₁
    split_ifs
    · have hmkdir : Makes (Within (binLimits env names))
          (createDirAll env.faults (binDir (env.inStage (names.map .normal)))) k₁ := by
        rw [binDir_inStage hnames]
        apply (makes_createDirAll (hfree.mono (way_subset _ _)) le_rfl).mono (Within.mono ?_)
        refine ⟨?_, le_rfl, Set.empty_subset _, le_rfl⟩
        intro loc hloc
        exact mem_wholeWay_staged.mp hloc
      have hkept : ∀ {ε α : Type} {x : EStateM ε Kernel α} {a : α} {k k' : Kernel},
          Makes (Within (binLimits env names)) x k → x k = .ok a k' →
            BinsFree env names k.files → BinsFree env names k'.files :=
        fun hmakes hx hbefore => hmakes.inv_ok hx
          (fun _ _ hfree hwithin => binsFree_of_within hfree hwithin le_rfl) hbefore
      refine makes_bind (makes_withErrors hmkdir) fun _ k₂ hk₂ => ?_
      have hfree₂ := hkept hmkdir (withErrors_eq_ok.mp hk₂) hfree
      have hbin : Makes (Within (binLimits env names)) (linkBin env
          ((binDir (env.inStage (names.map .normal))).join (asBytes name))
          ((env.inStage (names.map .normal)).joinAll path) result) k₂ := by
        apply @makes_linkBin env names k₂ _ _ _ (asBytes name) hfree₂
        rw [binDir_inStage hnames, Path.join_ofNames]
        simp
      refine makes_bind hbin fun linked k₃ hk₃ => ?_
      exact ih (hkept hbin hk₃ hfree₂)
    · exact ih hfree

end Bins

/-! ## Nodes -/

def namesOf (location : String) : Option (List Name) := (relativeTo location).bind normalNames?

/-- A path below `node_modules` has no `.`. -/
theorem relativeTo_eq_map {location : String} {relative : List Component} {names : List Name}
    (hrelative : relativeTo location = some relative) (hnames : normalNames? relative = some names) :
    relative = names.map .normal := by
  unfold relativeTo at hrelative
  split at hrelative
  · next name rest hcomponents =>
    split_ifs at hrelative
    obtain rfl := Option.some.inj hrelative
    have hwhole : normalNames? (components (asBytes location)) = some (name :: names) := by
      rw [hcomponents, normalNames?, hnames]
      rfl
    have heq := components_eq_map_normal (by rw [hcomponents]; rfl) hwhole
    rw [hcomponents] at heq
    exact (List.cons.inj heq).2
  · cases hrelative

theorem normalNames?_isSome {relative : List Component} (hparent : .parentDir ∉ relative)
    (hroot : .rootDir ∉ relative) : ∃ names, normalNames? relative = some names := by
  induction relative with
  | nil => exact ⟨[], rfl⟩
  | cons part rest ih =>
    rw [List.mem_cons, not_or] at hparent hroot
    obtain ⟨names, hnames⟩ := ih hparent.2 hroot.2
    cases part with
    | parentDir => exact absurd rfl hparent.1
    | rootDir => exact absurd rfl hroot.1
    | curDir => exact ⟨names, hnames⟩
    | normal name => exact ⟨name :: names, by rw [normalNames?, hnames]; rfl⟩

theorem namesOf_safe {location : String} {relative : List Component}
    (hrelative : relativeTo location = some relative) (hsafe : isSafeRelative relative = true) :
    ∃ names, names ≠ [] ∧ namesOf location = some names ∧ relative = names.map .normal := by
  have hparts : relative ≠ [] ∧ .parentDir ∉ relative ∧ .rootDir ∉ relative := by
    simpa [isSafeRelative, and_assoc] using hsafe
  obtain ⟨hne, hparent, hroot⟩ := hparts
  obtain ⟨names, hnames⟩ := normalNames?_isSome hparent hroot
  have heq := relativeTo_eq_map hrelative hnames
  refine ⟨names, ?_, ?_, heq⟩
  · rintro rfl
    exact hne heq
  · unfold namesOf
    rw [hrelative]
    exact hnames

def nodeLimits (env : LinkEnvironment) (node : PlacementNode) (names : List Name)
    (dirs files : Set (List Name)) : Limits :=
  if node.link then linkLimits env names
  else (treeLimits env names dirs files).union (binLimits env names)

/-- Where a node may have a symbolic link made: at its place, or for its executables. -/
def linkPlaces (node : PlacementNode) : Set (List Name) :=
  {place | ∃ names, namesOf node.location = some names ∧
    if node.link then place = names else ∃ bin, place = names.dropLast ++ [binName, bin]}

/-- The directories that are gone through for a node. -/
def walkedPlaces (node : PlacementNode) : Set (List Name) :=
  {place | ∃ names, namesOf node.location = some names ∧
    ((place <+: names ∧ place ≠ names) ∨
      (node.link = false ∧ place <+: names.dropLast ++ [binName]))}

section Nodes
variable {env : LinkEnvironment} {I : LinkedFiles → Prop} {preserveExisting : Bool}
  {dirs files : Set (List Name)} {k : Kernel}

theorem makes_linkNode {node : PlacementNode} {names : List Name} {result : LinkResult}
    {places : Set (List Name)} (hlocation : namesOf node.location = some names)
    (hI : ∀ fs effect, I fs → Within (nodeLimits env node names dirs files) fs effect →
      I (effect.apply fs))
    (hsourced : node.link = false →
      Sourced I (env.origin preserveExisting node (names.map .normal)) dirs files)
    (hrooted : Rooted k.files) (hinv : I k.files) (hlinks : LinksAt env places k.files)
    (hclear : ∀ place ∈ walkedPlaces node, place ∉ places) :
    Makes (Within (nodeLimits env node names dirs files))
      (linkNode env preserveExisting node result) k := by
  unfold linkNode
  refine makes_bind (makes_required _ _ _) fun relative k₁ hk₁ => ?_
  obtain ⟨hrelative, rfl⟩ := required_eq_ok.mp hk₁
  refine makes_bind (makes_ensure _ _ _) fun _ k₂ hk₂ => ?_
  obtain ⟨hsafe, rfl⟩ := ensure_eq_ok.mp hk₂
  obtain ⟨names', hne, hnames', rfl⟩ := namesOf_safe hrelative hsafe
  obtain rfl : names = names' := Option.some.inj (hlocation.symm.trans hnames')
  have hready : Ready I env names k₂.files := by
    refine ⟨hrooted, hinv, hlinks.way fun init hprefix hproper => ?_⟩
    exact hclear init ⟨names, hlocation, Or.inl (And.intro hprefix hproper)⟩
  unfold nodeLimits at hI ⊢
  cases hlink : node.link with
  | true =>
    rw [hlink] at hI
    exact makes_bind (makes_linkWorkspace hne hI hready) fun _ k₃ _ => makes_pure _
  | false =>
    rw [hlink] at hI
    have hbins : BinsFree env names k₂.files := hlinks.wholeWay fun init hprefix =>
      hclear init ⟨names, hlocation, Or.inr ⟨hlink, hprefix⟩⟩
    have hplace : Makes (Within (treeLimits env names dirs files)) (placePackage env
        preserveExisting node (names.map .normal) (env.inStage (names.map .normal))) k₂ := by
      apply makes_placePackage hne _ (hsourced hlink) hready
      exact fun fs effect hfs hwithin =>
        hI fs effect hfs (Within.mono (Limits.le_union_left _ _) _ _ hwithin)
    refine makes_bind (hplace.mono (Within.mono (Limits.le_union_left _ _))) fun _ k₃ hk₃ => ?_
    refine makes_bind (makes_read _) fun bins k₄ hk₄ => ?_
    obtain ⟨-, rfl⟩ := read_eq_ok.mp hk₄
    have hbins₄ : BinsFree env names k₄.files := hplace.inv_ok hk₃
      (fun _ _ hfree hwithin => binsFree_of_within hfree hwithin (Set.empty_subset _)) hbins
    exact (makes_linkBins hne hbins₄).mono (Within.mono (Limits.le_union_right _ _))

end Nodes

end Oath.Store
