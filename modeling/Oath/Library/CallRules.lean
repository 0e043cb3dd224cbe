import Oath.Library.CallEffects

/-! What each call does to the files when no symbolic link is on its way. -/

namespace Unix

def Path.ofNames (base : Location) (names : List Name) : Path := ⟨base, names.map .normal⟩

theorem Path.join_ofNames (base : Location) (names : List Name) (name : Name) :
    (Path.ofNames base names).join name = Path.ofNames base (names ++ [name]) := by
  unfold Path.ofNames Path.join
  rw [List.map_append]
  rfl

theorem Path.parent_ofNames (base : Location) (names : List Name) :
    (Path.ofNames base names).parent = Path.ofNames base names.dropLast := by
  unfold Path.ofNames Path.parent
  rw [List.map_dropLast]

/-- The places that the walk along a path goes through before the last. -/
def way (base : Location) (names : List Name) : Set Location :=
  {loc | ∃ init, init ≠ [] ∧ init <+: names ∧ init ≠ names ∧ loc = base ++ init}

def wholeWay (base : Location) (names : List Name) : Set Location :=
  {loc | ∃ init, init ≠ [] ∧ init <+: names ∧ loc = base ++ init}

def below (loc : Location) : Set Location := {loc' | loc <+: loc'}

theorem way_subset (base : Location) (names : List Name) : way base names ⊆ wholeWay base names := by
  rintro loc ⟨init, hne, hprefix, -, rfl⟩
  exact ⟨init, hne, hprefix, rfl⟩

theorem wholeWay_eq_way (base : Location) (names : List Name) (name : Name) :
    way base (names ++ [name]) = wholeWay base names := by
  ext loc
  constructor
  · rintro ⟨init, hne, hprefix, hproper, rfl⟩
    rcases List.prefix_concat_iff.mp hprefix with heq | hinit
    · exact absurd heq hproper
    · exact ⟨init, hne, hinit, rfl⟩
  · rintro ⟨init, hne, hprefix, rfl⟩
    refine ⟨init, hne, hprefix.trans (List.prefix_append _ _), ?_, rfl⟩
    rintro rfl
    have hlength := hprefix.length_le
    rw [List.length_append, List.length_singleton] at hlength
    omega

theorem wholeWay_mono {base : Location} {names names' : List Name} (h : names <+: names') :
    wholeWay base names ⊆ wholeWay base names' := by
  rintro loc ⟨init, hne, hprefix, rfl⟩
  exact ⟨init, hne, hprefix.trans h, rfl⟩

def LinkFree (fs : LinkedFiles) (places : Set Location) : Prop := ∀ loc ∈ places, ¬IsLink fs loc

theorem LinkFree.mono {fs : LinkedFiles} {places places' : Set Location}
    (h : LinkFree fs places') (hsubset : places ⊆ places') : LinkFree fs places :=
  fun loc hloc => h loc (hsubset hloc)

theorem linkFree_of_within {A : Limits} {fs : LinkedFiles} {effect : Effect}
    {places : Set Location} (h : LinkFree fs places) (hwithin : Within A fs effect)
    (hlinks : ∀ loc ∈ A.links, loc ∉ places) : LinkFree (effect.apply fs) places := by
  intro loc hloc hlink
  rcases hwithin.isLink hlink with hbefore | hnew
  · exact h loc hloc hbefore
  · exact hlinks loc hnew hloc

/-! ## Paths -/

section Find
variable {fs : LinkedFiles} {base loc : Location} {names : List Name}

theorem walk_plain {follow : Bool}
    {jump : Location → List Component → Except FileError Location}
    (hfree : ∀ init, init ≠ [] → init <+: names → (init ≠ names ∨ follow = true) →
      ¬IsLink fs (base ++ init))
    (h : fs.walk follow jump base (names.map .normal) = .ok loc) : loc = base ++ names := by
  induction names generalizing base with
  | nil =>
    rw [List.append_nil]
    exact (Except.ok.inj h).symm
  | cons name rest ih =>
    have hrest : ∀ init, init ≠ [] → init <+: rest → (init ≠ rest ∨ follow = true) →
        ¬IsLink fs (base ++ [name] ++ init) := by
      intro init hne hprefix hproper
      rw [List.append_assoc]
      refine hfree (name :: init) (List.cons_ne_nil _ _) ?_ ?_
      · exact List.cons_prefix_cons.mpr ⟨rfl, hprefix⟩
      · exact hproper.imp_left fun hinit heq => hinit (List.cons.inj heq).2
    rw [List.map_cons, LinkedFiles.walk] at h
    have happend : base ++ [name] ++ rest = base ++ name :: rest := by rw [List.append_assoc]; rfl
    cases hentry : fs.entryAt? (base ++ [name]) with
    | none =>
      rw [hentry] at h
      cases rest with
      | nil => exact (Except.ok.inj h).symm
      | cons next rest => cases h
    | some entry =>
      rw [hentry] at h
      cases entry with
      | directory => rw [← happend, ih hrest h]
      | file inode =>
        cases rest with
        | nil => exact (Except.ok.inj h).symm
        | cons next rest => cases h
      | symlink target =>
        have hlink : IsLink fs (base ++ [name]) := ⟨target, hentry⟩
        have hstart : [name] <+: name :: rest := List.cons_prefix_cons.mpr ⟨rfl, List.nil_prefix⟩
        cases rest with
        | nil =>
          cases follow with
          | false => exact (Except.ok.inj h).symm
          | true => exact absurd hlink (hfree [name] (by simp) hstart (Or.inr rfl))
        | cons next rest => exact absurd hlink (hfree [name] (by simp) hstart (Or.inl (by simp)))

/-- When a path is not found, a directory of it is missing. -/
theorem walk_notFound {jump : Location → List Component → Except FileError Location}
    (hfree : ∀ init, init ≠ [] → init <+: names → init ≠ names → ¬IsLink fs (base ++ init))
    (h : fs.walk false jump base (names.map .normal) = .error .notFound) :
    ∃ init, init <+: names ∧ fs.entryAt? (base ++ init) = none := by
  induction names generalizing base with
  | nil => cases h
  | cons name rest ih =>
    have hrest : ∀ init, init ≠ [] → init <+: rest → init ≠ rest →
        ¬IsLink fs (base ++ [name] ++ init) := by
      intro init hne hprefix hproper
      rw [List.append_assoc]
      refine hfree (name :: init) (List.cons_ne_nil _ _) ?_ ?_
      · exact List.cons_prefix_cons.mpr ⟨rfl, hprefix⟩
      · exact fun heq => hproper (List.cons.inj heq).2
    have hstart : [name] <+: name :: rest := List.cons_prefix_cons.mpr ⟨rfl, List.nil_prefix⟩
    rw [List.map_cons, LinkedFiles.walk] at h
    cases hentry : fs.entryAt? (base ++ [name]) with
    | none => exact ⟨[name], hstart, hentry⟩
    | some entry =>
      rw [hentry] at h
      cases entry with
      | directory =>
        obtain ⟨init, hinit, hnone⟩ := ih hrest h
        refine ⟨name :: init, List.cons_prefix_cons.mpr ⟨rfl, hinit⟩, ?_⟩
        rw [List.append_assoc] at hnone
        exact hnone
      | file inode => cases rest <;> cases h
      | symlink target =>
        have hlink : IsLink fs (base ++ [name]) := ⟨target, hentry⟩
        cases rest with
        | nil => cases h
        | cons next rest => exact absurd hlink (hfree [name] (by simp) hstart (by simp))

theorem walkLinks_eq (fs : LinkedFiles) (follow : Bool) (links : ℕ) :
    ∃ jump, fs.walkLinks follow links = fs.walk follow jump := by
  cases links with
  | zero => exact ⟨_, rfl⟩
  | succ links => exact ⟨_, rfl⟩

theorem find_plain (hfree : LinkFree fs (way base names))
    (h : fs.find false (.ofNames base names) = .ok loc) : loc = base ++ names := by
  obtain ⟨jump, hjump⟩ := walkLinks_eq fs false LinkedFiles.maxLinks
  have hwalk : fs.walk false jump base (names.map .normal) = .ok loc := by
    rw [← hjump]
    exact h
  refine walk_plain (fun init hne hprefix hproper => hfree _ ⟨init, hne, hprefix, ?_, rfl⟩) hwalk
  exact hproper.resolve_right (by decide)

theorem find_follow_plain (hfree : LinkFree fs (wholeWay base names))
    (h : fs.find true (.ofNames base names) = .ok loc) : loc = base ++ names := by
  obtain ⟨jump, hjump⟩ := walkLinks_eq fs true LinkedFiles.maxLinks
  have hwalk : fs.walk true jump base (names.map .normal) = .ok loc := by
    rw [← hjump]
    exact h
  exact walk_plain (fun init hne hprefix _ => hfree _ ⟨init, hne, hprefix, rfl⟩) hwalk

theorem none_of_notFound (hfree : LinkFree fs (way base names)) (hrooted : Rooted fs)
    (h : fs.find false (.ofNames base names) = .error .notFound) :
    fs.entryAt? (base ++ names) = none := by
  obtain ⟨jump, hjump⟩ := walkLinks_eq fs false LinkedFiles.maxLinks
  have hwalk : fs.walk false jump base (names.map .normal) = .error .notFound := by
    rw [← hjump]
    exact h
  have hmissing := walk_notFound
    (fun init hne hprefix hproper => hfree _ ⟨init, hne, hprefix, hproper, rfl⟩) hwalk
  obtain ⟨init, ⟨rest, rfl⟩, hnone⟩ := hmissing
  rw [← List.append_assoc]
  exact hrooted.none_below hnone rest

end Find

theorem vacant_ok {fs : LinkedFiles} {loc : Location} :
    vacant fs loc = .ok () ↔ Vacant fs loc := by
  unfold vacant Vacant
  cases hentry : fs.entryAt? loc with
  | some entry => simp
  | none => by_cases h : loc ≠ [] ∧ fs.entryAt? loc.dropLast = some .directory <;> simp [h]

/-! ## Single changes -/

section Single
variable {A : Limits} {faults : Faults} {k k' : Kernel} {base : Location} {names : List Name}

theorem makes_mkdir (hfree : LinkFree k.files (way base names)) (hdirs : base ++ names ∈ A.dirs) :
    Makes (Within A) (mkdir faults (.ofNames base names)) k := by
  apply makes_perform
  intro effect hcall
  obtain ⟨loc, hfind, h1⟩ := Except.bind_eq_ok.mp hcall
  obtain ⟨_, hvacant, h2⟩ := Except.bind_eq_ok.mp h1
  obtain rfl := find_plain hfree hfind
  obtain rfl := Except.ok.inj h2
  exact ⟨hdirs, vacant_ok.mp hvacant⟩

theorem makes_symlink {target : List Component} (hfree : LinkFree k.files (way base names))
    (hlinks : base ++ names ∈ A.links) :
    Makes (Within A) (symlink faults target (.ofNames base names)) k := by
  apply makes_perform
  intro effect hcall
  obtain ⟨loc, hfind, h1⟩ := Except.bind_eq_ok.mp hcall
  obtain ⟨_, hvacant, h2⟩ := Except.bind_eq_ok.mp h1
  obtain rfl := find_plain hfree hfind
  obtain rfl := Except.ok.inj h2
  exact ⟨hlinks, vacant_ok.mp hvacant⟩

theorem makes_hardLink {source : Location} (hfree : LinkFree k.files (way base names))
    (hfiles : base ++ names ∈ A.files) :
    Makes (Within A) (hardLink faults source (.ofNames base names)) k := by
  apply makes_perform
  intro effect hcall
  obtain ⟨loc, hfind, h1⟩ := Except.bind_eq_ok.mp hcall
  obtain ⟨_, hvacant, h2⟩ := Except.bind_eq_ok.mp h1
  obtain rfl := find_plain hfree hfind
  split at h2
  · next inode hsource =>
    obtain rfl := Except.ok.inj h2
    exact ⟨hfiles, vacant_ok.mp hvacant, inode, hsource⟩
  · cases h2

/-- What is not a directory has nothing below it. -/
theorem Rooted.no_child {fs : LinkedFiles} (h : Rooted fs) {loc : Location}
    (hloc : fs.entryAt? loc ≠ some .directory) (name : Name) : fs.entryAt? (loc ++ [name]) = none :=
  h.below hloc name []

theorem makes_unlinkAt {loc : Location} (hrooted : Rooted k.files) (hremoved : loc ∈ A.removed) :
    Makes (Within A) (unlinkAt faults loc) k := by
  apply makes_perform
  intro effect hcall
  split at hcall
  · cases hcall
  · next entry hnot hentry =>
    obtain rfl := Except.ok.inj hcall
    refine ⟨hremoved, hrooted.no_child ?_⟩
    rw [hentry]
    exact fun heq => hnot (Option.some.inj heq)
  · cases hcall

theorem makes_unlink (hfree : LinkFree k.files (way base names)) (hrooted : Rooted k.files)
    (hremoved : base ++ names ∈ A.removed) :
    Makes (Within A) (unlink faults (.ofNames base names)) k := by
  apply makes_perform
  intro effect hcall
  obtain ⟨loc, hfind, h1⟩ := Except.bind_eq_ok.mp hcall
  obtain rfl := find_plain hfree hfind
  split at h1
  · cases h1
  · next entry hnot hentry =>
    obtain rfl := Except.ok.inj h1
    refine ⟨hremoved, hrooted.no_child ?_⟩
    rw [hentry]
    exact fun heq => hnot (Option.some.inj heq)
  · cases h1

theorem makes_rmdirAt {loc : Location} (hremoved : loc ∈ A.removed) :
    Makes (Within A) (rmdirAt faults loc) k := by
  apply makes_perform
  intro effect hcall
  split at hcall
  · split_ifs at hcall with hempty
    obtain rfl := Except.ok.inj hcall
    refine ⟨hremoved, fun name => ?_⟩
    by_contra hchild
    have hmem := (LinkedFiles.mem_readDir _).mpr hchild
    rw [hempty] at hmem
    cases hmem
  · cases hcall
  · cases hcall

theorem entryAt?_of_unlinkAt {loc : Location} (h : unlinkAt faults loc k = .ok () k') :
    k'.files.entryAt? loc = none := by
  obtain ⟨effect, hcall, hfiles, -⟩ := perform_eq_ok h
  split at hcall
  · cases hcall
  · obtain rfl := Except.ok.inj hcall
    rw [hfiles]
    exact (LinkedFiles.entryAt?_unset _ _ _).trans (if_pos rfl)
  · cases hcall

theorem entryAt?_of_rmdirAt {loc : Location} (h : rmdirAt faults loc k = .ok () k') :
    k'.files.entryAt? loc = none := by
  obtain ⟨effect, hcall, hfiles, -⟩ := perform_eq_ok h
  split at hcall
  · split_ifs at hcall
    obtain rfl := Except.ok.inj hcall
    rw [hfiles]
    exact (LinkedFiles.entryAt?_unset _ _ _).trans (if_pos rfl)
  · cases hcall
  · cases hcall

theorem entryAt?_of_unlink (hfree : LinkFree k.files (way base names))
    (h : unlink faults (.ofNames base names) k = .ok () k') :
    k'.files.entryAt? (base ++ names) = none := by
  obtain ⟨effect, hcall, hfiles, -⟩ := perform_eq_ok h
  obtain ⟨loc, hfind, h1⟩ := Except.bind_eq_ok.mp hcall
  obtain rfl := find_plain hfree hfind
  split at h1
  · cases h1
  · obtain rfl := Except.ok.inj h1
    rw [hfiles]
    exact (LinkedFiles.entryAt?_unset _ _ _).trans (if_pos rfl)
  · cases h1

end Single

/-! ## Directories -/

def dirsOnly (dirs : Set Location) : Limits := ⟨dirs, ∅, ∅, ∅⟩

def removesBelow (loc : Location) : Limits := ⟨∅, ∅, ∅, below loc⟩

theorem makes_unless {ε : Type} {Q : LinkedFiles → Effect → Prop} {f : LinkedFiles → Bool} {e : ε}
    {k : Kernel} :
    Makes Q (do if ← read f then pure () else throw e : EStateM ε Kernel Unit) k := by
  refine makes_bind (makes_read _) fun b k₁ _ => ?_
  split_ifs
  · exact makes_pure ()
  · exact makes_throw e

theorem makes_createDirs {faults : Faults} {base : Location} {names : List Name}
    {k : Kernel} {dirs : Set Location} (hfree : LinkFree k.files (way base names))
    (hdirs : wholeWay base names ⊆ dirs) :
    Makes (Within (dirsOnly dirs)) (createDirs faults base (names.map .normal).reverse) k := by
  induction names using List.reverseRecOn generalizing k with
  | nil => exact makes_pure ()
  | append_singleton init name ih =>
    have hparts : ((init ++ [name]).map Component.normal).reverse =
        .normal name :: (init.map .normal).reverse := by
      rw [List.map_append, List.reverse_append]
      rfl
    have hpath : (⟨base, (Component.normal name :: (init.map .normal).reverse).reverse⟩ : Path) =
        .ofNames base (init ++ [name]) := by
      rw [← hparts, List.reverse_reverse]
      rfl
    have hmem : base ++ (init ++ [name]) ∈ (dirsOnly dirs).dirs :=
      hdirs ⟨init ++ [name], by simp, List.prefix_rfl, rfl⟩
    have hup : LinkFree k.files (way base init) :=
      hfree.mono (wholeWay_eq_way base init name ▸ way_subset base init)
    have hupDirs : wholeWay base init ⊆ dirs :=
      (wholeWay_mono (List.prefix_append _ _)).trans hdirs
    have hkeeps : ∀ fs effect, LinkFree fs (way base (init ++ [name])) →
        Within (dirsOnly dirs) fs effect → LinkFree (effect.apply fs) (way base (init ++ [name])) :=
      fun fs effect hbefore hwithin => linkFree_of_within hbefore hwithin fun _ hnone => hnone.elim
    rw [hparts]
    unfold createDirs
    dsimp only
    rw [hpath]
    refine makes_bind (makes_attempt (makes_mkdir hfree hmem)) fun result k₁ hresult => ?_
    cases result with
    | ok u => exact makes_pure ()
    | error e =>
      have hfiles : k₁.files = k.files := (perform_eq_error (attempt_eq_error.mp hresult)).1
      cases e with
      | notFound =>
        have hmade := ih (k := k₁) (hfiles ▸ hup) hupDirs
        refine makes_bind hmade fun _ k₂ hk₂ => ?_
        have hfree₂ := hmade.inv_ok hk₂ hkeeps (hfiles ▸ hfree)
        refine makes_bind (makes_attempt (makes_mkdir hfree₂ hmem)) fun again k₃ _ => ?_
        cases again with
        | ok u => exact makes_pure ()
        | error e => exact makes_unless
      | _ => exact makes_unless

theorem makes_createDirAll {faults : Faults} {base : Location} {names : List Name} {k : Kernel}
    {dirs : Set Location} (hfree : LinkFree k.files (way base names))
    (hdirs : wholeWay base names ⊆ dirs) :
    Makes (Within (dirsOnly dirs)) (createDirAll faults (.ofNames base names)) k :=
  makes_createDirs hfree hdirs

section Remove
variable {faults : Faults} {k k' : Kernel}

theorem rooted_kept {A : Limits} {ε α : Type} {x : EStateM ε Kernel α} {a : α}
    (h : Makes (Within A) x k) (hx : x k = .ok a k') (hrooted : Rooted k.files) : Rooted k'.files :=
  h.inv_ok hx (fun _ _ hbefore hwithin => rooted_of_within hbefore hwithin) hrooted

theorem makes_removeTree {depth : ℕ} {loc : Location} (hrooted : Rooted k.files) :
    Makes (Within (removesBelow loc)) (removeTree faults depth loc) k := by
  induction depth generalizing loc k with
  | zero => exact makes_throw _
  | succ depth ih =>
    unfold removeTree
    refine makes_bind (makes_read _) fun names k₁ hnames => ?_
    obtain ⟨-, rfl⟩ := read_eq_ok.mp hnames
    refine makes_bind ?_ fun _ k₂ hk₂ => makes_rmdirAt List.prefix_rfl
    apply makes_forM (J := fun _ fs => Rooted fs) hrooted
    intro name rest k hrooted
    have hbelow : below (loc ++ [name]) ⊆ below loc :=
      fun _ hloc => (List.prefix_append _ _).trans hloc
    have hkeeps {x : Syscall Unit} (hmakes : Makes (Within (removesBelow loc)) x k) :
        Makes (Within (removesBelow loc)) x k ∧ ∀ k', x k = .ok () k' → Rooted k'.files :=
      ⟨hmakes, fun k' hk' => rooted_kept hmakes hk' hrooted⟩
    apply hkeeps
    refine makes_bind (makes_read _) fun entry k₂ hentry => ?_
    obtain ⟨-, rfl⟩ := read_eq_ok.mp hentry
    split
    · exact (ih hrooted).mono (Within.mono ⟨le_rfl, le_rfl, le_rfl, hbelow⟩)
    · exact makes_unlinkAt hrooted (List.prefix_append _ _)

theorem entryAt?_of_removeTree {depth : ℕ} {loc : Location}
    (h : removeTree faults depth loc k = .ok () k') : k'.files.entryAt? loc = none := by
  cases depth with
  | zero => cases h
  | succ depth =>
    obtain ⟨names, k₁, -, h1⟩ := EStateM.bind_eq_ok.mp h
    obtain ⟨_, k₂, -, h2⟩ := EStateM.bind_eq_ok.mp h1
    exact entryAt?_of_rmdirAt h2

theorem makes_removeDirAll {base : Location} {names : List Name} (hrooted : Rooted k.files)
    (hfree : LinkFree k.files (way base names)) :
    Makes (Within (removesBelow (base ++ names))) (removeDirAll faults (.ofNames base names)) k := by
  unfold removeDirAll
  refine makes_bind (makes_readOk _) fun loc k₁ hloc => ?_
  obtain ⟨hfind, rfl⟩ := readOk_eq_ok.mp hloc
  obtain rfl := find_plain hfree hfind
  refine makes_bind (makes_read _) fun entry k₂ hentry => ?_
  obtain ⟨-, rfl⟩ := read_eq_ok.mp hentry
  split
  · exact makes_unlinkAt hrooted List.prefix_rfl
  · refine makes_bind (makes_read _) fun depth k₃ hdepth => ?_
    obtain ⟨-, rfl⟩ := read_eq_ok.mp hdepth
    exact makes_removeTree hrooted
  · exact makes_throw _
  · exact makes_throw _

theorem entryAt?_of_removeDirAll {base : Location} {names : List Name}
    (hfree : LinkFree k.files (way base names))
    (h : removeDirAll faults (.ofNames base names) k = .ok () k') :
    k'.files.entryAt? (base ++ names) = none := by
  obtain ⟨loc, k₁, hloc, h1⟩ := EStateM.bind_eq_ok.mp h
  obtain ⟨hfind, rfl⟩ := readOk_eq_ok.mp hloc
  obtain rfl := find_plain hfree hfind
  obtain ⟨entry, k₂, hentry, h2⟩ := EStateM.bind_eq_ok.mp h1
  obtain ⟨-, rfl⟩ := read_eq_ok.mp hentry
  split at h2
  · exact entryAt?_of_unlinkAt h2
  · obtain ⟨depth, k₃, hdepth, h3⟩ := EStateM.bind_eq_ok.mp h2
    exact entryAt?_of_removeTree h3
  · cases h2
  · cases h2

end Remove

/-! ## Data -/

def filesOnly (files : Set Location) : Limits := ⟨∅, files, ∅, ∅⟩

section Data
variable {faults : Faults} {k k' : Kernel} {base : Location} {names : List Name}

/-- A file that is in one place only. -/
def Private (fs : LinkedFiles) (loc : Location) (inode : ℕ) : Prop :=
  fs.entryAt? loc = some (.file inode) ∧ Alone fs loc inode

theorem makes_writeBytes {loc : Location} {inode : ℕ} {bytes : List UInt8}
    (hprivate : Private k.files loc inode) :
    Makes (Within (filesOnly {loc})) (writeBytes faults loc inode bytes) k := by
  apply makes_forM (J := fun _ fs => Private fs loc inode) hprivate
  intro n rest k hprivate
  refine ⟨makes_perform ?_, ?_⟩
  · intro effect hcall
    obtain rfl := Except.ok.inj hcall
    exact ⟨rfl, hprivate⟩
  · intro k' hk'
    obtain ⟨effect, hcall, hfiles, -⟩ := perform_eq_ok hk'
    obtain rfl := Except.ok.inj hcall
    rw [hfiles]
    exact hprivate

/-- A path to no file is the place of a new one, or the call fails. -/
theorem openTruncated_new (hfree : LinkFree k.files (wholeWay base names))
    (hfile : ¬IsFile k.files (base ++ names)) :
    Makes (Within (filesOnly {base ++ names})) (openTruncated faults (.ofNames base names)) k ∧
      ∀ k', openTruncated faults (.ofNames base names) k = .ok () k' →
        LinkFree k'.files (wholeWay base names) ∧
          ∃ inode, Private k'.files (base ++ names) inode := by
  obtain ⟨call, hopen, hcall⟩ : ∃ call, openTruncated faults (.ofNames base names) =
      perform faults call ∧ ∀ effect, call k.files = .ok effect →
        effect = .createFile (base ++ names) ∧ Vacant k.files (base ++ names) := by
    refine ⟨_, rfl, ?_⟩
    intro effect heffect
    obtain ⟨loc, hfind, h1⟩ := Except.bind_eq_ok.mp heffect
    obtain rfl := find_follow_plain hfree hfind
    split at h1
    · next inode hentry => exact absurd ⟨inode, hentry⟩ hfile
    · cases h1
    · obtain ⟨_, hvacant, h2⟩ := Except.bind_eq_ok.mp h1
      exact ⟨(Except.ok.inj h2).symm, vacant_ok.mp hvacant⟩
  rw [hopen]
  have hmakes : Makes (Within (filesOnly {base ++ names})) (perform faults call) k := by
    apply makes_perform
    intro effect heffect
    obtain ⟨rfl, hvacant⟩ := hcall effect heffect
    exact ⟨rfl, hvacant⟩
  refine ⟨hmakes, fun k' hk' => ⟨?_, ?_⟩⟩
  · exact hmakes.inv_ok hk' (fun fs effect hbefore hwithin =>
      linkFree_of_within hbefore hwithin fun _ hnone => hnone.elim) hfree
  · obtain ⟨effect, heffect, hfiles, -⟩ := perform_eq_ok hk'
    obtain ⟨rfl, -⟩ := hcall effect heffect
    have hentry : ∀ loc, k'.files.entryAt? loc =
        if base ++ names = loc then some (.file k.files.freshInode) else k.files.entryAt? loc := by
      intro loc
      rw [hfiles]
      exact LinkedFiles.entryAt?_set _ _ _ _
    refine ⟨k.files.freshInode, ?_, fun loc hloc => ?_⟩
    · rw [hentry, if_pos rfl]
    · rw [hentry] at hloc
      split_ifs at hloc with heq
      · exact heq.symm
      · exact absurd hloc (k.files.entryAt?_ne_freshInode loc)

theorem makes_writeFile {bytes : List UInt8} (hfree : LinkFree k.files (wholeWay base names))
    (hfile : ¬IsFile k.files (base ++ names)) :
    Makes (Within (filesOnly {base ++ names})) (writeFile faults (.ofNames base names) bytes) k := by
  obtain ⟨hopen, hopened⟩ := @openTruncated_new faults k base names hfree hfile
  refine makes_bind hopen fun _ k₁ hk₁ => ?_
  obtain ⟨hfree₁, inode, hprivate⟩ := hopened k₁ hk₁
  refine makes_bind (makes_readOk _) fun opened k₂ hk₂ => ?_
  obtain ⟨hfileAt, rfl⟩ := readOk_eq_ok.mp hk₂
  obtain ⟨loc, hfind, h1⟩ := Except.bind_eq_ok.mp hfileAt
  obtain rfl := find_follow_plain hfree₁ hfind
  rw [hprivate.1] at h1
  obtain rfl := Except.ok.inj h1
  exact makes_writeBytes hprivate

theorem makes_copyFile {source : Location} (hfree : LinkFree k.files (wholeWay base names))
    (hfile : ¬IsFile k.files (base ++ names)) :
    Makes (Within (filesOnly {base ++ names})) (copyFile faults source (.ofNames base names)) k := by
  unfold copyFile
  refine makes_bind (makes_read _) fun entry k₁ hentry => ?_
  obtain ⟨-, rfl⟩ := read_eq_ok.mp hentry
  split
  · refine makes_bind (makes_read _) fun bytes k₂ hbytes => ?_
    obtain ⟨-, rfl⟩ := read_eq_ok.mp hbytes
    exact makes_writeFile hfree hfile
  · exact makes_throw _

end Data


end Unix
