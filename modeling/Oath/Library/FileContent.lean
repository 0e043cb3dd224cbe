import Oath.Library.CallRules

/-! What places hold: directories, files with their data, and symbolic links. What a run keeps of it
outside the places at which it may change something, and what calls that succeed leave. -/

namespace Unix

inductive Content
  | directory
  | file (bytes : List UInt8)
  | symlink (target : List Component)
deriving DecidableEq, Repr

def Entry.content (data : ℕ → List UInt8) : Entry → Content
  | .directory => .directory
  | .file inode => .file (data inode)
  | .symlink target => .symlink target

def LinkedFiles.content? (fs : LinkedFiles) (loc : Location) : Option Content :=
  (fs.entryAt? loc).map (Entry.content fs.data)

section Content
variable {fs fs' : LinkedFiles} {loc : Location} {A : Limits} {effect : Effect}

theorem content?_eq_none : fs.content? loc = none ↔ fs.entryAt? loc = none :=
  Option.map_eq_none_iff

theorem content?_eq_directory :
    fs.content? loc = some .directory ↔ fs.entryAt? loc = some .directory := by
  unfold LinkedFiles.content?
  cases fs.entryAt? loc with
  | none => simp
  | some entry => cases entry <;> simp [Entry.content]

theorem content?_eq_symlink {target : List Component} :
    fs.content? loc = some (.symlink target) ↔ fs.entryAt? loc = some (.symlink target) := by
  unfold LinkedFiles.content?
  cases fs.entryAt? loc with
  | none => simp
  | some entry => cases entry <;> simp [Entry.content]

theorem content?_of_file {inode : ℕ} (h : fs.entryAt? loc = some (.file inode)) :
    fs.content? loc = some (.file (fs.data inode)) := by
  unfold LinkedFiles.content?
  rw [h]
  rfl

theorem content?_eq_file {bytes : List UInt8} : fs.content? loc = some (.file bytes) ↔
    ∃ inode, fs.entryAt? loc = some (.file inode) ∧ fs.data inode = bytes := by
  unfold LinkedFiles.content?
  cases fs.entryAt? loc with
  | none => simp
  | some entry => cases entry <;> simp [Entry.content]

theorem content?_congr (hentry : fs'.entryAt? loc = fs.entryAt? loc)
    (hdata : ∀ inode, fs.entryAt? loc = some (.file inode) → fs'.data inode = fs.data inode) :
    fs'.content? loc = fs.content? loc := by
  unfold LinkedFiles.content?
  rw [hentry]
  cases h : fs.entryAt? loc with
  | none => rfl
  | some entry =>
    cases entry with
    | directory => rfl
    | symlink target => rfl
    | file inode => exact congrArg (fun bytes => some (Content.file bytes)) (hdata inode h)

/-- The data of a file change only under a name of it at which files may be written. -/
theorem Within.data_apply (h : Within A fs effect) (hloc : loc ∉ A.files) {inode : ℕ}
    (hinode : fs.entryAt? loc = some (.file inode)) :
    (effect.apply fs).data inode = fs.data inode := by
  cases effect with
  | makeDir place => rfl
  | createFile place =>
    have hne : inode ≠ fs.freshInode := by
      rintro rfl
      exact fs.entryAt?_ne_freshInode loc hinode
    exact Function.update_of_ne hne _ _
  | write place written bytes =>
    obtain ⟨hplace, hentry, halone⟩ := h
    have hne : inode ≠ written := by
      rintro rfl
      exact hloc (halone loc hinode ▸ hplace)
    exact Function.update_of_ne hne _ _
  | hardLink source place =>
    obtain ⟨-, -, linked, hsource⟩ := h
    rw [apply_hardLink hsource]
    rfl
  | symlink place target => rfl
  | remove place => rfl
  | rename source dest => exact h.elim

/-- Where nothing is written or removed, what is held stays, or a directory or a link is new. -/
theorem Within.content?_apply (h : Within A fs effect) (hfiles : loc ∉ A.files)
    (hremoved : loc ∉ A.removed) :
    (effect.apply fs).content? loc = fs.content? loc ∨
      (fs.content? loc = none ∧
        ((loc ∈ A.dirs ∧ (effect.apply fs).content? loc = some .directory) ∨
          loc ∈ A.links ∧ ∃ target, (effect.apply fs).content? loc = some (.symlink target))) := by
  rcases h.entryAt?_apply loc with hsame | ⟨hnone, -, hnew⟩ | ⟨-, hmem, -⟩
  · exact Or.inl (content?_congr hsame fun _ hinode => h.data_apply hfiles hinode)
  · refine Or.inr ⟨content?_eq_none.mpr hnone, ?_⟩
    rcases hnew with ⟨hmem, hdir⟩ | ⟨hmem, -⟩ | ⟨hmem, target, hlink⟩
    · exact Or.inl ⟨hmem, content?_eq_directory.mpr hdir⟩
    · exact absurd hmem hfiles
    · exact Or.inr ⟨hmem, target, content?_eq_symlink.mpr hlink⟩
  · exact absurd hmem hremoved

theorem Within.content?_outside (h : Within A fs effect) (hloc : loc ∉ A.all) :
    (effect.apply fs).content? loc = fs.content? loc := by
  have hfiles : loc ∉ A.files := fun hmem => hloc (Or.inl (Or.inl (Or.inr hmem)))
  have hremoved : loc ∉ A.removed := fun hmem => hloc (Or.inr hmem)
  rcases h.content?_apply hfiles hremoved with hsame | ⟨-, ⟨hmem, -⟩ | ⟨hmem, -⟩⟩
  · exact hsame
  · exact absurd (Or.inl (Or.inl (Or.inl hmem))) hloc
  · exact absurd (Or.inl (Or.inr hmem)) hloc

/-- What is there stays where nothing is written or removed. -/
theorem Within.content?_kept (h : Within A fs effect) (hfiles : loc ∉ A.files)
    (hremoved : loc ∉ A.removed) {content : Content} (hsome : fs.content? loc = some content) :
    (effect.apply fs).content? loc = some content := by
  rcases h.content?_apply hfiles hremoved with hsame | ⟨hnone, -⟩
  · rw [hsame, hsome]
  · rw [hsome] at hnone
    cases hnone

theorem Makes.content?_kept {ε α : Type} {x : EStateM ε Kernel α} {a : α} {k k' : Kernel}
    (h : Makes (Within A) x k) (hx : x k = .ok a k') (hfiles : loc ∉ A.files)
    (hremoved : loc ∉ A.removed) {content : Content}
    (hsome : k.files.content? loc = some content) : k'.files.content? loc = some content :=
  h.inv_ok hx (I := fun fs => fs.content? loc = some content)
    (fun _ _ hbefore hwithin => hwithin.content?_kept hfiles hremoved hbefore) hsome

/-- What a run cannot touch holds afterwards what it held before. -/
theorem Makes.content?_eq {ε α : Type} {x : EStateM ε Kernel α} {a : α} {k k' : Kernel}
    (h : Makes (Within A) x k) (hx : x k = .ok a k') (hloc : loc ∉ A.all) :
    k'.files.content? loc = k.files.content? loc :=
  h.inv_ok hx (I := fun fs => fs.content? loc = k.files.content? loc)
    (fun _ _ hsame hwithin => (hwithin.content?_outside hloc).trans hsame) rfl

end Content

/-! ## Calls that succeed -/

/-- A computation on one item after another that succeeds, with an invariant that may speak of the
items that are still to come. -/
theorem forM_inv {ε β : Type} {f : β → EStateM ε Kernel Unit} {J : List β → Kernel → Prop}
    {items : List β} {k k' : Kernel} (hJ : J items k)
    (hstep : ∀ item rest k k', J (item :: rest) k → f item k = .ok () k' → J rest k')
    (h : items.forM f k = .ok () k') : J [] k' := by
  induction items generalizing k with
  | nil =>
    obtain ⟨-, rfl⟩ := EStateM.pure_eq_ok.mp h
    exact hJ
  | cons item rest ih =>
    obtain ⟨_, k₁, hitem, hrest⟩ := EStateM.bind_eq_ok.mp h
    exact ih (hstep item rest k k₁ hJ hitem) hrest

section Calls
variable {faults : Faults} {k k' : Kernel} {base : Location} {names : List Name}

theorem entryAt?_of_mkdir (hfree : LinkFree k.files (way base names))
    (h : mkdir faults (.ofNames base names) k = .ok () k') :
    k'.files.entryAt? (base ++ names) = some .directory := by
  obtain ⟨effect, hcall, hfiles, -⟩ := perform_eq_ok h
  obtain ⟨loc, hfind, h1⟩ := Except.bind_eq_ok.mp hcall
  obtain ⟨_, -, h2⟩ := Except.bind_eq_ok.mp h1
  obtain rfl := find_plain hfree hfind
  obtain rfl := Except.ok.inj h2
  rw [hfiles]
  exact (LinkedFiles.entryAt?_set _ _ _ _).trans (if_pos rfl)

theorem entryAt?_of_symlink {target : List Component} (hfree : LinkFree k.files (way base names))
    (h : symlink faults target (.ofNames base names) k = .ok () k') :
    k'.files.entryAt? (base ++ names) = some (.symlink target) := by
  obtain ⟨effect, hcall, hfiles, -⟩ := perform_eq_ok h
  obtain ⟨loc, hfind, h1⟩ := Except.bind_eq_ok.mp hcall
  obtain ⟨_, -, h2⟩ := Except.bind_eq_ok.mp h1
  obtain rfl := find_plain hfree hfind
  obtain rfl := Except.ok.inj h2
  rw [hfiles]
  exact (LinkedFiles.entryAt?_set _ _ _ _).trans (if_pos rfl)

theorem entryAt?_of_isDir {fs : LinkedFiles} (hfree : LinkFree fs (wholeWay base names))
    (h : fs.isDir (.ofNames base names) = true) :
    fs.entryAt? (base ++ names) = some .directory := by
  unfold LinkedFiles.isDir LinkedFiles.metadata at h
  cases hfind : fs.find true (.ofNames base names) with
  | error e =>
    rw [hfind] at h
    cases h
  | ok loc =>
    have hloc := find_follow_plain hfree hfind
    rw [hfind, hloc] at h
    cases hentry : fs.entryAt? (base ++ names) with
    | none =>
      simp only [bind, Except.bind, hentry] at h
      cases h
    | some entry =>
      simp only [bind, Except.bind, hentry] at h
      cases entry with
      | directory => rfl
      | file inode => cases h
      | symlink target => cases h

/-- The last directory of a path is there when all of them have been made. -/
theorem entryAt?_of_createDirAll (hfree : LinkFree k.files (wholeWay base names))
    (hne : names ≠ []) (h : createDirAll faults (.ofNames base names) k = .ok () k') :
    k'.files.entryAt? (base ++ names) = some .directory := by
  obtain ⟨init, name, rfl⟩ := (List.eq_nil_or_concat' names).resolve_left hne
  have hparts : ((init ++ [name]).map Component.normal).reverse =
      .normal name :: (init.map .normal).reverse := by
    rw [List.map_append, List.reverse_append]
    rfl
  have hpath : (⟨base, (Component.normal name :: (init.map .normal).reverse).reverse⟩ : Path) =
      .ofNames base (init ++ [name]) := by
    rw [← hparts, List.reverse_reverse]
    rfl
  have hway := hfree.mono (way_subset base (init ++ [name]))
  have hkeeps : ∀ fs effect, LinkFree fs (wholeWay base (init ++ [name])) →
      Within (dirsOnly (wholeWay base init)) fs effect →
        LinkFree (effect.apply fs) (wholeWay base (init ++ [name])) :=
    fun fs effect hbefore hwithin => linkFree_of_within hbefore hwithin fun _ hnone => hnone.elim
  unfold createDirAll createDirs at h
  dsimp only [Path.ofNames] at h
  rw [hparts] at h
  dsimp only at h
  rw [hpath] at h
  -- the directory was there already, or the call that makes it has succeeded
  have hthere : ∀ (k : Kernel) (e : FileError), LinkFree k.files (wholeWay base (init ++ [name])) →
      (do if ← read (·.isDir (.ofNames base (init ++ [name]))) then pure ()
          else throw e : Syscall Unit) k = .ok () k' →
        k'.files.entryAt? (base ++ (init ++ [name])) = some .directory := by
    intro k e hfree hread
    obtain ⟨present, k₁, hk₁, hrest⟩ := EStateM.bind_eq_ok.mp hread
    obtain ⟨rfl, rfl⟩ := read_eq_ok.mp hk₁
    split_ifs at hrest with hdir
    · obtain ⟨-, rfl⟩ := EStateM.pure_eq_ok.mp hrest
      exact entryAt?_of_isDir hfree hdir
    · exact absurd hrest EStateM.throw_ne_ok
  obtain ⟨result, k₁, hresult, h1⟩ := EStateM.bind_eq_ok.mp h
  cases result with
  | ok u =>
    obtain ⟨-, rfl⟩ := EStateM.pure_eq_ok.mp h1
    exact entryAt?_of_mkdir hway (attempt_eq_ok.mp hresult)
  | error e =>
    have hfiles : k₁.files = k.files := (perform_eq_error (attempt_eq_error.mp hresult)).1
    cases e with
    | notFound =>
      obtain ⟨_, k₂, hup, h2⟩ := EStateM.bind_eq_ok.mp h1
      have hmade : Makes (Within (dirsOnly (wholeWay base init)))
          (createDirs faults base (init.map .normal).reverse) k₁ := by
        apply makes_createDirs _ le_rfl
        rw [hfiles]
        exact hfree.mono ((way_subset base init).trans (wholeWay_mono (List.prefix_append _ _)))
      have hfree₂ := hmade.inv_ok hup hkeeps (hfiles ▸ hfree)
      obtain ⟨again, k₃, hagain, h3⟩ := EStateM.bind_eq_ok.mp h2
      cases again with
      | ok u =>
        obtain ⟨-, rfl⟩ := EStateM.pure_eq_ok.mp h3
        exact entryAt?_of_mkdir (hfree₂.mono (way_subset _ _)) (attempt_eq_ok.mp hagain)
      | error e =>
        have hfiles₃ : k₃.files = k₂.files := (perform_eq_error (attempt_eq_error.mp hagain)).1
        exact hthere k₃ e (hfiles₃ ▸ hfree₂) h3
    | _ => exact hthere k₁ _ (hfiles ▸ hfree) h1

/-! ## Data that are written -/

theorem data_of_writeBytes {loc : Location} {inode : ℕ} {bytes : List UInt8}
    (hdata : k.files.data inode = []) (h : writeBytes faults loc inode bytes k = .ok () k') :
    k'.files.entryAt? = k.files.entryAt? ∧ k'.files.data inode = bytes := by
  have hprefix : ∀ n, ∀ k', ((List.range n).forM fun n => perform faults fun _ =>
      .ok (.write loc inode (bytes.take (n + 1)))) k = .ok () k' →
        k'.files.entryAt? = k.files.entryAt? ∧ k'.files.data inode = bytes.take n := by
    intro n
    induction n with
    | zero =>
      intro k' hk'
      obtain ⟨-, rfl⟩ := EStateM.pure_eq_ok.mp hk'
      exact ⟨rfl, hdata⟩
    | succ n ih =>
      intro k' hk'
      have hsplit : ∀ f : ℕ → Syscall Unit, (List.range n ++ [n]).forM f =
          (do (List.range n).forM f; [n].forM f) := fun f => List.forM_append
      rw [List.range_succ, hsplit] at hk'
      obtain ⟨_, k₁, hbefore, hlast⟩ := EStateM.bind_eq_ok.mp hk'
      obtain ⟨hentries, -⟩ := ih k₁ hbefore
      obtain ⟨_, k₂, hwrite, hnil⟩ := EStateM.bind_eq_ok.mp hlast
      obtain ⟨-, rfl⟩ := EStateM.pure_eq_ok.mp hnil
      obtain ⟨effect, hcall, hfiles, -⟩ := perform_eq_ok hwrite
      obtain rfl := Except.ok.inj hcall
      rw [hfiles]
      exact ⟨hentries, Function.update_self _ _ _⟩
  have hall := hprefix bytes.length k' h
  rwa [List.take_length] at hall

theorem content?_of_writeFile {bytes : List UInt8} (hfree : LinkFree k.files (wholeWay base names))
    (hfile : ¬IsFile k.files (base ++ names))
    (h : writeFile faults (.ofNames base names) bytes k = .ok () k') :
    k'.files.content? (base ++ names) = some (.file bytes) := by
  obtain ⟨_, k₁, hopen, h1⟩ := EStateM.bind_eq_ok.mp h
  obtain ⟨hfree₁, inode, hprivate⟩ := (openTruncated_new hfree hfile).2 k₁ hopen
  obtain ⟨opened, k₂, hopened, hwrite⟩ := EStateM.bind_eq_ok.mp h1
  obtain ⟨hfileAt, rfl⟩ := readOk_eq_ok.mp hopened
  obtain ⟨loc, hfind, h2⟩ := Except.bind_eq_ok.mp hfileAt
  obtain rfl := find_follow_plain hfree₁ hfind
  rw [hprivate.1] at h2
  obtain rfl := Except.ok.inj h2
  -- the new file is empty when the data begin to arrive
  have hempty : k₂.files.data inode = [] := by
    obtain ⟨effect, hcall, hfiles, -⟩ := perform_eq_ok hopen
    obtain ⟨place, hplace, h3⟩ := Except.bind_eq_ok.mp hcall
    obtain rfl := find_follow_plain hfree hplace
    have hentry := hprivate.1
    split at h3
    · next other hother => exact absurd ⟨other, hother⟩ hfile
    · cases h3
    · obtain ⟨_, -, h4⟩ := Except.bind_eq_ok.mp h3
      obtain rfl := Except.ok.inj h4
      rw [hfiles] at hentry ⊢
      have hset : (k.files.set (base ++ names) (.file k.files.freshInode)).entryAt?
          (base ++ names) = some (.file inode) := hentry
      rw [LinkedFiles.entryAt?_set, if_pos rfl] at hset
      have heq : k.files.freshInode = inode := by
        injection Option.some.inj hset
      rw [← heq]
      exact Function.update_self _ _ _
  obtain ⟨hentries, hdata⟩ := data_of_writeBytes hempty hwrite
  have hentry : k'.files.entryAt? (base ++ names) = some (.file inode) := by
    rw [hentries]
    exact hprivate.1
  rw [content?_of_file hentry, hdata]

theorem content?_of_copyFile {source : Location} (hfree : LinkFree k.files (wholeWay base names))
    (hfile : ¬IsFile k.files (base ++ names))
    (h : copyFile faults source (.ofNames base names) k = .ok () k') :
    k'.files.content? (base ++ names) = k.files.content? source := by
  obtain ⟨entry, k₁, hread, h1⟩ := EStateM.bind_eq_ok.mp h
  obtain ⟨hentry, rfl⟩ := read_eq_ok.mp hread
  split at h1
  · next inode =>
    obtain ⟨bytes, k₂, hbytes, hwrite⟩ := EStateM.bind_eq_ok.mp h1
    obtain ⟨rfl, rfl⟩ := read_eq_ok.mp hbytes
    rw [content?_of_writeFile hfree hfile hwrite, content?_of_file hentry.symm]
  · exact absurd h1 EStateM.throw_ne_ok

theorem content?_of_hardLink {source : Location} (hfree : LinkFree k.files (way base names))
    (h : hardLink faults source (.ofNames base names) k = .ok () k') :
    k'.files.content? (base ++ names) = k.files.content? source := by
  obtain ⟨effect, hcall, hfiles, -⟩ := perform_eq_ok h
  obtain ⟨loc, hfind, h1⟩ := Except.bind_eq_ok.mp hcall
  obtain ⟨_, -, h2⟩ := Except.bind_eq_ok.mp h1
  obtain rfl := find_plain hfree hfind
  split at h2
  · next inode hsource =>
    obtain rfl := Except.ok.inj h2
    rw [hfiles, apply_hardLink hsource, content?_of_file hsource]
    exact content?_of_file ((LinkedFiles.entryAt?_set _ _ _ _).trans (if_pos rfl))
  · cases h2

end Calls

end Unix
