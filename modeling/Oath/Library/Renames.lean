import Oath.Library.FileContent

/-! Renames: whole trees that move, and what they leave as it is. Of a path that leads nowhere, nothing
is found or made below it. -/

namespace Unix

section Move
variable {fs : LinkedFiles} {source dest loc : Location}

theorem content?_move_dest (source dest rest : Location) :
    (fs.move source dest).content? (dest ++ rest) = fs.content? (source ++ rest) := by
  unfold LinkedFiles.content?
  rw [LinkedFiles.entryAt?_move_dest]
  rfl

theorem content?_move_of_not (hdest : ¬dest <+: loc) (hsource : ¬source <+: loc) :
    (fs.move source dest).content? loc = fs.content? loc := by
  unfold LinkedFiles.content?
  rw [LinkedFiles.entryAt?_move_of_not fs hdest, if_neg hsource]
  rfl

/-- A tree that moves to a directory outside it leaves every entry in a directory. -/
theorem rooted_move (hrooted : Rooted fs) (hdest : dest ≠ [])
    (hdir : fs.entryAt? dest.dropLast = some .directory) (houtside : ¬source <+: dest.dropLast) :
    Rooted (fs.move source dest) := by
  have hparent : ¬dest <+: dest.dropLast := by
    intro hstarts
    have hlength := hstarts.length_le
    have hpos := List.length_pos_iff.mpr hdest
    rw [List.length_dropLast] at hlength
    omega
  intro loc name hchild
  by_cases hmoved : dest <+: loc ++ [name]
  · rcases List.prefix_concat_iff.mp hmoved with heq | hloc
    · have hinit : dest.dropLast = loc := by rw [heq, List.dropLast_concat]
      rw [← hinit, LinkedFiles.entryAt?_move_of_not fs hparent, if_neg houtside]
      exact hdir
    · obtain ⟨rest, rfl⟩ := hloc
      rw [List.append_assoc, LinkedFiles.entryAt?_move_dest, ← List.append_assoc] at hchild
      rw [LinkedFiles.entryAt?_move_dest]
      exact hrooted _ name hchild
  · have hloc : ¬dest <+: loc := fun hstarts => hmoved (hstarts.trans (List.prefix_append _ _))
    rw [LinkedFiles.entryAt?_move_of_not fs hmoved] at hchild
    rw [LinkedFiles.entryAt?_move_of_not fs hloc]
    by_cases hsource : source <+: loc ++ [name]
    · rw [if_pos hsource] at hchild
      exact absurd rfl hchild
    · have hstays : ¬source <+: loc := fun hstarts =>
        hsource (hstarts.trans (List.prefix_append _ _))
      rw [if_neg hsource] at hchild
      rw [if_neg hstays]
      exact hrooted loc name hchild

end Move

/-! ## Entries of one directory -/

theorem way_singleton (base : Location) (name : Name) : way base [name] = ∅ := by
  ext loc
  refine ⟨fun hloc => ?_, fun hnone => hnone.elim⟩
  obtain ⟨init, hne, hstarts, hproper, -⟩ := hloc
  have hle := hstarts.length_le
  have hpos := List.length_pos_iff.mpr hne
  rw [List.length_singleton] at hle
  exact absurd (hstarts.eq_of_length (by rw [List.length_singleton]; omega)) hproper

theorem linkFree_singleton (fs : LinkedFiles) (base : Location) (name : Name) :
    LinkFree fs (way base [name]) := by
  rw [way_singleton]
  exact fun _ hnone => hnone.elim

section Rename
variable {faults : Faults} {k k' : Kernel} {base : Location} {a b : Name}

/-- A rename that succeeds has moved the tree, within a directory. -/
theorem rename_eq_ok (hrooted : Rooted k.files)
    (h : rename faults (.ofNames base [a]) (.ofNames base [b]) k = .ok () k') :
    k'.files = k.files.move (base ++ [a]) (base ++ [b]) ∧
      k.files.entryAt? base = some .directory := by
  obtain ⟨effect, hcall, hfiles, -⟩ := perform_eq_ok h
  obtain ⟨source, hsource, h1⟩ := Except.bind_eq_ok.mp hcall
  obtain ⟨dest, hdest, h2⟩ := Except.bind_eq_ok.mp h1
  obtain rfl := find_plain (linkFree_singleton _ _ _) hsource
  obtain rfl := find_plain (linkFree_singleton _ _ _) hdest
  have hthere : k.files.entryAt? (base ++ [a]) ≠ none := by
    intro hnone
    unfold renamed at h2
    rw [hnone] at h2
    cases h2
  have heffect : effect = .rename (base ++ [a]) (base ++ [b]) := by
    unfold renamed at h2
    split at h2
    · cases h2
    · split_ifs at h2
      exact (Except.ok.inj h2).symm
    · cases h2
    · cases h2
    · exact (Except.ok.inj h2).symm
    · split_ifs at h2
      exact (Except.ok.inj h2).symm
  rw [hfiles, heffect]
  exact ⟨rfl, hrooted base a hthere⟩

theorem rooted_rename (hrooted : Rooted k.files)
    (h : rename faults (.ofNames base [a]) (.ofNames base [b]) k = .ok () k') :
    Rooted k'.files := by
  obtain ⟨hfiles, hdir⟩ := rename_eq_ok hrooted h
  rw [hfiles]
  have hinit : (base ++ [b]).dropLast = base := List.dropLast_concat
  apply rooted_move hrooted
  · exact List.append_ne_nil_of_right_ne_nil base (List.cons_ne_nil b [])
  · rw [hinit]
    exact hdir
  · rw [hinit]
    intro hstarts
    have hlength := hstarts.length_le
    rw [List.length_append, List.length_singleton] at hlength
    omega

end Rename

/-! ## Paths that lead nowhere -/

section Beyond
variable {fs : LinkedFiles} {name : Name} {loc : Location} {parts : List Component}

/-- The walk leads to no entry. -/
def Lost (fs : LinkedFiles) (r : Except FileError Location) : Prop :=
  ∀ l, r = .ok l → fs.entryAt? l = none

/-- The walk does not even lead to a place in a directory. -/
def Nowhere (fs : LinkedFiles) (r : Except FileError Location) : Prop :=
  ∀ l, r = .ok l → fs.entryAt? l = none ∧ fs.entryAt? l.dropLast ≠ some .directory

theorem nowhere_error (e : FileError) : Nowhere fs (.error e) := by
  intro l h
  cases h

theorem walk_beyond {follow : Bool}
    {jump jump' : Location → List Component → Except FileError Location} (hrooted : Rooted fs)
    (hjump : ∀ loc parts, Lost fs (jump loc parts) →
      Nowhere fs (jump' loc (parts ++ [.normal name])))
    (hlost : Lost fs (fs.walk true jump loc parts)) :
    Nowhere fs (fs.walk follow jump' loc (parts ++ [.normal name])) := by
  induction parts generalizing loc with
  | nil =>
    have hnone : fs.entryAt? loc = none := hlost loc rfl
    have hchild := hrooted.none_below hnone [name]
    rw [List.nil_append, LinkedFiles.walk, hchild]
    intro l hl
    obtain rfl := Except.ok.inj hl
    rw [List.dropLast_concat, hnone]
    exact ⟨hchild, fun heq => by cases heq⟩
  | cons part rest ih =>
    rw [List.cons_append]
    cases part with
    | rootDir => exact ih hlost
    | curDir => exact ih hlost
    | parentDir => exact ih hlost
    | normal first =>
      have hmore : (rest ++ [Component.normal name]).isEmpty = false := by simp
      rw [LinkedFiles.walk] at hlost ⊢
      cases hentry : fs.entryAt? (loc ++ [first]) with
      | none =>
        rw [hmore]
        exact nowhere_error _
      | some entry =>
        rw [hentry] at hlost
        cases entry with
        | directory => exact ih hlost
        | file inode =>
          dsimp only
          rw [hmore]
          exact nowhere_error _
        | symlink target =>
          dsimp only at hlost ⊢
          rw [Bool.not_true, Bool.and_false] at hlost
          rw [hmore, Bool.false_and, ← List.append_assoc]
          exact hjump loc (target ++ rest) hlost

theorem walkLinks_beyond {follow : Bool} {links : ℕ} (hrooted : Rooted fs)
    (hlost : Lost fs (fs.walkLinks true links loc parts)) :
    Nowhere fs (fs.walkLinks follow links loc (parts ++ [.normal name])) := by
  induction links generalizing loc parts with
  | zero => exact walk_beyond hrooted (fun _ _ _ => nowhere_error _) hlost
  | succ links ih => exact walk_beyond hrooted (fun _ _ h => ih h) hlost

theorem lost_of_not_exists {p : Path} (h : fs.pathExists p = false) : Lost fs (fs.find true p) := by
  intro l hl
  unfold LinkedFiles.pathExists LinkedFiles.metadata at h
  rw [hl] at h
  cases hentry : fs.entryAt? l with
  | none => rfl
  | some entry =>
    simp only [bind, Except.bind, hentry] at h
    cases h

/-- What is there and is not found is a link. -/
theorem isLink_of_not_exists {base : Location} {link : Name}
    (hexists : fs.pathExists (.ofNames base [link]) = false)
    (hthere : fs.entryAt? (base ++ [link]) ≠ none) : IsLink fs (base ++ [link]) := by
  obtain ⟨jump, hjump⟩ := walkLinks_eq fs true LinkedFiles.maxLinks
  have hlost : Lost fs (fs.walk true jump base [.normal link]) := by
    rw [← hjump]
    exact lost_of_not_exists hexists
  rw [LinkedFiles.walk] at hlost
  cases hentry : fs.entryAt? (base ++ [link]) with
  | none => exact absurd hentry hthere
  | some entry =>
    rw [hentry] at hlost
    cases entry with
    | directory => exact absurd (hlost _ rfl) hthere
    | file inode => exact absurd (hlost _ rfl) hthere
    | symlink target => exact ⟨target, hentry⟩

theorem find_join_nowhere {follow : Bool} {p : Path} (hrooted : Rooted fs)
    (h : fs.pathExists p = false) : Nowhere fs (fs.find follow (p.join name)) :=
  walkLinks_beyond hrooted (lost_of_not_exists h)

end Beyond

section Calls
variable {faults : Faults} {k k' : Kernel} {p : Path} {name : Name}

theorem mkdir_nowhere (h : Nowhere k.files (k.files.find false p)) :
    mkdir faults p k ≠ .ok () k' := by
  intro hok
  obtain ⟨effect, hcall, -, -⟩ := perform_eq_ok hok
  obtain ⟨loc, hfind, h1⟩ := Except.bind_eq_ok.mp hcall
  obtain ⟨_, hvacant, -⟩ := Except.bind_eq_ok.mp h1
  exact (h loc hfind).2 (vacant_ok.mp hvacant).2.2

theorem isDir_nowhere {fs : LinkedFiles} (h : Nowhere fs (fs.find true p)) :
    fs.isDir p = false := by
  unfold LinkedFiles.isDir LinkedFiles.metadata
  cases hfind : fs.find true p with
  | error e => rfl
  | ok loc =>
    simp only [bind, Except.bind, (h loc hfind).1]

theorem isDir_of_not_exists {fs : LinkedFiles} (h : fs.pathExists p = false) :
    fs.isDir p = false := by
  unfold LinkedFiles.pathExists at h
  unfold LinkedFiles.isDir
  cases hmetadata : fs.metadata true p with
  | error e => rfl
  | ok entry =>
    rw [hmetadata] at h
    cases h

/-- What the making of a directory comes to when its call fails and nothing is there. -/
theorem unless_fails {e : FileError} {f : LinkedFiles → Bool} (h : f k.files = false) :
    (do if ← read f then pure () else throw e : Syscall Unit) k ≠ .ok () k' := by
  intro hok
  obtain ⟨present, k₁, hread, hrest⟩ := EStateM.bind_eq_ok.mp hok
  obtain ⟨rfl, rfl⟩ := read_eq_ok.mp hread
  rw [h, if_neg Bool.false_ne_true] at hrest
  exact EStateM.throw_ne_ok hrest

/-- A link that leads nowhere is in the way of the directory of its name, and of all below it. -/
theorem createDirAll_dangling {base : Location} {link : Name} (hrooted : Rooted k.files)
    (hlink : IsLink k.files (base ++ [link]))
    (hexists : k.files.pathExists (.ofNames base [link]) = false) :
    createDirAll faults ((Path.ofNames base [link]).join name) k ≠ .ok () k' := by
  have hinner : ∀ k₁ k₂ : Kernel, k₁.files = k.files →
      createDirs faults base [.normal link] k₁ ≠ .ok () k₂ := by
    intro k₁ k₂ hfiles hok
    have hmkdir : ∀ k₁ k₂ : Kernel, k₁.files = k.files →
        mkdir faults (.ofNames base [link]) k₁ ≠ .ok () k₂ := by
      intro k₁ k₂ hfiles hok
      obtain ⟨effect, hcall, -, -⟩ := perform_eq_ok hok
      obtain ⟨loc, hfind, h1⟩ := Except.bind_eq_ok.mp hcall
      obtain ⟨_, hvacant, -⟩ := Except.bind_eq_ok.mp h1
      rw [hfiles] at hfind hvacant
      obtain rfl := find_plain (linkFree_singleton _ _ _) hfind
      obtain ⟨target, htarget⟩ := hlink
      rw [(vacant_ok.mp hvacant).1] at htarget
      cases htarget
    have hno : k.files.isDir (.ofNames base [link]) = false := isDir_of_not_exists hexists
    obtain ⟨result, k₃, hresult, h1⟩ := EStateM.bind_eq_ok.mp hok
    cases result with
    | ok u => exact hmkdir k₁ k₃ hfiles (attempt_eq_ok.mp hresult)
    | error e =>
      have hfiles₃ : k₃.files = k.files :=
        (perform_eq_error (attempt_eq_error.mp hresult)).1.trans hfiles
      cases e with
      | notFound =>
        obtain ⟨_, k₄, hnil, h2⟩ := EStateM.bind_eq_ok.mp h1
        obtain ⟨-, rfl⟩ := EStateM.pure_eq_ok.mp hnil
        obtain ⟨again, k₅, hagain, h3⟩ := EStateM.bind_eq_ok.mp h2
        cases again with
        | ok u => exact hmkdir _ k₅ hfiles₃ (attempt_eq_ok.mp hagain)
        | error e =>
          have hfiles₅ := (perform_eq_error (attempt_eq_error.mp hagain)).1.trans hfiles₃
          exact unless_fails (by rw [hfiles₅]; exact hno) h3
      | _ => exact unless_fails (by rw [hfiles₃]; exact hno) h1
  intro hok
  have hnowhere : ∀ follow, Nowhere k.files
      (k.files.find follow ((Path.ofNames base [link]).join name)) :=
    fun follow => find_join_nowhere hrooted hexists
  obtain ⟨result, k₁, hresult, h1⟩ := EStateM.bind_eq_ok.mp hok
  cases result with
  | ok u => exact mkdir_nowhere (hnowhere false) (attempt_eq_ok.mp hresult)
  | error e =>
    have hfiles : k₁.files = k.files := (perform_eq_error (attempt_eq_error.mp hresult)).1
    cases e with
    | notFound =>
      obtain ⟨_, k₂, hup, -⟩ := EStateM.bind_eq_ok.mp h1
      exact hinner k₁ k₂ hfiles hup
    | _ => exact unless_fails (by rw [hfiles]; exact isDir_nowhere (hnowhere true)) h1

end Calls

end Unix
