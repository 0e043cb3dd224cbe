import Oath.Library.FileContent
import Oath.Store.LinkerRules

/-! A tree that has been hard-linked: every place of the copy holds what the source holds. -/

namespace Oath.Store
open Unix

section Copies
variable {faults : Faults} {k k' : Kernel} {base : Location} {names : List Name}
  {source : Location}

theorem content?_of_linkOrCopy (hfree : LinkFree k.files (way base names))
    (hnone : k.files.entryAt? (base ++ names) = none)
    (h : linkOrCopy faults source (.ofNames base names) k = .ok () k') :
    k'.files.content? (base ++ names) = k.files.content? source := by
  obtain ⟨result, k₁, hresult, h1⟩ := EStateM.bind_eq_ok.mp h
  cases result with
  | ok u =>
    obtain ⟨-, rfl⟩ := EStateM.pure_eq_ok.mp h1
    exact content?_of_hardLink hfree (attempt_eq_ok.mp hresult)
  | error e =>
    have hfiles : k₁.files = k.files := (perform_eq_error (attempt_eq_error.mp hresult)).1
    rw [← hfiles]
    apply content?_of_copyFile _ _ h1
    · rw [hfiles]
      exact linkFree_wholeWay hfree hnone
    · rintro ⟨inode, hinode⟩
      rw [hfiles, hnone] at hinode
      cases hinode

/-! ## What a copy can touch -/

/-- New directories on the way, and anything at the place or below it. -/
def copyLimits (base : Location) (names : List Name) : Limits :=
  ⟨near base names, below (base ++ names), ∅, ∅⟩

theorem notMem_copyLimits {loc : Location} (h : loc ∉ near base names) :
    loc ∉ (copyLimits base names).all := by
  rintro (((hdirs | hfiles) | hnone) | hnone)
  · exact h hdirs
  · exact h (Or.inr hfiles)
  · exact hnone.elim
  · exact hnone.elim

theorem near_child (name : Name) : near base (names ++ [name]) ⊆ near base names := by
  have hbelow : below (base ++ (names ++ [name])) ⊆ below (base ++ names) := by
    rw [← List.append_assoc]
    exact fun loc hloc => (List.prefix_append _ _).trans hloc
  rintro loc (⟨init, hne, hprefix, rfl⟩ | hloc)
  · rcases List.prefix_concat_iff.mp hprefix with rfl | hinit
    · exact Or.inr (hbelow List.prefix_rfl)
    · exact Or.inl ⟨init, hne, hinit, rfl⟩
  · exact Or.inr (hbelow hloc)

theorem makes_copy {depth : ℕ} (hrooted : Rooted k.files)
    (hfree : LinkFree k.files (way base names))
    (habsent : ∀ rest, k.files.entryAt? (base ++ names ++ rest) = none) :
    Makes (Within (copyLimits base names))
      (hardlinkDir faults depth source (.ofNames base names)) k := by
  apply makes_hardlinkDir (I := fun _ => True) hrooted hfree habsent
  · exact fun loc hloc => Or.inl hloc
  · exact fun _ _ _ _ => trivial
  · trivial
  · exact fun _ rest _ _ => Or.inr (List.prefix_append _ rest)
  · exact fun _ rest _ _ => List.prefix_append _ rest

theorem makes_copyEntry (hfree : LinkFree k.files (way base names))
    (hnone : k.files.entryAt? (base ++ names) = none) :
    Makes (Within (copyLimits base names)) (linkOrCopy faults source (.ofNames base names)) k := by
  refine (makes_linkOrCopy hfree hnone).mono (Within.mono ⟨Set.empty_subset _, ?_, le_rfl, le_rfl⟩)
  rintro loc rfl
  exact List.prefix_rfl

/-! ## The copy of a directory -/

/-- Some entries of a directory have been copied, and these are still to come. -/
structure Copying (k₀ : Kernel) (source base : Location) (names remaining : List Name)
    (k : Kernel) : Prop where
  left : Remaining (fun _ => True) base names remaining k.files
  kept (rest : List Name) :
    k.files.content? (source ++ rest) = k₀.files.content? (source ++ rest)
  directory : k.files.content? (base ++ names) = some .directory
  copied (name : Name) : name ∉ remaining → ∀ rest,
    k.files.content? (base ++ (names ++ [name]) ++ rest) =
      k₀.files.content? (source ++ [name] ++ rest)

theorem Copying.next {k₀ : Kernel} {name : Name} {remaining : List Name} {x : Syscall Unit}
    (hcopying : Copying k₀ source base names (name :: remaining) k)
    (hapart : ∀ rest, source ++ rest ∉ near base names)
    (hmakes : Makes (Within (copyLimits base (names ++ [name]))) x k) (hx : x k = .ok () k')
    (hcopied : ∀ rest, k'.files.content? (base ++ (names ++ [name]) ++ rest) =
      k₀.files.content? (source ++ [name] ++ rest)) :
    Copying k₀ source base names remaining k' where
  left := by
    obtain ⟨effects, -, hstate, hobey⟩ := hmakes.of_ok hx
    rw [hstate]
    refine hcopying.left.next (fun _ _ _ _ => trivial) ?_ rfl hobey
    rintro loc (hdirs | hfiles)
    · exact hdirs
    · exact Or.inr hfiles
  kept := by
    intro rest
    have hout : source ++ rest ∉ near base (names ++ [name]) := fun hmem =>
      hapart rest (near_child name hmem)
    rw [hmakes.content?_eq hx (notMem_copyLimits hout), hcopying.kept]
  directory := by
    have hfiles : base ++ names ∉ (copyLimits base (names ++ [name])).files := by
      intro hprefix
      have hlength := List.IsPrefix.length_le hprefix
      simp only [List.length_append, List.length_singleton] at hlength
      omega
    exact hmakes.content?_kept hx hfiles (Set.notMem_empty _) hcopying.directory
  copied := by
    intro other hother rest
    by_cases heq : name = other
    · exact heq ▸ hcopied rest
    · have hbefore : other ∉ name :: remaining :=
        List.not_mem_cons_of_ne_of_not_mem (Ne.symm heq) hother
      have hout : base ++ (names ++ [other]) ++ rest ∉ near base (names ++ [name]) :=
        not_near heq rest
      rw [hmakes.content?_eq hx (notMem_copyLimits hout), hcopying.copied other hbefore]

/-- Below what is no directory neither the source nor the copy has anything. -/
theorem content?_below {fs : LinkedFiles} (hrooted : Rooted fs) {loc : Location}
    (h : fs.content? loc ≠ some .directory) (name : Name) (rest : List Name) :
    fs.content? (loc ++ name :: rest) = none :=
  content?_eq_none.mpr (hrooted.below (fun hdir => h (content?_eq_directory.mpr hdir)) name rest)

theorem hardlinkDir_copies {depth : ℕ} (hrooted : Rooted k.files)
    (hfree : LinkFree k.files (way base names)) (hne : names ≠ [])
    (habsent : ∀ rest, k.files.entryAt? (base ++ names ++ rest) = none)
    (hlinks : ∀ rest target, k.files.content? (source ++ rest) ≠ some (.symlink target))
    (hapart : ∀ rest, source ++ rest ∉ near base names)
    (h : hardlinkDir faults depth source (.ofNames base names) k = .ok () k') :
    ∀ rest, k'.files.content? (base ++ names ++ rest) = k.files.content? (source ++ rest) := by
  induction depth generalizing source names k k' with
  | zero => cases h
  | succ depth ih =>
    obtain ⟨_, k₁, hmade, h1⟩ := EStateM.bind_eq_ok.mp h
    obtain ⟨listed, k₂, hlisted, hloop⟩ := EStateM.bind_eq_ok.mp h1
    obtain ⟨hlist, rfl⟩ := readOk_eq_ok.mp hlisted
    unfold listDir at hlist
    split_ifs at hlist with hdir
    obtain rfl := Except.ok.inj hlist
    have hmkdir : Makes (Within (dirsOnly (wholeWay base names)))
        (createDirAll faults (.ofNames base names)) k := makes_createDirAll hfree le_rfl
    have hsource : ∀ rest,
        k₂.files.content? (source ++ rest) = k.files.content? (source ++ rest) := by
      intro rest
      apply hmkdir.content?_eq hmade
      rintro (((hmem | hnone) | hnone) | hnone)
      · exact hapart rest (Or.inl hmem)
      all_goals exact hnone.elim
    have hremaining : Remaining (fun _ => True) base names (k₂.files.readDir source) k₂.files :=
      remaining_of_createDirAll hrooted hfree habsent trivial hmade
    have hstart : Copying k source base names (k₂.files.readDir source) k₂ := by
      refine ⟨hremaining, hsource, ?_, fun name hname rest => ?_⟩
      · apply content?_eq_directory.mpr
        have hwhole := linkFree_wholeWay hfree (by simpa using habsent [])
        exact entryAt?_of_createDirAll hwhole hne hmade
      · -- what the source does not have is nowhere
        have hgone : k₂.files.entryAt? (source ++ [name]) = none := by
          by_contra hthere
          exact hname ((LinkedFiles.mem_readDir _).mpr hthere)
        have hnone : k₂.files.content? (source ++ [name] ++ rest) = none :=
          content?_eq_none.mpr (hremaining.rooted.none_below hgone rest)
        have hempty := absent_of_createDirAll hfree habsent hmade name rest
        rw [content?_eq_none.mpr hempty, List.append_assoc, ← hsource, ← List.append_assoc, hnone]
    have hdone := forM_inv hstart (fun name remaining k₃ k₄ hcopying hstep => ?_) hloop
    · intro rest
      cases rest with
      | nil =>
        rw [List.append_nil, List.append_nil, hdone.directory, ← List.append_nil source, ← hsource]
        rw [List.append_nil]
        exact (content?_eq_directory.mpr hdir).symm
      | cons name rest =>
        have hcopied := hdone.copied name List.not_mem_nil rest
        simpa only [List.append_assoc, List.singleton_append] using hcopied
    · -- the entry of a name is a directory or a file, and its copy another one
      have hkept : ∀ rest, k₃.files.content? (source ++ [name] ++ rest) =
          k.files.content? (source ++ [name] ++ rest) := by
        intro rest
        rw [List.append_assoc]
        exact hcopying.kept _
      have habsent₃ := hcopying.left.absent name List.mem_cons_self
      have hfree₃ : LinkFree k₃.files (way base (names ++ [name])) := by
        rw [wholeWay_eq_way]
        exact hcopying.left.free
      obtain ⟨entry, k₅, hread, hentry⟩ := EStateM.bind_eq_ok.mp hstep
      obtain ⟨hfound, rfl⟩ := read_eq_ok.mp hread
      rw [Path.join_ofNames] at hentry
      split at hentry
      · have hmakes : Makes (Within (copyLimits base (names ++ [name])))
            (hardlinkDir faults depth (source ++ [name]) (.ofNames base (names ++ [name]))) k₅ :=
          makes_copy hcopying.left.rooted hfree₃ habsent₃
        refine hcopying.next hapart hmakes hentry fun rest => ?_
        rw [← hkept]
        refine ih hcopying.left.rooted hfree₃ (by simp) habsent₃ (fun rest target => ?_)
          (fun rest hmem => ?_) hentry rest
        · rw [hkept, List.append_assoc]
          exact hlinks _ target
        · rw [List.append_assoc] at hmem
          exact hapart _ (near_child name hmem)
      · next inode _ =>
        have hnone : k₅.files.entryAt? (base ++ (names ++ [name])) = none := by
          simpa using habsent₃ []
        have hmakes : Makes (Within (copyLimits base (names ++ [name])))
            (linkOrCopy faults (source ++ [name]) (.ofNames base (names ++ [name]))) k₅ :=
          makes_copyEntry hfree₃ hnone
        have hfile := content?_of_file hfound.symm
        have hwhole : k₄.files.content? (base ++ (names ++ [name])) =
            k₅.files.content? (source ++ [name]) := content?_of_linkOrCopy hfree₃ hnone hentry
        refine hcopying.next hapart hmakes hentry fun rest => ?_
        rw [← hkept]
        cases rest with
        | nil =>
          rw [List.append_nil, List.append_nil]
          exact hwhole
        | cons below rest =>
          have hnot : k₅.files.content? (source ++ [name]) ≠ some .directory := by
            rw [hfile]
            exact fun heq => by cases heq
          have hrooted₄ := rooted_kept hmakes hentry hcopying.left.rooted
          rw [content?_below hcopying.left.rooted hnot,
            content?_below hrooted₄ (hwhole ▸ hnot)]
      · next entry hdirectory hfile =>
        obtain ⟨-, rfl⟩ := EStateM.pure_eq_ok.mp hentry
        -- a link would be one in the source, and nothing has nothing below it
        have hgone : k₄.files.entryAt? (source ++ [name]) = none := by
          cases hcase : k₄.files.entryAt? (source ++ [name]) with
          | none => rfl
          | some found =>
            cases found with
            | directory => exact absurd (hfound.trans hcase) hdirectory
            | file inode => exact absurd (hfound.trans hcase) (hfile inode)
            | symlink target =>
              have hlink := hlinks [name] target
              rw [← hcopying.kept, content?_eq_symlink.mpr hcase] at hlink
              exact absurd rfl hlink
        have hmakes : Makes (Within (copyLimits base (names ++ [name])))
            (pure () : Syscall Unit) k₄ := makes_pure ()
        refine hcopying.next hapart hmakes rfl fun rest => ?_
        rw [← hkept, content?_eq_none.mpr (habsent₃ rest),
          content?_eq_none.mpr (hcopying.left.rooted.none_below hgone rest)]

end Copies

end Oath.Store
