import Oath.Fetch.Tarball

/-! The files a client has after an extraction that succeeds: for every path the data of
the last entry that is written there. -/

namespace Oath.Fetch
open Unix Registry

theorem safeParts_eq_normalNames? (cs : List Component) : safeParts cs = normalNames? cs := by
  induction cs with
  | nil => rfl
  | cons c cs ih => cases c <;> simp [safeParts, normalNames?, ih]

/-- The client writes this entry to `rel`. -/
def installsAt (e : TarEntry) (rel : List Name) : Bool :=
  match safeParts (components e.path) with
  | some (_ :: relative) =>
    e.entryType == .regular && !relative.isEmpty && normalizeIgnore relative == rel
  | _ => false

def installedFile (entries : List TarEntry) (rel : List Name) : Option (List UInt8) :=
  entries.foldl (fun file e => if installsAt e rel then some e.data.bytes else file) none

theorem createDirAll_ok {base : Location} {names : List Name} {fs fs' : FileSystem}
    (h : createDirAll base names fs = .ok () fs') (loc : Location) :
    fs'.fileBytes? loc = fs.fileBytes? loc := by
  have hdirs := FileSystem.createDirAll_fileBytes? base (names.map .normal) fs loc
  unfold createDirAll at h
  split at h
  · next fs₁ hmake =>
    rw [hmake] at hdirs
    obtain rfl : fs₁ = fs' := by simpa using h
    exact hdirs
  · simp at h

theorem writeEntry_ok {parent : Location} {name : Name} {e : TarEntry} {fs fs' : FileSystem}
    (h : writeEntry parent name e fs = .ok () fs') (loc : Location) :
    fs'.fileBytes? loc =
      if parent ++ [name] = loc then some e.data.bytes else fs.fileBytes? loc := by
  unfold writeEntry at h
  dsimp only at h
  split at h
  · simp at h
  · next fs₁ hwrite =>
    obtain ⟨-, -, mode, rfl⟩ := FileSystem.writeAt_ok hwrite
    split at h
    · simp at h
    · split at h
      · obtain rfl : _ = fs' := by simpa using h
        exact FileSystem.fileBytes?_set_file _ _ _ _ _
      · obtain rfl : _ = fs' := by simpa using h
        rw [FileSystem.fileBytes?_set_file, FileSystem.fileBytes?_set_file]
        split_ifs <;> rfl

theorem normalizeIgnore_ne_nil {relative : List Name} (h : relative ≠ []) :
    normalizeIgnore relative ≠ [] := by
  unfold normalizeIgnore
  split_ifs <;> simp [h]

theorem sanitizeTarPath_ok {path : List UInt8} {limits : TarballLimits}
    {relative : Option (List Name)} (h : sanitizeTarPath path limits = .ok relative) :
    ∃ parts, safeParts (components path) = some parts ∧
      relative = if (parts.drop 1).isEmpty then none else some (parts.drop 1) := by
  unfold sanitizeTarPath at h
  dsimp only at h
  split at h
  · simp at h
  · split at h
    · simp at h
    · split at h
      · simp at h
      · next parts hparts =>
        refine ⟨parts, hparts, ?_⟩
        split at h
        · next hempty =>
          rw [if_pos hempty]
          exact (Except.ok.inj h).symm
        · next hempty =>
          rw [if_neg hempty]
          split at h
          · simp at h
          · exact (Except.ok.inj h).symm

/-- One entry: it is written where `installsAt` says or nowhere. -/
theorem extractEntry_ok {dest : Location} {limits : TarballLimits} {e : TarEntry}
    {unpacked unpacked' : ℕ} {fs fs' : FileSystem}
    (h : extractEntry dest limits e unpacked fs = .ok unpacked' fs') :
    (∃ parts, safeParts (components e.path) = some parts) ∧
      ∀ rel, fs'.fileBytes? (dest ++ rel) =
        if installsAt e rel then some e.data.bytes else fs.fileBytes? (dest ++ rel) := by
  unfold extractEntry at h
  cases hpath : sanitizeTarPath e.path limits with
  | error message =>
    rw [hpath] at h
    cases h
  | ok relative =>
    rw [hpath] at h
    obtain ⟨parts, hparts, hrelative⟩ := sanitizeTarPath_ok hpath
    refine ⟨⟨parts, hparts⟩, fun rel => ?_⟩
    have hinstalls : installsAt e rel = (e.entryType == .regular &&
        !(parts.drop 1).isEmpty && normalizeIgnore (parts.drop 1) == rel) := by
      unfold installsAt
      rw [hparts]
      cases parts <;> simp
    rw [hinstalls]
    generalize parts.drop 1 = names at hrelative
    split_ifs at hrelative with hempty
    · subst hrelative
      obtain ⟨-, rfl⟩ : _ ∧ fs = fs' := by simpa [pure, EStateM.pure] using h
      simp only [hempty, Bool.not_true, Bool.and_false, Bool.false_and, Bool.false_eq_true,
        if_false]
    · subst hrelative
      have hne : normalizeIgnore names ≠ [] := normalizeIgnore_ne_nil (by simpa using hempty)
      dsimp only at h
      cases htype : e.entryType with
      | directory =>
        simp only [htype] at h
        obtain ⟨-, rfl⟩ : _ ∧ fs = fs' := by simpa [pure, EStateM.pure] using h
        simp
      | other kind =>
        simp only [htype] at h
        cases h
      | regular =>
        simp only [htype] at h
        split_ifs at h
        · cases h
        · cases h
        · obtain ⟨_, fs₁, hmake, h1⟩ := EStateM.bind_eq_ok.mp h
          obtain ⟨_, fs₂, hwrite, h2⟩ := EStateM.bind_eq_ok.mp h1
          obtain ⟨-, rfl⟩ : _ ∧ fs₂ = fs' := by simpa [pure, EStateM.pure] using h2
          have htarget : dest ++ (normalizeIgnore names).dropLast ++
              [(normalizeIgnore names).getLastD []] = dest ++ normalizeIgnore names := by
            rw [List.append_assoc, List.getLastD_eq_getLast?,
              List.getLast?_eq_some_getLast hne, Option.getD_some, List.dropLast_append_getLast]
          rw [writeEntry_ok hwrite, createDirAll_ok hmake, htarget]
          simp [hempty]

theorem extractLoop_ok {dest : Location} {limits : TarballLimits} {entries : List TarEntry}
    {count unpacked : ℕ} {fs fs' : FileSystem}
    (h : extractLoop dest limits (entries.map .ok) count unpacked fs = .ok () fs') :
    (∀ e ∈ entries, ∃ parts, safeParts (components e.path) = some parts) ∧
      ∀ rel, fs'.fileBytes? (dest ++ rel) = entries.foldl
        (fun file e => if installsAt e rel then some e.data.bytes else file)
        (fs.fileBytes? (dest ++ rel)) := by
  induction entries generalizing count unpacked fs with
  | nil =>
    obtain rfl : fs = fs' := by simpa [extractLoop, pure, EStateM.pure] using h
    simp
  | cons e entries ih =>
    rw [List.map_cons, extractLoop] at h
    split_ifs at h
    · cases h
    · obtain ⟨unpacked', fs₁, hstep, hrest⟩ := EStateM.bind_eq_ok.mp h
      obtain ⟨hparts, hfile⟩ := extractEntry_ok hstep
      obtain ⟨hall, hfiles⟩ := ih hrest
      refine ⟨List.forall_mem_cons.mpr ⟨hparts, hall⟩, fun rel => ?_⟩
      rw [hfiles rel, hfile rel, List.foldl_cons]

/-- An extraction that succeeds into a place without files. -/
theorem extractTarball_ok {decode : DecodeTarball} {data : List UInt8} {dest : Location}
    {limits : TarballLimits} {entries : List TarEntry} {fs fs' : FileSystem}
    (h : extractTarball decode data dest limits fs = .ok () fs')
    (hentries : decode data = .ok (entries.map .ok))
    (hfresh : ∀ loc, dest <+: loc → fs.fileBytes? loc = none) :
    (∀ e ∈ entries, ∃ parts, safeParts (components e.path) = some parts) ∧
      ∀ rel, fs'.fileBytes? (dest ++ rel) = installedFile entries rel := by
  unfold extractTarball at h
  split_ifs at h
  · cases h
  · obtain ⟨_, fs₁, hmake, h1⟩ := EStateM.bind_eq_ok.mp h
    rw [hentries] at h1
    obtain ⟨hparts, hfiles⟩ := extractLoop_ok h1
    refine ⟨hparts, fun rel => ?_⟩
    rw [hfiles rel, createDirAll_ok hmake, hfresh _ (List.prefix_append _ _), installedFile]

end Oath.Fetch
