import Oath.Registry.Assessment

/-! Where the assessment of a tarball creates files. Files it hands to `unpack_in` stay
in the temporary directory. The files it writes itself go where the entry's path leads,
which `..` components can take out of it. -/

namespace Oath.Registry
open Unix

theorem ensure_ok {condition : Bool} {message : String} {fs fs' : FileSystem} :
    ensure condition message fs = .ok () fs' ↔ condition ∧ fs' = fs := by
  unfold ensure
  cases condition <;> simp [EStateM.pure_eq_ok, EStateM.throw_ne_ok, eq_comm]

theorem ensure_state (condition : Bool) (message : String) (fs : FileSystem) :
    (ensure condition message fs).state = fs := by
  cases condition <;> rfl

theorem ofExcept_ok {α : Type} {x : Except String α} {a : α} {fs fs' : FileSystem} :
    ofExcept x fs = .ok a fs' ↔ x = .ok a ∧ fs' = fs := by
  cases x <;> simp [ofExcept, EStateM.pure_eq_ok, EStateM.throw_ne_ok, eq_comm]

theorem ofExcept_state {α : Type} (x : Except String α) (fs : FileSystem) :
    (ofExcept x fs).state = fs := by
  cases x <;> rfl

theorem pure_ok {α : Type} {a b : α} {fs fs' : FileSystem} :
    (pure a : EStateM String FileSystem α) fs = .ok b fs' ↔ b = a ∧ fs' = fs := by
  simp [pure, EStateM.pure, eq_comm]

/-- An entry that passes the checks on its header. -/
structure EntryChecked (e : TarEntry) : Prop where
  entryType : e.entryType = .regular ∨ e.entryType = .directory
  startsWith : startsWith e.path [.normal packageDirectory]
  notAbsolute : ¬ isAbsolute e.path
  size_le : e.size.toNat ≤ maxFileBytes

theorem checkEntry_ok {e : TarEntry} {expanded expanded' : ℕ} {fs fs' : FileSystem}
    (h : checkEntry e expanded fs = .ok expanded' fs') : EntryChecked e ∧ fs' = fs := by
  obtain ⟨_, _, hc1, h1⟩ := EStateM.bind_eq_ok.mp h
  obtain ⟨htype, rfl⟩ := ensure_ok.mp hc1
  obtain ⟨_, _, hc2, h2⟩ := EStateM.bind_eq_ok.mp h1
  obtain ⟨hpath, rfl⟩ := ensure_ok.mp hc2
  obtain ⟨_, _, hc3, h3⟩ := EStateM.bind_eq_ok.mp h2
  obtain ⟨hsize, rfl⟩ := ensure_ok.mp hc3
  obtain ⟨_, _, hc4, h4⟩ := EStateM.bind_eq_ok.mp h3
  obtain ⟨-, rfl⟩ := ensure_ok.mp hc4
  obtain ⟨-, rfl⟩ := pure_ok.mp h4
  simp only [Bool.and_eq_true, Bool.not_eq_true'] at hpath
  exact ⟨⟨by simpa using htype, hpath.1, by simp [hpath.2], by simpa using hsize⟩, rfl⟩

theorem checkEntry_state (e : TarEntry) (expanded : ℕ) (fs : FileSystem) :
    (checkEntry e expanded fs).state = fs := by
  have hmoves : EStateM.Moves (· = ·) (checkEntry e expanded) := by
    unfold checkEntry
    refine EStateM.moves_bind (fun fs => (ensure_state _ _ fs).symm) fun _ => ?_
    refine EStateM.moves_bind (fun fs => (ensure_state _ _ fs).symm) fun _ => ?_
    refine EStateM.moves_bind (fun fs => (ensure_state _ _ fs).symm) fun _ => ?_
    exact EStateM.moves_bind (fun fs => (ensure_state _ _ fs).symm) fun _ => fun fs => rfl
  exact (hmoves fs).symm

theorem readToEnd_ok {data : EntryData} {bytes : List UInt8} (h : data.readToEnd = .ok bytes) :
    bytes = data.bytes := by
  unfold EntryData.readToEnd at h
  split at h
  · exact (Except.ok.inj h).symm
  · simp at h

theorem isSearched_iff {e : TarEntry} :
    e.isSearched ↔ e.entryType = .regular ∧ e.size.toNat ≤ maxSearchedBytes := by
  simp [TarEntry.isSearched]

/-- The two ways an entry is unpacked. -/
inductive Extracted (env : AssessEnv) (root : Location) (e : TarEntry) (fs : FileSystem) :
    List String → FileSystem → Prop
  | searched {bytes : List UInt8} {fs' : FileSystem} (hsearched : e.isSearched)
    (hbytes : e.data.readToEnd = .ok bytes)
    (hwrite : writeExtracted root e.path bytes fs = .ok () fs') :
    Extracted env root e fs (pathFindings e ++ markerFindings e bytes) fs'
  | unpacked {fs' : FileSystem} (hsearched : ¬ e.isSearched)
    (hunpack : env.unpackIn.run fs root e = (.ok true, fs')) :
    Extracted env root e fs (pathFindings e) fs'

theorem unpackEntry_ok {env : AssessEnv} {root : Location} {e : TarEntry} {fs fs' : FileSystem}
    (h : unpackEntry env root e fs = .ok () fs') : env.unpackIn.run fs root e = (.ok true, fs') := by
  unfold unpackEntry at h
  split at h
  · next hrun =>
    rw [hrun]
    simpa using h
  · simp at h
  · simp at h

theorem unpackEntry_state (env : AssessEnv) (root : Location) (e : TarEntry) (fs : FileSystem) :
    (unpackEntry env root e fs).state = (env.unpackIn.run fs root e).2 := by
  unfold unpackEntry
  split <;> next hrun => rw [hrun]; rfl

theorem extractEntry_ok {env : AssessEnv} {root : Location} {e : TarEntry}
    {expanded expanded' : ℕ} {found : List String} {fs fs' : FileSystem}
    (h : extractEntry env root e expanded fs = .ok (expanded', found) fs') :
    EntryChecked e ∧ Extracted env root e fs found fs' := by
  obtain ⟨size, fs₁, hcheck, hrest⟩ := EStateM.bind_eq_ok.mp h
  obtain ⟨hchecked, rfl⟩ := checkEntry_ok hcheck
  refine ⟨hchecked, ?_⟩
  by_cases hsearched : e.isSearched
  · rw [if_pos hsearched] at hrest
    obtain ⟨bytes, fs₂, hread, hwriting⟩ := EStateM.bind_eq_ok.mp hrest
    obtain ⟨hbytes, rfl⟩ := ofExcept_ok.mp hread
    obtain ⟨_, fs₃, hwrite, hend⟩ := EStateM.bind_eq_ok.mp hwriting
    obtain ⟨hpair, rfl⟩ := pure_ok.mp hend
    obtain ⟨-, rfl⟩ := Prod.mk.inj hpair
    exact .searched hsearched hbytes hwrite
  · rw [if_neg hsearched] at hrest
    obtain ⟨_, fs₂, hunpack, hend⟩ := EStateM.bind_eq_ok.mp hrest
    obtain ⟨hpair, rfl⟩ := pure_ok.mp hend
    obtain ⟨-, rfl⟩ := Prod.mk.inj hpair
    exact .unpacked hsearched (unpackEntry_ok hunpack)

/-- A failed step leaves the state as it was or as the failed unpacking left it. -/
theorem extractEntry_error {env : AssessEnv} {root : Location} {e : TarEntry} {expanded : ℕ}
    {message : String} {fs fs' : FileSystem}
    (h : extractEntry env root e expanded fs = .error message fs') :
    fs' = fs ∨ (∃ bytes, writeExtracted root e.path bytes fs = .error message fs') ∨
      fs' = (env.unpackIn.run fs root e).2 := by
  rcases EStateM.bind_eq_error.mp h with hcheck | ⟨size, fs₁, hcheck, hrest⟩
  · have := checkEntry_state e expanded fs
    rw [hcheck] at this
    exact Or.inl this
  · obtain ⟨-, rfl⟩ := checkEntry_ok hcheck
    by_cases hsearched : e.isSearched
    · rw [if_pos hsearched] at hrest
      rcases EStateM.bind_eq_error.mp hrest with hread | ⟨bytes, fs₂, hread, hwriting⟩
      · have := ofExcept_state e.data.readToEnd fs₁
        rw [hread] at this
        exact Or.inl this
      · obtain ⟨-, rfl⟩ := ofExcept_ok.mp hread
        rcases EStateM.bind_eq_error.mp hwriting with hwrite | ⟨_, fs₃, -, hend⟩
        · exact Or.inr (Or.inl ⟨bytes, hwrite⟩)
        · cases hend
    · rw [if_neg hsearched] at hrest
      rcases EStateM.bind_eq_error.mp hrest with hunpack | ⟨_, fs₂, -, hend⟩
      · have := unpackEntry_state env root e fs₁
        rw [hunpack] at this
        exact Or.inr (Or.inr this)
      · cases hend

/-- The loop over `entries` comes to `e` with this size and this state. -/
inductive Reached (env : AssessEnv) (root : Location) :
    List (Except String TarEntry) → ℕ → ℕ → FileSystem → TarEntry → ℕ → FileSystem → Prop
  | here {e : TarEntry} {rest : List (Except String TarEntry)} {index expanded : ℕ}
    {fs : FileSystem} (hindex : index < maxArchiveEntries) :
    Reached env root (.ok e :: rest) index expanded fs e expanded fs
  | there {e e' : TarEntry} {rest : List (Except String TarEntry)}
    {index expanded expanded' expanded'' : ℕ} {found : List String} {fs fs' fs'' : FileSystem}
    (hindex : index < maxArchiveEntries)
    (hstep : extractEntry env root e expanded fs = .ok (expanded', found) fs')
    (hrest : Reached env root rest (index + 1) expanded' fs' e' expanded'' fs'') :
    Reached env root (.ok e :: rest) index expanded fs e' expanded'' fs''

/-- A run of the loop that succeeds: every entry passes its checks and is unpacked. -/
inductive Extraction (env : AssessEnv) (root : Location) :
    List TarEntry → FileSystem → List String → FileSystem → Prop
  | nil {fs : FileSystem} : Extraction env root [] fs [] fs
  | cons {e : TarEntry} {rest : List TarEntry} {found more : List String}
    {fs fs₁ fs' : FileSystem} (hchecked : EntryChecked e)
    (hstep : Extracted env root e fs found fs₁) (hrest : Extraction env root rest fs₁ more fs') :
    Extraction env root (e :: rest) fs (found ++ more) fs'

theorem extraction_checked {env : AssessEnv} {root : Location} {entries : List TarEntry}
    {found : List String} {fs fs' : FileSystem} (h : Extraction env root entries fs found fs') :
    ∀ e ∈ entries, EntryChecked e := by
  induction h with
  | nil => simp
  | cons hchecked hstep hrest ih => exact List.forall_mem_cons.mpr ⟨hchecked, ih⟩

theorem extractLoop_cons (env : AssessEnv) (root : Location) (e : TarEntry)
    (rest : List (Except String TarEntry)) {index : ℕ} (hindex : index < maxArchiveEntries)
    (expanded : ℕ) (findings : List String) (fs : FileSystem) :
    extractLoop env root (.ok e :: rest) index expanded findings fs =
      match extractEntry env root e expanded fs with
      | .ok (expanded', found) fs' =>
        extractLoop env root rest (index + 1) expanded' (findings ++ found) fs'
      | .error message fs' => .error message fs' := by
  rw [extractLoop, ensure, if_pos (by simpa using hindex)]
  show EStateM.bind (extractEntry env root e expanded) _ fs = _
  unfold EStateM.bind
  cases extractEntry env root e expanded fs <;> rfl

theorem extractLoop_stops (env : AssessEnv) (root : Location) (entry : Except String TarEntry)
    (rest : List (Except String TarEntry)) {index : ℕ}
    (h : ¬ index < maxArchiveEntries ∨ ∃ message, entry = .error message)
    (expanded : ℕ) (findings : List String) (fs : FileSystem) :
    ∃ message, extractLoop env root (entry :: rest) index expanded findings fs =
      .error message fs := by
  rw [extractLoop, ensure]
  by_cases hindex : index < maxArchiveEntries
  · obtain ⟨message, rfl⟩ := h.resolve_left (not_not_intro hindex)
    rw [if_pos (by simpa using hindex)]
    exact ⟨message, rfl⟩
  · rw [if_neg (by simpa using hindex)]
    exact ⟨_, rfl⟩

theorem extractLoop_ok {env : AssessEnv} {root : Location}
    {entries : List (Except String TarEntry)} {index expanded expanded' : ℕ}
    {findings found : List String} {fs fs' : FileSystem}
    (h : extractLoop env root entries index expanded findings fs = .ok (expanded', found) fs') :
    ∃ es more, entries = es.map .ok ∧ found = findings ++ more ∧
      Extraction env root es fs more fs' := by
  induction entries generalizing index expanded findings fs with
  | nil =>
    obtain ⟨hpair, rfl⟩ := pure_ok.mp h
    obtain ⟨-, rfl⟩ := Prod.mk.inj hpair
    exact ⟨[], [], rfl, (List.append_nil _).symm, .nil⟩
  | cons entry rest ih =>
    by_cases hstop : ¬ index < maxArchiveEntries ∨ ∃ message, entry = .error message
    · obtain ⟨message, hend⟩ := extractLoop_stops env root entry rest hstop expanded findings fs
      rw [hend] at h
      cases h
    · rw [not_or, not_not] at hstop
      obtain ⟨hindex, hentry⟩ := hstop
      cases entry with
      | error message => exact absurd ⟨message, rfl⟩ hentry
      | ok e =>
        rw [extractLoop_cons env root e rest hindex] at h
        split at h
        · next size new fs₁ hstep =>
          obtain ⟨hchecked, hextracted⟩ := extractEntry_ok hstep
          obtain ⟨es, more, rfl, rfl, hrun⟩ := ih h
          exact ⟨e :: es, new ++ more, rfl, List.append_assoc _ _ _,
            .cons hchecked hextracted hrun⟩
        · cases h

/-! ## Where files are created -/

def Creates (before after : FileSystem) (loc : Location) : Prop :=
  before.fileBytes? loc = none ∧ (after.fileBytes? loc).isSome

/-! ## One write -/

theorem writeExtracted_ok {root : Location} {path bytes : List UInt8} {fs fs' : FileSystem}
    (h : writeExtracted root path bytes fs = .ok () fs') :
    ∃ fs₁ name mode,
      FileSystem.createDirAll root (components path).dropLast fs = (.ok (), fs₁) ∧
      (components path).getLast? = some (.normal name) ∧ endsInName path ∧
      ¬ fs₁.isDirectory (resolve root (components path)) ∧
      fs' = fs₁.set (resolve root (components path)) (.file mode bytes) := by
  unfold writeExtracted at h
  split at h
  · simp at h
  · next fs₁ hmake =>
    split at h
    · next fs₂ hwrite =>
      obtain rfl : fs₂ = fs' := by simpa using h
      obtain ⟨parent, name, mode, hlast, hname, rfl, -, hnot, hset⟩ :=
        FileSystem.writeFile_ok hwrite
      rw [← FileSystem.resolve_of_getLast? hlast] at hnot hset
      exact ⟨fs₁, name, mode, hmake, hlast, hname, hnot, hset⟩
    · simp at h

/-- A write puts its file at the lexical resolution of the path and changes no other. -/
theorem writeExtracted_fileBytes? {root : Location} {path bytes : List UInt8}
    {fs fs' : FileSystem} (h : writeExtracted root path bytes fs = .ok () fs') (loc : Location) :
    fs'.fileBytes? loc =
      if resolve root (components path) = loc then some bytes else fs.fileBytes? loc := by
  obtain ⟨fs₁, name, mode, hmake, -, -, -, rfl⟩ := writeExtracted_ok h
  have hdirs := FileSystem.createDirAll_fileBytes? root (components path).dropLast fs loc
  rw [hmake] at hdirs
  rw [FileSystem.fileBytes?_set_file, hdirs]

theorem writeExtracted_error {root : Location} {path bytes : List UInt8} {fs fs' : FileSystem}
    {message : String} (h : writeExtracted root path bytes fs = .error message fs')
    (loc : Location) : fs'.fileBytes? loc = fs.fileBytes? loc := by
  have hdirs := FileSystem.createDirAll_fileBytes? root (components path).dropLast fs loc
  unfold writeExtracted at h
  split at h
  · next e fs₁ hmake =>
    rw [hmake] at hdirs
    obtain ⟨-, rfl⟩ : _ ∧ fs₁ = fs' := by simpa using h
    exact hdirs
  · next fs₁ hmake =>
    rw [hmake] at hdirs
    split at h
    · simp at h
    · obtain ⟨-, rfl⟩ : _ ∧ fs₁ = fs' := by simpa using h
      exact hdirs

/-! ## One entry -/

/-- The registry's own helper writes this entry, and there was no such file before. -/
structure WritesNewFile (env : AssessEnv) (root : Location) (e : TarEntry) (expanded : ℕ)
    (fs : FileSystem) : Prop where
  searched : e.isSearched
  succeeds : ∃ result fs', extractEntry env root e expanded fs = .ok result fs'
  new : fs.fileBytes? (resolve root (components e.path)) = none

theorem unpackIn_fileBytes? (unpackIn : UnpackIn) {root loc : Location} {e : TarEntry}
    {fs : FileSystem} (h : ¬ root <+: loc) :
    (unpackIn.run fs root e).2.fileBytes? loc = fs.fileBytes? loc := by
  unfold FileSystem.fileBytes?
  rw [unpackIn.outside fs root loc e h]

/-- A successful step: outside the root it changes at most the file its path leads to. -/
theorem extractEntry_ok_outside {env : AssessEnv} {root loc : Location} {e : TarEntry}
    {expanded : ℕ} {result : ℕ × List String} {fs fs' : FileSystem} (hloc : ¬ root <+: loc)
    (h : extractEntry env root e expanded fs = .ok result fs') :
    if e.isSearched ∧ resolve root (components e.path) = loc then (fs'.fileBytes? loc).isSome
    else fs'.fileBytes? loc = fs.fileBytes? loc := by
  obtain ⟨expanded', found⟩ := result
  obtain ⟨-, hstep⟩ := extractEntry_ok h
  cases hstep with
  | searched hsearched hbytes hwrite =>
    have hfile := writeExtracted_fileBytes? hwrite loc
    by_cases htarget : resolve root (components e.path) = loc
    · rw [if_pos ⟨hsearched, htarget⟩, hfile, if_pos htarget]
      rfl
    · rw [if_neg (fun hand => htarget hand.2), hfile, if_neg htarget]
  | unpacked hsearched hunpack =>
    have hfile : (env.unpackIn.run fs root e).2.fileBytes? loc = fs.fileBytes? loc :=
      unpackIn_fileBytes? env.unpackIn hloc
    rw [hunpack] at hfile
    rwa [if_neg (fun hand => hsearched hand.1)]

theorem extractEntry_error_outside {env : AssessEnv} {root loc : Location} {e : TarEntry}
    {expanded : ℕ} {message : String} {fs fs' : FileSystem} (hloc : ¬ root <+: loc)
    (h : extractEntry env root e expanded fs = .error message fs') :
    fs'.fileBytes? loc = fs.fileBytes? loc := by
  rcases extractEntry_error h with rfl | ⟨bytes, hwrite⟩ | rfl
  · rfl
  · exact writeExtracted_error hwrite loc
  · exact unpackIn_fileBytes? env.unpackIn hloc

theorem extractEntry_keeps {env : AssessEnv} {root loc : Location} {e : TarEntry}
    {expanded : ℕ} {result : ℕ × List String} {fs fs' : FileSystem} (hloc : ¬ root <+: loc)
    (h : extractEntry env root e expanded fs = .ok result fs')
    (hfile : (fs.fileBytes? loc).isSome) : (fs'.fileBytes? loc).isSome := by
  have hstep := extractEntry_ok_outside hloc h
  split at hstep
  · exact hstep
  · rwa [hstep]

/-! ## The loop -/

theorem extractLoop_keeps {env : AssessEnv} {root loc : Location} (hloc : ¬ root <+: loc)
    (entries : List (Except String TarEntry)) (index expanded : ℕ) (findings : List String)
    (fs : FileSystem) (hfile : (fs.fileBytes? loc).isSome) :
    ((extractLoop env root entries index expanded findings fs).state.fileBytes? loc).isSome := by
  induction entries generalizing index expanded findings fs with
  | nil => exact hfile
  | cons entry rest ih =>
    by_cases hstop : ¬ index < maxArchiveEntries ∨ ∃ message, entry = .error message
    · obtain ⟨message, hend⟩ := extractLoop_stops env root entry rest hstop expanded findings fs
      rwa [hend]
    · rw [not_or, not_not] at hstop
      obtain ⟨hindex, hentry⟩ := hstop
      cases entry with
      | error message => exact absurd ⟨message, rfl⟩ hentry
      | ok e =>
        rw [extractLoop_cons env root e rest hindex]
        cases hstep : extractEntry env root e expanded fs with
        | ok result fs' => exact ih _ _ _ _ (extractEntry_keeps hloc hstep hfile)
        | error message fs' =>
          show (fs'.fileBytes? loc).isSome
          rwa [extractEntry_error_outside hloc hstep]

/-- The loop creates a file outside the root exactly when it comes to an entry that the
registry's own helper writes there. -/
theorem extractLoop_creates_iff (env : AssessEnv) {root loc : Location} (hloc : ¬ root <+: loc)
    (entries : List (Except String TarEntry)) (index expanded : ℕ) (findings : List String)
    (fs : FileSystem) :
    Creates fs (extractLoop env root entries index expanded findings fs).state loc ↔
      ∃ e size fs', Reached env root entries index expanded fs e size fs' ∧
        WritesNewFile env root e size fs' ∧ resolve root (components e.path) = loc := by
  induction entries generalizing index expanded findings fs with
  | nil =>
    constructor
    · rintro ⟨hnone, hsome⟩
      rw [show (extractLoop env root [] index expanded findings fs).state = fs from rfl,
        hnone] at hsome
      simp at hsome
    · rintro ⟨e, size, fs', hreached, -⟩
      cases hreached
  | cons entry rest ih =>
    by_cases hstop : ¬ index < maxArchiveEntries ∨ ∃ message, entry = .error message
    · obtain ⟨message, hend⟩ := extractLoop_stops env root entry rest hstop expanded findings fs
      rw [hend]
      constructor
      · rintro ⟨hnone, hsome⟩
        rw [show (EStateM.Result.error message fs).state = fs from rfl, hnone] at hsome
        simp at hsome
      · rintro ⟨e, size, fs', hreached, -⟩
        rcases hstop with hindex | ⟨message', rfl⟩
        · cases hreached <;> contradiction
        · cases hreached
    · rw [not_or, not_not] at hstop
      obtain ⟨hindex, hentry⟩ := hstop
      cases entry with
      | error message => exact absurd ⟨message, rfl⟩ hentry
      | ok e =>
        rw [extractLoop_cons env root e rest hindex]
        cases hstep : extractEntry env root e expanded fs with
        | error message fs' =>
          constructor
          · rintro ⟨hnone, hsome⟩
            rw [show (EStateM.Result.error message fs').state = fs' from rfl,
              extractEntry_error_outside hloc hstep, hnone] at hsome
            simp at hsome
          · rintro ⟨e', size, fs'', hreached, hwrites, -⟩
            cases hreached with
            | here _ =>
              obtain ⟨result, fs₁, hok⟩ := hwrites.succeeds
              rw [hstep] at hok
              cases hok
            | there _ hok _ =>
              rw [hstep] at hok
              cases hok
        | ok result fs' =>
          obtain ⟨expanded', found⟩ := result
          have houtside := extractEntry_ok_outside hloc hstep
          constructor
          · rintro ⟨hnone, hsome⟩
            by_cases hfile : fs'.fileBytes? loc = none
            · obtain ⟨e', size, fs'', hreached, hwrites⟩ :=
                (ih (index + 1) expanded' (findings ++ found) fs').mp ⟨hfile, hsome⟩
              exact ⟨e', size, fs'', .there hindex hstep hreached, hwrites⟩
            · split at houtside
              · next htarget =>
                exact ⟨e, expanded, fs, .here hindex,
                  ⟨htarget.1, ⟨_, fs', hstep⟩, by rw [htarget.2, hnone]⟩, htarget.2⟩
              · rw [houtside] at hfile
                exact absurd hnone hfile
          · rintro ⟨e', size, fs'', hreached, hwrites, rfl⟩
            cases hreached with
            | here _ =>
              rw [if_pos ⟨hwrites.searched, rfl⟩] at houtside
              exact ⟨hwrites.new, extractLoop_keeps hloc rest _ _ _ _ houtside⟩
            | there _ hok hrest =>
              rw [hstep] at hok
              obtain ⟨hpair, rfl⟩ : _ ∧ fs' = _ := by simpa using hok
              obtain ⟨rfl, rfl⟩ := hpair
              obtain ⟨hnone, hsome⟩ := (ih (index + 1) expanded' (findings ++ found) fs').mpr
                ⟨e', size, fs'', hrest, hwrites, rfl⟩
              refine ⟨?_, hsome⟩
              by_contra hfile
              have := extractEntry_keeps hloc hstep (Option.isSome_iff_ne_none.mpr hfile)
              rw [hnone] at this
              simp at this

/-! ## The whole assessment -/

section Assessment
variable (env : AssessEnv) (fs : FileSystem) (tarball : List UInt8) (manifest : Contracts.Value)
  (name version publisher registry : String)

/-- The state when the loop starts: the temporary directory is there and empty. -/
def withTempDir (root : Location) : FileSystem := fs.set root (.directory tempDirMode)

theorem assessTarball_noTempDir {message : String}
    (h : env.tempdir.create fs = .error message) :
    (assessTarball env tarball manifest name version publisher registry fs).state = fs := by
  unfold assessTarball
  show (EStateM.bind (ofExcept (env.tempdir.create fs)) _ fs).state = fs
  rw [h]
  rfl

theorem assessTarball_undecoded {root : Location} {message : String}
    (hroot : env.tempdir.create fs = .ok root) (h : env.decode tarball = .error message) :
    (assessTarball env tarball manifest name version publisher registry fs).state =
      withTempDir fs root := by
  unfold assessTarball
  show (EStateM.bind (ofExcept (env.tempdir.create fs)) _ fs).state = _
  rw [hroot]
  show (EStateM.bind (ofExcept (env.decode tarball)) _ (withTempDir fs root)).state = _
  rw [h]
  rfl

/-- What follows the loop only reads. -/
theorem assessTarball_state {root : Location} {entries : List (Except String TarEntry)}
    (hroot : env.tempdir.create fs = .ok root) (hentries : env.decode tarball = .ok entries) :
    (assessTarball env tarball manifest name version publisher registry fs).state =
      (extractLoop env root entries 0 0 [] (withTempDir fs root)).state := by
  unfold assessTarball
  show (EStateM.bind (ofExcept (env.tempdir.create fs)) _ fs).state = _
  rw [hroot]
  show (EStateM.bind (ofExcept (env.decode tarball)) _ (withTempDir fs root)).state = _
  rw [hentries]
  show (EStateM.bind (extractLoop env root entries 0 0 []) _ (withTempDir fs root)).state = _
  unfold EStateM.bind
  cases extractLoop env root entries 0 0 [] (withTempDir fs root) with
  | error message fs' => rfl
  | ok result fs' =>
    show (EStateM.bind EStateM.get _ fs').state = fs'
    unfold EStateM.bind EStateM.get
    dsimp only
    cases Analyze.scan env.parseJson env.analysis fs' (root ++ [packageDirectory]) name version <;>
      rfl

theorem withTempDir_fileBytes? {root loc : Location} (hroot : env.tempdir.create fs = .ok root) :
    (withTempDir fs root).fileBytes? loc = fs.fileBytes? loc := by
  unfold FileSystem.fileBytes? withTempDir
  rw [FileSystem.node?_set]
  by_cases h : root = loc
  · subst h
    simp [env.tempdir.fresh fs root root hroot (List.prefix_refl _)]
  · simp [h]

/-- All files the assessment creates lie in its temporary directory exactly when every
entry it comes to that its own helper writes to a new file has a path that leads there. -/
theorem assessTarball_contained_iff :
    (∀ loc, Creates fs
        (assessTarball env tarball manifest name version publisher registry fs).state loc →
      ∃ root, env.tempdir.create fs = .ok root ∧ root <+: loc) ↔
    ∀ root entries, env.tempdir.create fs = .ok root → env.decode tarball = .ok entries →
      ∀ e size fs', Reached env root entries 0 0 (withTempDir fs root) e size fs' →
        WritesNewFile env root e size fs' → root <+: resolve root (components e.path) := by
  constructor
  · intro hall root entries hroot hentries e size fs' hreached hwrites
    by_contra hout
    have hcreates := (extractLoop_creates_iff env hout entries 0 0 []
      (withTempDir fs root)).mpr ⟨e, size, fs', hreached, hwrites, rfl⟩
    obtain ⟨root', hroot', hin⟩ := hall (resolve root (components e.path)) (by
      rw [assessTarball_state env fs tarball manifest name version publisher registry hroot
        hentries]
      exact ⟨by rw [← withTempDir_fileBytes? env fs hroot]; exact hcreates.1, hcreates.2⟩)
    rw [hroot] at hroot'
    obtain rfl := Except.ok.inj hroot'
    exact hout hin
  · intro hall loc hcreates
    cases hroot : env.tempdir.create fs with
    | error message =>
      rw [assessTarball_noTempDir env fs tarball manifest name version publisher registry hroot]
        at hcreates
      have hsome := hcreates.2
      rw [hcreates.1] at hsome
      simp at hsome
    | ok root =>
      refine ⟨root, rfl, ?_⟩
      cases hentries : env.decode tarball with
      | error message =>
        rw [assessTarball_undecoded env fs tarball manifest name version publisher registry hroot
          hentries] at hcreates
        have hsome := hcreates.2
        rw [withTempDir_fileBytes? env fs hroot, hcreates.1] at hsome
        simp at hsome
      | ok entries =>
        rw [assessTarball_state env fs tarball manifest name version publisher registry hroot
          hentries] at hcreates
        by_contra hout
        obtain ⟨e, size, fs', hreached, hwrites, rfl⟩ :=
          (extractLoop_creates_iff env hout entries 0 0 [] (withTempDir fs root)).mp
            ⟨by rw [withTempDir_fileBytes? env fs hroot]; exact hcreates.1, hcreates.2⟩
        exact hout (hall root entries hroot hentries e size fs' hreached hwrites)

end Assessment

/-- A gzip tarball with one file of two bytes, `package/../../x`. -/
def escapingTarball : List UInt8 :=
  [31, 139, 8, 0, 0, 0, 0, 0, 2, 255, 43, 72, 76, 206, 78, 76, 79, 213, 215, 211, 3, 161, 10, 6,
    90, 0, 3, 32, 48, 51, 49, 1, 211, 64, 128, 78, 3, 129, 17, 18, 27, 40, 110, 104, 96, 104, 106,
    192, 160, 96, 192, 64, 7, 80, 90, 92, 146, 88, 4, 180, 158, 97, 100, 130, 140, 76, 134, 81, 48,
    10, 70, 193, 40, 24, 5, 35, 16, 0, 0, 5, 174, 209, 168, 0, 8, 0, 0]

def escapingEntry : TarEntry where
  entryType := .regular
  path := asBytes "package/../../x"
  size := 2
  ustar := true
  mode := some 0o644
  data := { bytes := asBytes "hi" }

def escapingEnv : AssessEnv := hostEnv escapingTarball [escapingEntry] [] .null

/-- The file is created next to the temporary directory. -/
theorem assessTarball_escapes :
    Creates emptyHost (assessTarball escapingEnv escapingTarball .null "demo" "1.0.0" "acme"
      "https://registry.example" emptyHost).state [asBytes "tmp", asBytes "x"] ∧
    ¬ ∃ root, escapingEnv.tempdir.create emptyHost = .ok root ∧
      root <+: [asBytes "tmp", asBytes "x"] := by
  have hroot : escapingEnv.tempdir.create emptyHost = .ok hostTempDir := by decide
  have hentries : escapingEnv.decode escapingTarball = .ok [.ok escapingEntry] := by decide
  rw [assessTarball_state escapingEnv emptyHost escapingTarball .null "demo" "1.0.0" "acme"
    "https://registry.example" hroot hentries]
  refine ⟨⟨by decide, by decide⟩, ?_⟩
  rintro ⟨root, hcreate, hin⟩
  rw [hroot] at hcreate
  obtain rfl := Except.ok.inj hcreate
  revert hin
  decide

end Oath.Registry
