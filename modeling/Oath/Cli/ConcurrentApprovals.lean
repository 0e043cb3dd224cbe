import Oath.Cli.Approvals

/-! Which runs of several calls keep every approval whose call succeeded: those in which no other
call uses the file aside and the file is still the one that was loaded. Two calls that load the
same file lose an approval. -/

namespace Oath.Cli.Approvals

/-- What was found when the file was loaded, or is found to be read. -/
def Phase.source? : Phase → Option ℕ
  | .opened inode => some inode
  | .loaded seen _ => seen
  | .writing seen _ _ _ => seen
  | _ => none

/-- The file that is to be stored, with what was found when it was loaded. -/
def Phase.plan? : Phase → Option (Option ℕ × ApprovalFile)
  | .loaded seen file => some (seen, file)
  | .writing seen file _ _ => some (seen, file)
  | _ => none

def Phase.IsWriting : Phase → Prop
  | .writing _ _ _ _ => True
  | _ => False

/-- What a call that loads the file now has of it. -/
def Holds (json : ApprovalJson) (dir : ApprovalDir) (base : ApprovalFile) : Prop :=
  match dir.path with
  | none => base = absent
  | some inode => json.fromSlice (dir.data inode) = some base

/-- The approval is in the file. -/
def IsStored (json : ApprovalJson) (dir : ApprovalDir) (approval : ExecApproval) : Prop :=
  ∃ inode file, dir.path = some inode ∧ json.fromSlice (dir.data inode) = some file ∧
    approval ∈ file.approvals

structure DirOk (dir : ApprovalDir) : Prop where
  path_lt (n : ℕ) : dir.path = some n → n < dir.fresh
  tmp_lt (n : ℕ) : dir.tmp = some n → n < dir.fresh
  apart (n : ℕ) : dir.tmp = some n → dir.path ≠ some n

/-- What was loaded is no file that is still written. A plan whose source is in place adds the
approval to what is there, and a call that writes is the one that fills the file aside. -/
structure Own (json : ApprovalJson) (approval : ExecApproval) (dir : ApprovalDir) (phase : Phase) :
    Prop where
  source (n : ℕ) : phase.source? = some n → n < dir.fresh ∧ dir.tmp ≠ some n
  plan (seen : Option ℕ) (file : ApprovalFile) : phase.plan? = some (seen, file) →
    file.schemaVersion < 2 ^ 32 ∧
      (dir.path = seen → ∃ base, Holds json dir base ∧ file = base.add approval)
  aside (seen : Option ℕ) (file : ApprovalFile) (inode written : ℕ) :
    phase = .writing seen file inode written → dir.tmp = some inode ∧
      dir.data inode = (json.toVecPretty file).take written ∧
        written ≤ (json.toVecPretty file).length
  stored : phase = .returned true → IsStored json dir approval

section Calls
variable {Call : Type} [DecidableEq Call] {json : ApprovalJson} {approval : ExecApproval}
  {approvals : Call → ExecApproval} {dir dir' : ApprovalDir} {phase phase' : Phase}
  {base file : ApprovalFile} {syscall : Syscall}

abbrev Store (Call : Type) := Threads.State Call ApprovalDir Phase

/-- No other call is between its file aside and the rename when one starts to write, and a rename
finds what was found when the file was loaded. -/
def Undisturbed (s : Store Call) (event : Call × Syscall) : Prop :=
  (event.2 = .createTmp → ∀ j, j ≠ event.1 → ¬(s.locals j).IsWriting) ∧
    (event.2 = .rename → ∀ seen file inode written,
      s.locals event.1 = .writing seen file inode written → s.shared.path = seen)

structure Sound (json : ApprovalJson) (approvals : Call → ExecApproval) (s : Store Call) :
    Prop where
  dir : DirOk s.shared
  own (i : Call) : Own json (approvals i) s.shared (s.locals i)
  lone (i j : Call) : (s.locals i).IsWriting → (s.locals j).IsWriting → i = j

theorem mem_add {other : ExecApproval} :
    other ∈ (file.add approval).approvals ↔ other ∈ file.approvals ∨ other = approval := by
  unfold ApprovalFile.add
  dsimp only
  rw [List.mem_insertionSort]
  split_ifs with hmem
  · exact ⟨Or.inl, fun h => h.elim id fun heq => heq ▸ hmem⟩
  · rw [List.mem_append, List.mem_singleton]

/-! ## Steps -/

/-- What a step can do. -/
theorem rememberStep_cases
    (h : rememberStep json approval syscall dir phase = some (dir', phase')) :
    (dir' = dir ∧ (phase' = .returned false ∨ phase = .called ∧ phase' = exists? approval dir ∨
        phase = .found ∧ phase' = openPath dir ∨
        ∃ inode, phase = .opened inode ∧ phase' = readPath json approval dir inode)) ∨
      (∃ seen file, syscall = .createTmp ∧ phase = .loaded seen file ∧
        dir' = (createTmp dir).1 ∧ phase' = .writing seen file (createTmp dir).2 0) ∨
      (∃ seen file inode written size, phase = .writing seen file inode written ∧
        written + size ≤ (json.toVecPretty file).length ∧
        dir' = writeTmp json dir file inode written size ∧
        phase' = .writing seen file inode (written + size)) ∨
      ∃ seen file inode, syscall = .rename ∧
        phase = .writing seen file inode (json.toVecPretty file).length ∧
        (dir', phase') = renameTmp dir := by
  unfold rememberStep at h
  split at h
  · obtain ⟨rfl, rfl⟩ := Prod.mk.inj (Option.some.inj h)
    exact Or.inl ⟨rfl, Or.inr (Or.inl ⟨rfl, rfl⟩)⟩
  · obtain ⟨rfl, rfl⟩ := Prod.mk.inj (Option.some.inj h)
    exact Or.inl ⟨rfl, Or.inr (Or.inr (Or.inl ⟨rfl, rfl⟩))⟩
  · next inode =>
    obtain ⟨rfl, rfl⟩ := Prod.mk.inj (Option.some.inj h)
    exact Or.inl ⟨rfl, Or.inr (Or.inr (Or.inr ⟨inode, rfl, rfl⟩))⟩
  · next seen file =>
    obtain ⟨rfl, rfl⟩ := Prod.mk.inj (Option.some.inj h)
    exact Or.inr (Or.inl ⟨seen, file, rfl, rfl, rfl, rfl⟩)
  · next size seen file inode written =>
    split_ifs at h with hsize
    obtain ⟨rfl, rfl⟩ := Prod.mk.inj (Option.some.inj h)
    exact Or.inr (Or.inr (Or.inl ⟨seen, file, inode, written, size, rfl, hsize, rfl, rfl⟩))
  · next seen file inode written =>
    split_ifs at h with hall
    subst hall
    exact Or.inr (Or.inr (Or.inr ⟨seen, file, inode, rfl, rfl, (Option.some.inj h).symm⟩))
  · exact absurd h.symm (Option.some_ne_none _)
  · obtain ⟨rfl, rfl⟩ := Prod.mk.inj (Option.some.inj h)
    exact Or.inl ⟨rfl, Or.inl rfl⟩
  · exact absurd h.symm (Option.some_ne_none _)

/-! ## What a call has when others work -/

/-- The file in place stays, and no file becomes the one aside that is not new. -/
structure SamePath (dir dir' : ApprovalDir) : Prop where
  path : dir'.path = dir.path
  data (n : ℕ) : dir.path = some n → dir'.data n = dir.data n
  fresh : dir.fresh ≤ dir'.fresh
  tmp (n : ℕ) : n < dir.fresh → dir.tmp ≠ some n → dir'.tmp ≠ some n

theorem SamePath.holds (h : SamePath dir dir') (hbase : Holds json dir base) :
    Holds json dir' base := by
  unfold Holds at hbase ⊢
  rw [h.path]
  cases hpath : dir.path with
  | none =>
    rw [hpath] at hbase
    exact hbase
  | some inode =>
    rw [hpath] at hbase
    dsimp only
    rw [h.data inode hpath]
    exact hbase

theorem SamePath.isStored (h : SamePath dir dir') (hstored : IsStored json dir approval) :
    IsStored json dir' approval := by
  obtain ⟨inode, file, hpath, hread, hmem⟩ := hstored
  refine ⟨inode, file, h.path.trans hpath, ?_, hmem⟩
  rw [h.data inode hpath]
  exact hread

/-- A call keeps what it has, its source and its plan, into any phase with the same ones. -/
theorem Own.of_samePath (h : Own json approval dir phase) (hsame : SamePath dir dir')
    (hsource : phase'.source? = phase.source?) (hplan : phase'.plan? = phase.plan?)
    (haside : ∀ seen file inode written, phase' = .writing seen file inode written →
      dir'.tmp = some inode ∧ dir'.data inode = (json.toVecPretty file).take written ∧
        written ≤ (json.toVecPretty file).length)
    (hstored : phase' = .returned true → phase = .returned true) :
    Own json approval dir' phase' where
  source n hn := by
    obtain ⟨hlt, hne⟩ := h.source n (hsource ▸ hn)
    exact ⟨lt_of_lt_of_le hlt hsame.fresh, hsame.tmp n hlt hne⟩
  plan seen file hfile := by
    obtain ⟨hversion, hbase⟩ := h.plan seen file (hplan ▸ hfile)
    refine ⟨hversion, fun hpath => ?_⟩
    obtain ⟨base, hholds, heq⟩ := hbase (hsame.path ▸ hpath)
    exact ⟨base, hsame.holds hholds, heq⟩
  aside := haside
  stored hret := hsame.isStored (h.stored (hstored hret))

theorem Own.of_not_writing (h : Own json approval dir phase) (hsame : SamePath dir dir')
    (hnot : ¬phase.IsWriting) : Own json approval dir' phase := by
  refine h.of_samePath hsame rfl rfl (fun seen file inode written heq => ?_) id
  subst heq
  exact absurd trivial hnot

/-- A call that has not opened the file aside and has not succeeded. -/
theorem own_before (hsource : ∀ n, phase.source? = some n → n < dir.fresh ∧ dir.tmp ≠ some n)
    (hplan : ∀ seen file, phase.plan? = some (seen, file) → file.schemaVersion < 2 ^ 32 ∧
      (dir.path = seen → ∃ base, Holds json dir base ∧ file = base.add approval))
    (hnot : ¬phase.IsWriting) (hreturned : phase ≠ .returned true) :
    Own json approval dir phase where
  source := hsource
  plan := hplan
  aside seen file inode written heq := by
    subst heq
    exact absurd trivial hnot
  stored heq := absurd heq hreturned

theorem own_failed : Own json approval dir (.returned false) :=
  own_before (fun n hn => by cases hn) (fun seen file hfile => by cases hfile) id
    (fun heq => by cases heq)

theorem own_returned (h : IsStored json dir approval) : Own json approval dir (.returned true) where
  source n hn := by cases hn
  plan seen file hplan := by cases hplan
  aside seen file inode written heq := by cases heq
  stored _ := h

/-! ## Loading -/

theorem absent_version : absent.schemaVersion < 2 ^ 32 := by decide

theorem own_exists : Own json approval dir (exists? approval dir) := by
  unfold exists?
  cases hpath : dir.path with
  | none =>
    refine own_before (fun n hn => by cases hn) (fun seen file hfile => ?_) id
      (fun heq => by cases heq)
    obtain ⟨rfl, rfl⟩ := Prod.mk.inj (Option.some.inj hfile)
    refine ⟨absent_version, fun _ => ⟨absent, ?_, rfl⟩⟩
    rw [Holds, hpath]
  | some inode =>
    exact own_before (fun n hn => by cases hn) (fun seen file hfile => by cases hfile) id
      (fun heq => by cases heq)

theorem own_open (hdir : DirOk dir) : Own json approval dir (openPath dir) := by
  unfold openPath
  cases hpath : dir.path with
  | none => exact own_failed
  | some inode =>
    refine own_before (fun n hn => ?_) (fun seen file hfile => by cases hfile) id
      (fun heq => by cases heq)
    obtain rfl := Option.some.inj hn
    exact ⟨hdir.path_lt inode hpath, fun htmp => hdir.apart inode htmp hpath⟩

theorem own_read {inode : ℕ} (h : Own json approval dir (.opened inode)) :
    Own json approval dir (readPath json approval dir inode) := by
  unfold readPath
  cases hread : json.fromSlice (dir.data inode) with
  | none => exact own_failed
  | some file =>
    refine own_before (fun n hn => h.source n hn) (fun seen plan hplan => ?_) id
      (fun heq => by cases heq)
    obtain ⟨rfl, rfl⟩ := Prod.mk.inj (Option.some.inj hplan)
    have hversion : file.schemaVersion < 2 ^ 32 := json.schemaVersion_lt hread
    refine ⟨hversion, fun hpath => ⟨file, ?_, rfl⟩⟩
    rw [Holds, hpath]
    exact hread

/-! ## Writing -/

theorem createTmp_some {inode : ℕ} (h : dir.tmp = some inode) :
    createTmp dir = ({ dir with data := Function.update dir.data inode [] }, inode) := by
  unfold createTmp
  split
  · next other hother =>
    obtain rfl := Option.some.inj (hother.symm.trans h)
    rfl
  · next hnone => exact absurd (hnone.symm.trans h).symm (Option.some_ne_none _)

theorem createTmp_none (h : dir.tmp = none) :
    createTmp dir = ({ dir with tmp := some dir.fresh, fresh := dir.fresh + 1,
                                data := Function.update dir.data dir.fresh [] }, dir.fresh) := by
  unfold createTmp
  split
  · next other hother => exact absurd (hother.symm.trans h) (Option.some_ne_none _)
  · rfl

theorem createTmp_samePath (hdir : DirOk dir) : SamePath dir (createTmp dir).1 := by
  cases htmp : dir.tmp with
  | some inode =>
    rw [createTmp_some htmp]
    refine ⟨rfl, fun n hn => ?_, le_refl _, fun n _ hne => hne⟩
    have hother : n ≠ inode := fun heq => hdir.apart inode htmp (heq ▸ hn)
    exact Function.update_of_ne hother _ _
  | none =>
    rw [createTmp_none htmp]
    refine ⟨rfl, fun n hn => ?_, Nat.le_succ _, fun n hlt _ => ?_⟩
    · exact Function.update_of_ne (Nat.ne_of_lt (hdir.path_lt n hn)) _ _
    · intro heq
      exact Nat.ne_of_gt hlt (Option.some.inj heq)

theorem createTmp_opened : (createTmp dir).1.tmp = some (createTmp dir).2 ∧
    (createTmp dir).1.data (createTmp dir).2 = [] := by
  cases htmp : dir.tmp with
  | some inode =>
    rw [createTmp_some htmp]
    exact ⟨htmp, Function.update_self _ _ _⟩
  | none =>
    rw [createTmp_none htmp]
    exact ⟨rfl, Function.update_self _ _ _⟩

theorem createTmp_dirOk (hdir : DirOk dir) : DirOk (createTmp dir).1 := by
  cases htmp : dir.tmp with
  | some inode =>
    rw [createTmp_some htmp]
    exact ⟨hdir.path_lt, hdir.tmp_lt, hdir.apart⟩
  | none =>
    rw [createTmp_none htmp]
    refine ⟨fun n hn => Nat.lt_succ_of_lt (hdir.path_lt n hn), fun n hn => ?_, fun n hn hpath => ?_⟩
    · obtain rfl := Option.some.inj hn
      exact Nat.lt_succ_self _
    · obtain rfl := Option.some.inj hn
      exact Nat.lt_irrefl _ (hdir.path_lt _ hpath)

theorem overwrite_take {bytes : List UInt8} {written size : ℕ} (h : written ≤ bytes.length) :
    overwrite (bytes.take written) written ((bytes.drop written).take size) =
      bytes.take (written + size) := by
  have hlength : (bytes.take written).length = written := by
    rw [List.length_take, Nat.min_eq_left h]
  have hdrop : (bytes.take written).drop
      (written + ((bytes.drop written).take size).length) = [] := by
    rw [List.drop_eq_nil_iff, hlength]
    exact Nat.le_add_right _ _
  rw [overwrite, hdrop, List.append_nil, hlength, Nat.sub_self, List.replicate_zero,
    List.append_nil, List.take_take, Nat.min_self, List.take_add]

/-- The file aside that a call writes is not the one in place. -/
theorem writeTmp_samePath (hdir : DirOk dir) {inode written size : ℕ}
    (htmp : dir.tmp = some inode) :
    SamePath dir (writeTmp json dir file inode written size) := by
  refine ⟨rfl, fun n hn => ?_, le_refl _, fun n _ hne => hne⟩
  have hother : n ≠ inode := fun heq => hdir.apart inode htmp (heq ▸ hn)
  exact Function.update_of_ne hother _ _

theorem own_create {seen : Option ℕ} (hdir : DirOk dir)
    (h : Own json approval dir (.loaded seen file)) :
    Own json approval (createTmp dir).1 (.writing seen file (createTmp dir).2 0) := by
  refine h.of_samePath (createTmp_samePath hdir) rfl rfl (fun _ _ _ _ heq => ?_)
    (fun heq => by cases heq)
  obtain ⟨rfl, rfl, rfl, rfl⟩ := Phase.writing.inj heq
  have hopened : (createTmp dir).1.tmp = some (createTmp dir).2 ∧
      (createTmp dir).1.data (createTmp dir).2 = [] := createTmp_opened
  obtain ⟨htmp, hdata⟩ := hopened
  exact ⟨htmp, hdata, Nat.zero_le _⟩

theorem own_write {seen : Option ℕ} {inode written size : ℕ} (hdir : DirOk dir)
    (h : Own json approval dir (.writing seen file inode written))
    (hsize : written + size ≤ (json.toVecPretty file).length) :
    Own json approval (writeTmp json dir file inode written size)
      (.writing seen file inode (written + size)) := by
  obtain ⟨htmp, hdata, hwritten⟩ := h.aside seen file inode written rfl
  refine h.of_samePath (writeTmp_samePath hdir htmp) rfl rfl (fun _ _ _ _ heq => ?_)
    (fun heq => by cases heq)
  obtain ⟨rfl, rfl, rfl, rfl⟩ := Phase.writing.inj heq
  refine ⟨htmp, ?_, hsize⟩
  have hnew : (writeTmp json dir file inode written size).data inode =
      overwrite (dir.data inode) written (((json.toVecPretty file).drop written).take size) :=
    Function.update_self _ _ _
  rw [hnew, hdata, overwrite_take hwritten]

/-! ## The rename -/

section Rename
variable {seen : Option ℕ} {inode : ℕ}

/-- The file that comes into place has what was there, and the approval of the call. -/
theorem renamed_holds
    (h : Own json approval dir (.writing seen file inode (json.toVecPretty file).length))
    (hseen : dir.path = seen) :
    renameTmp dir = ({ dir with path := some inode, tmp := none }, .returned true) ∧
      json.fromSlice (dir.data inode) = some file ∧
        ∃ base, Holds json dir base ∧ file = base.add approval := by
  obtain ⟨htmp, hdata, -⟩ := h.aside seen file inode _ rfl
  obtain ⟨hversion, hbase⟩ := h.plan seen file rfl
  refine ⟨?_, ?_, hbase hseen⟩
  · rw [renameTmp, htmp]
  · rw [hdata, List.take_length, json.fromSlice_toVecPretty file hversion]

/-- What was stored before is in the new file. -/
theorem IsStored.mem_base (hstored : IsStored json dir approval) (hbase : Holds json dir base) :
    approval ∈ base.approvals := by
  obtain ⟨n, old, hpath, hread, hmem⟩ := hstored
  unfold Holds at hbase
  rw [hpath] at hbase
  obtain rfl := Option.some.inj (hread.symm.trans hbase)
  exact hmem

/-- Another call that is not writing has no plan any more that could be stored. -/
theorem Own.of_rename {other : ExecApproval} (h : Own json other dir phase)
    (htmp : dir.tmp = some inode) (hnot : ¬phase.IsWriting)
    (hread : json.fromSlice (dir.data inode) = some file)
    (hadd : file = base.add approval) (hbase : Holds json dir base) :
    Own json other { dir with path := some inode, tmp := none } phase where
  source n hn := ⟨(h.source n hn).1, fun heq => by cases heq⟩
  plan seen plan hplan := by
    refine ⟨(h.plan seen plan hplan).1, fun hpath => ?_⟩
    have hsource : phase.source? = some inode := by
      cases phase with
      | loaded other planned =>
        obtain ⟨rfl, rfl⟩ := Prod.mk.inj (Option.some.inj hplan)
        exact hpath.symm
      | writing other planned opened written => exact absurd trivial hnot
      | called => cases hplan
      | found => cases hplan
      | opened found => cases hplan
      | returned ok => cases hplan
    exact absurd htmp (h.source inode hsource).2
  aside seen file inode written heq := by
    subst heq
    exact absurd trivial hnot
  stored heq := by
    have hmem := (h.stored heq).mem_base hbase
    refine ⟨inode, file, rfl, hread, ?_⟩
    rw [hadd]
    exact mem_add.mpr (Or.inl hmem)

end Rename

/-! ## Runs -/

theorem exists_not_writing : ¬(exists? approval dir).IsWriting := by
  unfold exists?
  cases dir.path <;> exact id

theorem openPath_not_writing : ¬(openPath dir).IsWriting := by
  unfold openPath
  cases dir.path <;> exact id

theorem readPath_not_writing {inode : ℕ} : ¬(readPath json approval dir inode).IsWriting := by
  unfold readPath
  cases json.fromSlice (dir.data inode) <;> exact id

/-- The step of one call keeps the state sound when it keeps what the others have. -/
theorem Sound.update {s : Store Call} (h : Sound json approvals s) (i : Call) (hdir : DirOk dir')
    (hown : Own json (approvals i) dir' phase')
    (hothers : ∀ j, j ≠ i → Own json (approvals j) dir' (s.locals j))
    (hlone : phase'.IsWriting → ∀ j, j ≠ i → ¬(s.locals j).IsWriting) :
    Sound json approvals ⟨dir', Function.update s.locals i phase'⟩ where
  dir := hdir
  own j := by
    dsimp only
    by_cases hj : j = i
    · rw [hj, Function.update_self]
      exact hown
    · rw [Function.update_of_ne hj]
      exact hothers j hj
  lone j k hwj hwk := by
    dsimp only at hwj hwk
    by_cases hj : j = i <;> by_cases hk : k = i
    · rw [hj, hk]
    · rw [hj, Function.update_self] at hwj
      rw [Function.update_of_ne hk] at hwk
      exact absurd hwk (hlone hwj k hk)
    · rw [hk, Function.update_self] at hwk
      rw [Function.update_of_ne hj] at hwj
      exact absurd hwj (hlone hwk j hj)
    · rw [Function.update_of_ne hj] at hwj
      rw [Function.update_of_ne hk] at hwk
      exact h.lone j k hwj hwk

theorem sound_step {s s' : Store Call} {event : Call × Syscall} (h : Sound json approvals s)
    (hallowed : Undisturbed s event)
    (hfire : (rememberCalls json approvals).fire s event = some s') : Sound json approvals s' := by
  obtain ⟨i, syscall⟩ := event
  obtain ⟨dir', phase', hstep, rfl⟩ := Threads.fire_eq_some.mp hfire
  have hmine : Own json (approvals i) s.shared (s.locals i) := h.own i
  have hothers : (s.locals i).IsWriting → ∀ j, j ≠ i → ¬(s.locals j).IsWriting :=
    fun hwi j hj hwj => hj (h.lone j i hwj hwi)
  rcases rememberStep_cases hstep with ⟨rfl, hquiet⟩ | ⟨seen, file, rfl, hphase, rfl, rfl⟩ |
    ⟨seen, file, inode, written, size, hphase, hsize, rfl, rfl⟩ | ⟨seen, file, inode, rfl, hphase,
      hrenamed⟩
  · -- The files stay, and the call goes on with what it has found.
    have hown : Own json (approvals i) s.shared phase' ∧ ¬phase'.IsWriting := by
      rcases hquiet with rfl | ⟨-, rfl⟩ | ⟨-, rfl⟩ | ⟨inode, hphase, rfl⟩
      · exact ⟨own_failed, id⟩
      · exact ⟨own_exists, exists_not_writing⟩
      · exact ⟨own_open h.dir, openPath_not_writing⟩
      · have hphase' : s.locals i = .opened inode := hphase
        rw [hphase'] at hmine
        exact ⟨own_read hmine, readPath_not_writing⟩
    exact h.update i h.dir hown.1 (fun j _ => h.own j) fun hw => absurd hw hown.2
  · have hphase' : s.locals i = .loaded seen file := hphase
    have hlone : ∀ j, j ≠ i → ¬(s.locals j).IsWriting := hallowed.1 rfl
    rw [hphase'] at hmine
    refine h.update i (createTmp_dirOk h.dir) (own_create h.dir hmine) (fun j hj => ?_)
      fun _ => hlone
    exact (h.own j).of_not_writing (createTmp_samePath h.dir) (hlone j hj)
  · have hphase' : s.locals i = .writing seen file inode written := hphase
    rw [hphase'] at hmine hothers
    have htmp := (hmine.aside seen file inode written rfl).1
    refine h.update i ⟨h.dir.path_lt, h.dir.tmp_lt, h.dir.apart⟩ (own_write h.dir hmine hsize)
      (fun j hj => ?_) fun _ => hothers trivial
    exact (h.own j).of_not_writing (writeTmp_samePath h.dir htmp) (hothers trivial j hj)
  · have hphase' : s.locals i = .writing seen file inode (json.toVecPretty file).length := hphase
    have hseen : s.shared.path = seen := hallowed.2 rfl seen file inode _ hphase'
    rw [hphase'] at hmine hothers
    have htmp := (hmine.aside seen file inode _ rfl).1
    obtain ⟨hrename, hread, base, hbase, hadd⟩ := renamed_holds hmine hseen
    obtain ⟨rfl, rfl⟩ := Prod.mk.inj (hrenamed.trans hrename)
    have hstored : Own json (approvals i) { s.shared with path := some inode, tmp := none }
        (.returned true) := by
      refine own_returned ⟨inode, file, rfl, hread, ?_⟩
      rw [hadd]
      exact mem_add.mpr (Or.inr rfl)
    have hdir : DirOk { s.shared with path := some inode, tmp := none } := by
      refine ⟨fun n hn => ?_, fun n hn => (by cases hn), fun n hn => (by cases hn)⟩
      obtain rfl := Option.some.inj hn
      exact h.dir.tmp_lt inode htmp
    refine h.update i hdir hstored (fun j hj => ?_) fun hw => absurd hw id
    exact (h.own j).of_rename htmp (hothers trivial j hj) hread hadd hbase

/-- No call has begun, and the files have different numbers. -/
structure Starts (s : Store Call) : Prop where
  dir : DirOk s.shared
  called (i : Call) : s.locals i = .called

omit [DecidableEq Call] in
theorem Starts.sound {s : Store Call} (h : Starts s) : Sound json approvals s where
  dir := h.dir
  own i := by
    rw [h.called i]
    exact own_before (fun n hn => by cases hn) (fun seen file hfile => by cases hfile) id
      (fun heq => by cases heq)
  lone i j hw := by
    rw [h.called i] at hw
    exact absurd hw id

/-- In a run of undisturbed steps every approval whose call has succeeded is in the file. -/
theorem remembered_stored {s s' : Store Call} {events : List (Call × Syscall)} (hstart : Starts s)
    (hmeets : (rememberCalls json approvals).StepsMeet Undisturbed s events)
    (hrun : (rememberCalls json approvals).run s events = some s') (i : Call)
    (hok : s'.locals i = .returned true) : IsStored json s'.shared (approvals i) := by
  have hsound : Sound json approvals s' :=
    Threads.run_invariant_of_meets (I := Sound json approvals)
      (fun _ _ _ h hallowed hfire => sound_step h hallowed hfire) hstart.sound hmeets hrun
  exact (hsound.own i).stored hok

/-! ## Calls that store one after the other -/

/-- What a call does once it has loaded the file. -/
def storeCalls (json : ApprovalJson) (i : Call) (file : ApprovalFile) : List (Call × Syscall) :=
  [(i, .createTmp), (i, .write (json.toVecPretty file).length), (i, .rename)]

/-- The directory when the text of a file has come into place. -/
def stored (json : ApprovalJson) (file : ApprovalFile) (dir : ApprovalDir) : ApprovalDir where
  path := some dir.fresh
  tmp := none
  data := Function.update (Function.update dir.data dir.fresh []) dir.fresh (json.toVecPretty file)
  fresh := dir.fresh + 1

theorem renameTmp_written (h : dir.tmp = none) :
    renameTmp (writeTmp json (createTmp dir).1 file (createTmp dir).2 0
      (json.toVecPretty file).length) = (stored json file dir, .returned true) := by
  have htext : overwrite [] 0 (json.toVecPretty file) = json.toVecPretty file := by
    simp [overwrite]
  rw [createTmp_none h, writeTmp]
  dsimp only
  rw [List.drop_zero, List.take_length, Function.update_self, htext]
  rfl

/-- A step that neither makes the file aside nor brings it into place disturbs nobody. -/
theorem undisturbed_of_ne {s : Store Call} {i : Call} (hcreate : syscall ≠ .createTmp)
    (hrename : syscall ≠ .rename) : Undisturbed s (i, syscall) :=
  ⟨fun h => absurd h hcreate, fun h => absurd h hrename⟩

theorem stored_data : (stored json file dir).data dir.fresh = json.toVecPretty file :=
  Function.update_self _ _ _

/-- Nobody has a file aside, so the call makes a new one and stores what it has planned. -/
theorem run_storeCalls {s : Store Call} {i : Call} {seen : Option ℕ}
    (hloaded : s.locals i = .loaded seen file) (htmp : s.shared.tmp = none) :
    (rememberCalls json approvals).run s (storeCalls json i file) =
        some ⟨stored json file s.shared, Function.update s.locals i (.returned true)⟩ ∧
      (s.shared.path = seen → (∀ j, j ≠ i → ¬(s.locals j).IsWriting) →
        (rememberCalls json approvals).StepsMeet Undisturbed s (storeCalls json i file)) := by
  let opened : ApprovalDir := (createTmp s.shared).1
  let inode : ℕ := (createTmp s.shared).2
  let full : ApprovalDir := writeTmp json opened file inode 0 (json.toVecPretty file).length
  have hcreate : (rememberCalls json approvals).fire s (i, .createTmp) =
      some ⟨opened, Function.update s.locals i (.writing seen file inode 0)⟩ :=
    Threads.fire_of_step hloaded rfl
  have hwrite : (rememberCalls json approvals).fire
      ⟨opened, Function.update s.locals i (.writing seen file inode 0)⟩
      (i, .write (json.toVecPretty file).length) =
      some ⟨full, Function.update s.locals i
        (.writing seen file inode (json.toVecPretty file).length)⟩ := by
    rw [Threads.fire_of_step (Function.update_self _ _ _) (if_pos (by omega)),
      Function.update_idem, Nat.zero_add]
  have hrename : (rememberCalls json approvals).fire
      ⟨full, Function.update s.locals i
        (.writing seen file inode (json.toVecPretty file).length)⟩ (i, .rename) =
      some ⟨stored json file s.shared, Function.update s.locals i (.returned true)⟩ := by
    rw [Threads.fire_of_step (Function.update_self _ _ _) ((if_pos rfl).trans
      (congrArg some (renameTmp_written htmp))), Function.update_idem]
  constructor
  · refine Threads.run_cons_eq_some.mpr ⟨_, hcreate, Threads.run_cons_eq_some.mpr ⟨_, hwrite, ?_⟩⟩
    exact Threads.run_cons_eq_some.mpr ⟨_, hrename, rfl⟩
  · intro hpath hothers
    refine Threads.stepsMeet_cons ⟨fun _ => hothers, fun h => (by cases h)⟩ fun next hnext => ?_
    obtain rfl := Option.some.inj (hcreate.symm.trans hnext)
    refine Threads.stepsMeet_cons (undisturbed_of_ne (fun h => by cases h) fun h => by cases h)
      fun next hnext => ?_
    obtain rfl := Option.some.inj (hwrite.symm.trans hnext)
    refine Threads.stepsMeet_cons ⟨fun h => (by cases h), fun _ other plan n written hw => ?_⟩
      fun _ _ => Threads.stepsMeet_nil
    have hmine := (Function.update_self i _ s.locals).symm.trans hw
    obtain ⟨rfl, -, -, -⟩ := Phase.writing.inj hmine
    have hsame : full.path = s.shared.path := by
      have hopened : opened.path = s.shared.path := by
        show (createTmp s.shared).1.path = _
        rw [createTmp_none htmp]
      exact hopened
    exact hsame.trans hpath

end Calls

/-! ## Two calls -/

section Two
variable {json : ApprovalJson} {approvals : Bool → ExecApproval}

/-- Nothing is stored and no call has begun. -/
def before : Store Bool := ⟨⟨none, none, fun _ => [], 0⟩, fun _ => .called⟩

theorem before_starts : Starts before where
  dir := ⟨fun n hn => (by cases hn), fun n hn => (by cases hn), fun n hn => (by cases hn)⟩
  called _ := rfl

/-- What a first call plans to store. -/
def firstFile (approval : ExecApproval) : ApprovalFile := absent.add approval

variable (json approvals) in
/-- Both calls find no file, and each stores what it has planned. -/
def overlapping : List (Bool × Syscall) :=
  [(false, .exists?), (true, .exists?)] ++ storeCalls json false (firstFile (approvals false)) ++
    storeCalls json true (firstFile (approvals true))

theorem run_overlapping : ∃ s', (rememberCalls json approvals).run before
      (overlapping json approvals) = some s' ∧ (∀ i, s'.locals i = .returned true) ∧
        ∃ inode, s'.shared.path = some inode ∧
          s'.shared.data inode = json.toVecPretty (firstFile (approvals true)) := by
  let loaded : Store Bool := ⟨before.shared, Function.update (Function.update before.locals false
    (.loaded none (firstFile (approvals false)))) true (.loaded none (firstFile (approvals true)))⟩
  let middle : Store Bool := ⟨stored json (firstFile (approvals false)) loaded.shared,
    Function.update loaded.locals false (.returned true)⟩
  have hload : (rememberCalls json approvals).run before [(false, .exists?), (true, .exists?)] =
      some loaded := rfl
  have hfalse : loaded.locals false = .loaded none (firstFile (approvals false)) := rfl
  have htrue : middle.locals true = .loaded none (firstFile (approvals true)) := rfl
  have hstore : (rememberCalls json approvals).run loaded
      (storeCalls json false (firstFile (approvals false))) = some middle :=
    (run_storeCalls hfalse rfl).1
  have hboth := Threads.run_append_eq_some.mpr ⟨loaded, hload, hstore⟩
  refine ⟨_, Threads.run_append_eq_some.mpr ⟨middle, hboth, (run_storeCalls htrue rfl).1⟩,
    fun i => ?_, _, rfl, stored_data⟩
  cases i <;> rfl

/-- The one that is stored first is not in the file. -/
theorem overlapping_lost (h : approvals false ≠ approvals true) :
    ∃ s', (rememberCalls json approvals).run before (overlapping json approvals) = some s' ∧
      (∀ i, s'.locals i = .returned true) ∧ ¬IsStored json s'.shared (approvals false) := by
  obtain ⟨s', hrun, hok, inode, hpath, hdata⟩ : ∃ s', (rememberCalls json approvals).run before
      (overlapping json approvals) = some s' ∧ (∀ i, s'.locals i = .returned true) ∧
        ∃ inode, s'.shared.path = some inode ∧
          s'.shared.data inode = json.toVecPretty (firstFile (approvals true)) := run_overlapping
  refine ⟨s', hrun, hok, fun hstored => ?_⟩
  obtain ⟨other, file, hother, hread, hmem⟩ := hstored
  obtain rfl := Option.some.inj (hpath.symm.trans hother)
  have hversion : (firstFile (approvals true)).schemaVersion < 2 ^ 32 := absent_version
  rw [hdata, json.fromSlice_toVecPretty _ hversion] at hread
  obtain rfl := Option.some.inj hread
  rcases mem_add.mp hmem with habsent | heq
  · cases habsent
  · exact h heq

variable (json approvals) in
/-- The second call begins when the first has returned. -/
def successive : List (Bool × Syscall) :=
  (false, .exists?) :: storeCalls json false (firstFile (approvals false)) ++
    (true, .exists?) :: (true, .open) :: (true, .read) ::
      storeCalls json true ((firstFile (approvals false)).add (approvals true))

theorem run_successive : ∃ s', (rememberCalls json approvals).run before
    (successive json approvals) = some s' ∧ (∀ i, s'.locals i = .returned true) ∧
      (rememberCalls json approvals).StepsMeet Undisturbed before (successive json approvals) := by
  let file : ApprovalFile := firstFile (approvals false)
  let loaded : Store Bool :=
    ⟨before.shared, Function.update before.locals false (.loaded none file)⟩
  let middle : Store Bool :=
    ⟨stored json file loaded.shared, Function.update loaded.locals false (.returned true)⟩
  let later (phase : Phase) : Store Bool :=
    ⟨middle.shared, Function.update middle.locals true phase⟩
  let plan : Phase := .loaded (some 0) (file.add (approvals true))
  have hread : readPath json (approvals true) middle.shared 0 = plan := by
    have hdata : middle.shared.data 0 = json.toVecPretty file := stored_data
    rw [readPath, hdata, json.fromSlice_toVecPretty file absent_version]
  have hnext (phase phase' : Phase) : (⟨(later phase).shared,
      Function.update (later phase).locals true phase'⟩ : Store Bool) = later phase' :=
    congrArg (Threads.State.mk middle.shared) (Function.update_idem _ _ _)
  have h1 : (rememberCalls json approvals).fire before (false, .exists?) = some loaded := rfl
  have h2 : (rememberCalls json approvals).fire middle (true, .exists?) = some (later .found) := rfl
  have h3 : (rememberCalls json approvals).fire (later .found) (true, .open) =
      some (later (.opened 0)) :=
    (Threads.fire_of_step rfl rfl).trans (congrArg some (hnext .found (.opened 0)))
  have h4 : (rememberCalls json approvals).fire (later (.opened 0)) (true, .read) =
      some (later plan) := by
    rw [← hnext (.opened 0) plan, ← hread]
    exact Threads.fire_of_step rfl rfl
  have hfalse : loaded.locals false = .loaded none file := rfl
  have htrue : (later plan).locals true = plan := rfl
  have hfirst : (rememberCalls json approvals).run loaded (storeCalls json false file) =
      some middle := (run_storeCalls hfalse rfl).1
  have hsecond : (rememberCalls json approvals).run (later plan)
      (storeCalls json true (file.add (approvals true))) =
      some ⟨stored json (file.add (approvals true)) middle.shared,
        Function.update (later plan).locals true (.returned true)⟩ := (run_storeCalls htrue rfl).1
  have hfront : (rememberCalls json approvals).run before
      ((false, .exists?) :: storeCalls json false file) = some middle :=
    Threads.run_cons_eq_some.mpr ⟨loaded, h1, hfirst⟩
  have hback := Threads.run_cons_eq_some.mpr ⟨_, h2, Threads.run_cons_eq_some.mpr ⟨_, h3,
    Threads.run_cons_eq_some.mpr ⟨_, h4, hsecond⟩⟩⟩
  refine ⟨_, Threads.run_append_eq_some.mpr ⟨middle, hfront, hback⟩, fun i => ?_, ?_⟩
  · cases i <;> rfl
  · have hquiet (i : Bool) (syscall : Syscall) (s : Store Bool)
        (hne : syscall ≠ .createTmp ∧ syscall ≠ .rename) : Undisturbed s (i, syscall) :=
      undisturbed_of_ne hne.1 hne.2
    refine Threads.stepsMeet_append (Threads.stepsMeet_cons (hquiet _ _ _ (by decide))
      fun next hnext => ?_) fun next hnext => ?_
    · obtain rfl := Option.some.inj (h1.symm.trans hnext)
      refine (run_storeCalls hfalse rfl).2 rfl fun j hj => ?_
      cases j with
      | false => exact absurd rfl hj
      | true => exact id
    · obtain rfl := Option.some.inj (hfront.symm.trans hnext)
      refine Threads.stepsMeet_cons (hquiet _ _ _ (by decide)) fun next hnext => ?_
      obtain rfl := Option.some.inj (h2.symm.trans hnext)
      refine Threads.stepsMeet_cons (hquiet _ _ _ (by decide)) fun next hnext => ?_
      obtain rfl := Option.some.inj (h3.symm.trans hnext)
      refine Threads.stepsMeet_cons (hquiet _ _ _ (by decide)) fun next hnext => ?_
      obtain rfl := Option.some.inj (h4.symm.trans hnext)
      refine (run_storeCalls htrue rfl).2 rfl fun j hj => ?_
      cases j with
      | false => exact id
      | true => exact absurd rfl hj

/-- What two users approve for two packages. -/
def twoApprovals : Bool → ExecApproval
  | false => ⟨"left-pad", "1.3.0", "sha512-a", [], "none", false⟩
  | true => ⟨"right-pad", "1.0.1", "sha512-b", ["network"], "none", true⟩

/-- Both calls succeed and the approval of the first is lost. -/
theorem remembered_lost : Starts before ∧ ∃ s', (rememberCalls approvalJson twoApprovals).run before
    (overlapping approvalJson twoApprovals) = some s' ∧ (∀ i, s'.locals i = .returned true) ∧
      ¬IsStored approvalJson s'.shared (twoApprovals false) :=
  ⟨before_starts, overlapping_lost (by decide)⟩

/-- One after the other both are kept. -/
theorem remembered_stored_two : ∃ s', (rememberCalls approvalJson twoApprovals).run before
    (successive approvalJson twoApprovals) = some s' ∧ ∀ i, s'.locals i = .returned true ∧
      IsStored approvalJson s'.shared (twoApprovals i) := by
  obtain ⟨s', hrun, hok, hmeets⟩ : ∃ s', (rememberCalls approvalJson twoApprovals).run before
      (successive approvalJson twoApprovals) = some s' ∧ (∀ i, s'.locals i = .returned true) ∧
        (rememberCalls approvalJson twoApprovals).StepsMeet Undisturbed before
          (successive approvalJson twoApprovals) := run_successive
  exact ⟨s', hrun, fun i => ⟨hok i, remembered_stored before_starts hmeets hrun i (hok i)⟩⟩

end Two

end Oath.Cli.Approvals
