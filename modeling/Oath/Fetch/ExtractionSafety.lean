import Mathlib.Data.List.Infix
import Oath.Fetch.Tarball
import Oath.Fetch.InstalledFiles

/-! What is kept by every step of an extraction, also by one that ends with an error: files are made
for regular entries and below the destination, directories there or on the way to it, and neither
limit is exceeded. -/

namespace Oath.Fetch.Calls
open Unix Registry Traces

def Event.isEntry : Event → Bool
  | .entry _ => true
  | .call _ _ => false

/-- The bytes handed over for writing. -/
def Event.size : Event → ℕ
  | .call (.write _ bytes) _ => bytes.length
  | _ => 0

/-- The number of entries that have been taken up. -/
def processed (events : List Event) : ℕ := events.countP Event.isEntry

def written (events : List Event) : ℕ := (events.map Event.size).sum

@[simp] theorem processed_append (events more : List Event) :
    processed (events ++ more) = processed events + processed more := List.countP_append

@[simp] theorem written_append (events more : List Event) :
    written (events ++ more) = written events + written more := by
  rw [written, List.map_append, List.sum_append, written, written]

/-- The path is the destination or below it. -/
def InDest (dest path : List Component) : Prop :=
  ∃ names : List Name, path = dest ++ names.map .normal

/-- The path is that of a regular entry of the archive. -/
def IsRegularFile (dest : List Component) (limits : TarballLimits)
    (items : List (Except String TarEntry)) (path : List Component) : Prop :=
  ∃ e relative, .ok e ∈ items ∧ e.entryType = .regular ∧
    sanitizeTarPath e.path limits = .ok (some relative) ∧ path = fullPath dest relative

def Allowed (dest : List Component) (limits : TarballLimits)
    (items : List (Except String TarEntry)) : Event → Prop
  | .entry _ => True
  | .call (.isDir _) _ => True
  | .call (.createDir path) _ => path <+: dest ∨ InDest dest path
  | .call (.createFile path) _ => IsRegularFile dest limits items path
  | .call (.write path _) _ => IsRegularFile dest limits items path
  | .call (.setPermissions path _) _ => IsRegularFile dest limits items path
  | .call (.makeOther _) _ => False

/-- A call that makes or looks at a directory on the way to a place. -/
inductive DirCall (path : List Component) : Event → Prop
  | createDir {p : List Component} (h : p <+: path) (reply : Reply) :
      DirCall path (.call (.createDir p) reply)
  | isDir {p : List Component} (h : p <+: path) (reply : Reply) :
      DirCall path (.call (.isDir p) reply)

/-- A call that makes or changes the file at a place. -/
inductive FileCall (path : List Component) : Event → Prop
  | createFile (reply : Reply) : FileCall path (.call (.createFile path) reply)
  | write (bytes : List UInt8) (reply : Reply) : FileCall path (.call (.write path bytes) reply)
  | setPermissions (mode : ℕ) (reply : Reply) :
      FileCall path (.call (.setPermissions path mode) reply)

section Events
variable {dest path : List Component} {limits : TarballLimits}
  {items more : List (Except String TarEntry)} {event : Event} {new : List Event}

theorem DirCall.mono {other : List Component} (h : DirCall path event) (hpath : path <+: other) :
    DirCall other event := by
  cases h with
  | createDir h reply => exact .createDir (h.trans hpath) reply
  | isDir h reply => exact .isDir (h.trans hpath) reply

theorem processed_dirCalls (h : ∀ event ∈ new, DirCall path event) : processed new = 0 := by
  refine List.countP_eq_zero.mpr fun event hevent => ?_
  cases h event hevent <;> exact Bool.false_ne_true

theorem written_eq_zero (h : ∀ event ∈ new, event.size = 0) : written new = 0 := by
  induction new with
  | nil => rfl
  | cons event new ih =>
    obtain ⟨hevent, hnew⟩ := List.forall_mem_cons.mp h
    have hrest : (new.map Event.size).sum = 0 := ih hnew
    rw [written, List.map_cons, List.sum_cons, hevent, hrest]

theorem DirCall.size (h : DirCall path event) : event.size = 0 := by
  cases h <;> rfl

theorem processed_fileCalls (h : ∀ event ∈ new, FileCall path event) : processed new = 0 := by
  refine List.countP_eq_zero.mpr fun event hevent => ?_
  cases h event hevent <;> exact Bool.false_ne_true

theorem DirCall.allowed (h : DirCall path event) (hpath : path <+: dest ∨ InDest dest path) :
    Allowed dest limits items event := by
  cases h with
  | isDir _ reply => trivial
  | @createDir p hp reply =>
    rcases hpath with hdest | ⟨names, rfl⟩
    · exact Or.inl (hp.trans hdest)
    · rcases List.prefix_or_prefix_of_prefix hp (List.prefix_append dest _) with hup | ⟨rest, rfl⟩
      · exact Or.inl hup
      · have hrest : rest <+: names.map .normal := (List.prefix_append_right_inj dest).mp hp
        refine Or.inr ⟨names.take rest.length, ?_⟩
        rw [List.map_take, ← List.prefix_iff_eq_take.mp hrest]

theorem FileCall.allowed (h : FileCall path event) (hpath : IsRegularFile dest limits items path) :
    Allowed dest limits items event := by
  cases h <;> exact hpath

theorem IsRegularFile.mono (h : IsRegularFile dest limits items path) (hsub : items ⊆ more) :
    IsRegularFile dest limits more path := by
  obtain ⟨e, relative, hmem, hrest⟩ := h
  exact ⟨e, relative, hsub hmem, hrest⟩

theorem Allowed.mono (h : Allowed dest limits items event) (hsub : items ⊆ more) :
    Allowed dest limits more event := by
  cases event with
  | entry item => trivial
  | call request reply =>
    cases request with
    | isDir path => trivial
    | createDir path => exact h
    | createFile path => exact IsRegularFile.mono h hsub
    | write path bytes => exact IsRegularFile.mono h hsub
    | setPermissions path mode => exact IsRegularFile.mono h hsub
    | makeOther path => exact h

end Events

/-! ## The calls of each step -/

section Steps
variable {system : System} {dest path : List Component} {limits : TarballLimits} {e : TarEntry}

theorem records_isDir : Records (DirCall path) (isDir system path) :=
  records_bind (records_ask fun reply => .isDir List.prefix_rfl reply) fun _ => records_pure _

theorem records_createAgain : Records (DirCall path) (createAgain system path) := by
  refine records_bind (records_ask fun reply => .createDir List.prefix_rfl reply) fun reply => ?_
  split_ifs
  · exact records_pure _
  · exact records_isDir

/-- Directories are made on the way to the path, and the path itself. -/
theorem records_createDirs (up : List Component) :
    Records (DirCall up.reverse) (createDirs system up) := by
  induction up with
  | nil => exact records_pure _
  | cons part up ih =>
    have hup : up.reverse <+: (part :: up).reverse := by
      rw [List.reverse_cons]
      exact List.prefix_append _ _
    rw [createDirs]
    refine records_bind (records_ask fun reply => .createDir List.prefix_rfl reply) fun reply => ?_
    cases reply with
    | done => exact records_pure _
    | failed => exact records_isDir
    | notFound =>
      dsimp only
      split_ifs
      · exact records_pure _
      · refine records_bind (ih.mono fun _ h => h.mono hup) fun made => ?_
        split_ifs
        · exact records_createAgain
        · exact records_pure _

theorem records_createDirAll : Records (DirCall path) (createDirAll system path) := by
  have hpath : Records (DirCall path) (createDirs system path.reverse) := by
    have hdirs : Records (DirCall path.reverse.reverse) (createDirs system path.reverse) :=
      records_createDirs path.reverse
    rwa [List.reverse_reverse] at hdirs
  refine records_bind hpath fun made => ?_
  split_ifs
  · exact records_pure _
  · exact records_throw _

/-- Nothing is written for a mode. -/
theorem records_setExecutable : Records (fun event => FileCall path event ∧ event.size = 0)
    (setExecutable system path e) := by
  unfold setExecutable
  split_ifs
  · exact records_pure _
  · refine records_bind (records_ask fun reply => ⟨.setPermissions _ reply, rfl⟩) fun reply => ?_
    split_ifs
    · exact records_pure _
    · exact records_throw _

/-- The calls for one file, and no more bytes than the entry has. -/
def FileCalls (path : List Component) (e : TarEntry) (new : List Event) : Prop :=
  (∀ event ∈ new, FileCall path event) ∧ written new ≤ e.data.bytes.length

theorem run_copyEntry : Run (copyEntry system path e) fun _ new => FileCalls path e new := by
  have hwrite : ∀ reply, FileCalls path e [.call (.write path e.data.bytes) reply] := by
    intro reply
    refine ⟨List.forall_mem_singleton.mpr (.write _ reply), ?_⟩
    rw [written, List.map_singleton, List.sum_singleton, Event.size]
  have hcall : Run (call system (.write path e.data.bytes)) fun _ new => FileCalls path e new :=
    run_ask hwrite
  refine run_bind hcall (fun _ _ h => h) fun reply new hnew => ?_
  split_ifs
  · refine Run.mono records_setExecutable fun _ more hmore => ⟨?_, ?_⟩
    · refine List.forall_mem_append.mpr ⟨hnew.1, fun event hevent => (hmore event hevent).1⟩
    · rw [written_append, written_eq_zero fun event hevent => (hmore event hevent).2]
      exact hnew.2
  · exact run_throw (by rwa [List.append_nil])

theorem run_writeEntry : Run (writeEntry system path e) fun _ new => FileCalls path e new := by
  have hcreate : Records (fun event => FileCall path event ∧ event.size = 0)
      (call system (.createFile path)) := records_ask fun reply => ⟨.createFile reply, rfl⟩
  refine run_bind hcreate (fun _ new h => ?_) fun reply new h => ?_
  · refine ⟨fun event hevent => (h event hevent).1, ?_⟩
    rw [written_eq_zero fun event hevent => (h event hevent).2]
    exact Nat.zero_le _
  · have hfiles : ∀ event ∈ new, FileCall path event := fun event hevent => (h event hevent).1
    have hzero : written new = 0 := written_eq_zero fun event hevent => (h event hevent).2
    split_ifs
    · refine run_copyEntry.mono fun _ more hmore => ⟨?_, ?_⟩
      · exact List.forall_mem_append.mpr ⟨hfiles, hmore.1⟩
      · rw [written_append, hzero, Nat.zero_add]
        exact hmore.2
    · refine run_throw ⟨?_, ?_⟩
      · rwa [List.append_nil]
      · rw [List.append_nil, hzero]
        exact Nat.zero_le _

end Steps

/-! ## Entries -/

section Entries
variable {system : System} {dest : List Component} {limits : TarballLimits}
  {items : List (Except String TarEntry)} {e : TarEntry} {relative : List Name}
  {unpacked count : ℕ}

theorem dropLast_fullPath (hne : relative ≠ []) :
    InDest dest (fullPath dest relative).dropLast := by
  have hnames : (normalizeIgnore relative).map Component.normal ≠ [] := by
    rw [Ne, List.map_eq_nil_iff]
    exact normalizeIgnore_ne_nil hne
  refine ⟨(normalizeIgnore relative).dropLast, ?_⟩
  rw [fullPath, List.dropLast_append_of_ne_nil hnames, List.map_dropLast]

/-- What one entry does: its calls are allowed, no entry is taken up and the limit is kept with what
is written. -/
structure EntryDone (dest : List Component) (limits : TarballLimits)
    (items : List (Except String TarEntry)) (unpacked : ℕ) (answer : Except String ℕ)
    (new : List Event) : Prop where
  allowed : ∀ event ∈ new, Allowed dest limits items event
  processed : processed new = 0
  written : unpacked + written new ≤ limits.maxUnpackedBytes
  next (n : ℕ) : answer = .ok n → unpacked + Calls.written new ≤ n ∧ n ≤ limits.maxUnpackedBytes

theorem entryDone_nil (hle : unpacked ≤ limits.maxUnpackedBytes) {answer : Except String ℕ}
    (hanswer : ∀ n, answer = .ok n → n = unpacked) :
    EntryDone dest limits items unpacked answer [] := by
  refine ⟨fun _ hmem => absurd hmem List.not_mem_nil, rfl, hle, fun n hn => ?_⟩
  rw [hanswer n hn]
  exact ⟨le_refl _, hle⟩

theorem run_extractRegular (hmem : .ok e ∈ items) (htype : e.entryType = .regular)
    (hpath : sanitizeTarPath e.path limits = .ok (some relative)) (hne : relative ≠ [])
    (hle : unpacked ≤ limits.maxUnpackedBytes)
    (hsize : e.data.bytes.length ≤ e.size.toNat) :
    Run (extractRegular system dest limits e relative unpacked)
      (EntryDone dest limits items unpacked) := by
  have hfile : IsRegularFile dest limits items (fullPath dest relative) :=
    ⟨e, relative, hmem, htype, hpath, rfl⟩
  unfold extractRegular
  dsimp only
  split_ifs with hoverflow hlimit
  · exact run_throw (entryDone_nil hle fun n hn => by cases hn)
  · exact run_throw (entryDone_nil hle fun n hn => by cases hn)
  · have hdirs : ∀ new : List Event,
        (∀ event ∈ new, DirCall (fullPath dest relative).dropLast event) →
          (∀ event ∈ new, Allowed dest limits items event) ∧ processed new = 0 ∧
            written new = 0 := by
      intro new hnew
      refine ⟨fun event hevent => (hnew event hevent).allowed (Or.inr (dropLast_fullPath hne)),
        processed_dirCalls hnew, written_eq_zero fun event hevent => (hnew event hevent).size⟩
    refine run_bind records_createDirAll (fun _ new hnew => ?_) fun _ new hnew => ?_
    · obtain ⟨hallowed, hprocessed, hzero⟩ := hdirs new hnew
      refine ⟨hallowed, hprocessed, by omega, fun n hn => by cases hn⟩
    · obtain ⟨hallowed, hprocessed, hzero⟩ := hdirs new hnew
      have hfiles : ∀ more, FileCalls (fullPath dest relative) e more →
          (∀ event ∈ new ++ more, Allowed dest limits items event) ∧ processed (new ++ more) = 0 ∧
            written (new ++ more) ≤ e.data.bytes.length := by
        intro more hmore
        refine ⟨List.forall_mem_append.mpr
          ⟨hallowed, fun event hevent => (hmore.1 event hevent).allowed hfile⟩, ?_, ?_⟩
        · rw [processed_append, hprocessed, processed_fileCalls hmore.1]
        · rw [written_append, hzero, Nat.zero_add]
          exact hmore.2
      refine run_bind run_writeEntry (fun _ more hmore => ?_) fun _ more hmore => run_pure ?_
      · obtain ⟨hcalls, hnone, hbytes⟩ := hfiles more hmore
        exact ⟨hcalls, hnone, by omega, fun n hn => by cases hn⟩
      · obtain ⟨hcalls, hnone, hbytes⟩ := hfiles more hmore
        rw [List.append_nil]
        refine ⟨hcalls, hnone, by omega, fun n hn => ?_⟩
        obtain rfl := Except.ok.inj hn
        omega

theorem sanitizeTarPath_ne_nil {path : List UInt8}
    (h : sanitizeTarPath path limits = .ok (some relative)) : relative ≠ [] := by
  obtain ⟨parts, -, hrelative⟩ := sanitizeTarPath_ok h
  split_ifs at hrelative with hempty
  obtain rfl := Option.some.inj hrelative
  intro hnil
  exact hempty (List.isEmpty_iff.mpr hnil)

/-- The item is not skipped with an error: a regular file, a directory, or what is not below the
leading directory. -/
def IsTaken (limits : TarballLimits) (item : Except String TarEntry) : Prop :=
  ∃ e, item = .ok e ∧
    (e.entryType = .regular ∨ e.entryType = .directory ∨ sanitizeTarPath e.path limits = .ok none)

/-- The data of the entries are no longer than their headers say. -/
def Sized (items : List (Except String TarEntry)) : Prop :=
  ∀ e, .ok e ∈ items → e.data.bytes.length ≤ e.size.toNat

theorem run_extractItem {item : Except String TarEntry} (hsized : Sized items)
    (hmem : item ∈ items) (hle : unpacked ≤ limits.maxUnpackedBytes) :
    Run (extractItem system dest limits item unpacked) (EntryDone dest limits items unpacked) := by
  cases item with
  | error message => exact run_throw (entryDone_nil hle fun n hn => by cases hn)
  | ok e =>
    unfold extractItem extractEntry
    dsimp only
    cases hpath : sanitizeTarPath e.path limits with
    | error message => exact run_throw (entryDone_nil hle fun n hn => by cases hn)
    | ok relative? =>
      cases relative? with
      | none => exact run_pure (entryDone_nil hle fun n hn => (Except.ok.inj hn).symm)
      | some relative =>
        cases htype : e.entryType with
        | directory => exact run_pure (entryDone_nil hle fun n hn => (Except.ok.inj hn).symm)
        | other kind => exact run_throw (entryDone_nil hle fun n hn => by cases hn)
        | regular =>
          exact run_extractRegular hmem htype hpath (sanitizeTarPath_ne_nil hpath) hle
            (hsized e hmem)

/-- An entry of another type ends the extraction. -/
theorem isTaken_of_extractItem {item : Except String TarEntry} {log : List Event} {n : ℕ}
    (h : (extractItem system dest limits item unpacked log).answer = .ok n) :
    IsTaken limits item := by
  cases item with
  | error message => cases h
  | ok e =>
    refine ⟨e, rfl, ?_⟩
    unfold extractItem extractEntry at h
    dsimp only at h
    cases hpath : sanitizeTarPath e.path limits with
    | error message =>
      rw [hpath] at h
      cases h
    | ok relative? =>
      cases relative? with
      | none => exact Or.inr (Or.inr rfl)
      | some relative =>
        cases htype : e.entryType with
        | directory => exact Or.inr (Or.inl rfl)
        | regular => exact Or.inl rfl
        | other kind =>
          rw [hpath] at h
          simp only [htype] at h
          cases h

end Entries

/-! ## The loop -/

section Loop
variable {system : System} {dest : List Component} {limits : TarballLimits}
  {items : List (Except String TarEntry)} {unpacked count : ℕ}

structure LoopDone (dest : List Component) (limits : TarballLimits)
    (items : List (Except String TarEntry)) (count unpacked : ℕ) (answer : Except String Unit)
    (new : List Event) : Prop where
  allowed : ∀ event ∈ new, Allowed dest limits items event
  processed : count + processed new ≤ limits.maxEntries
  written : unpacked + written new ≤ limits.maxUnpackedBytes
  taken : answer = .ok () → ∀ item ∈ items, IsTaken limits item

theorem loopDone_error (hcount : count ≤ limits.maxEntries)
    (hle : unpacked ≤ limits.maxUnpackedBytes) (message : String) :
    LoopDone dest limits items count unpacked (.error message) [] :=
  ⟨fun _ hmem => absurd hmem List.not_mem_nil, hcount, hle, fun h => by cases h⟩

/-- One more entry keeps both limits, and the rest of the loop starts from there. -/
theorem run_extractLoop (hsized : Sized items) (hcount : count ≤ limits.maxEntries)
    (hle : unpacked ≤ limits.maxUnpackedBytes) :
    Run (extractLoop system dest limits items count unpacked)
      (LoopDone dest limits items count unpacked) := by
  induction items generalizing count unpacked with
  | nil =>
    exact run_pure ⟨fun _ hmem => absurd hmem List.not_mem_nil, hcount, hle,
      fun _ _ hmem => absurd hmem List.not_mem_nil⟩
  | cons item rest ih =>
    have hrest : Sized rest := fun e he => hsized e (List.mem_cons_of_mem item he)
    unfold extractLoop
    dsimp only
    split_ifs with hoverflow hlimit
    · exact run_throw (loopDone_error hcount hle _)
    · exact run_throw (loopDone_error hcount hle _)
    · have hmore : count + 1 ≤ limits.maxEntries := Nat.not_lt.mp hlimit
      have hemit : Run (emit (.entry item) : Action Unit) fun _ new => new = [.entry item] :=
        run_emit rfl
      have hentry : processed [Event.entry item] = 1 ∧ written [Event.entry item] = 0 := ⟨rfl, rfl⟩
      have hallowed : ∀ event ∈ [Event.entry item], Allowed dest limits (item :: rest) event :=
        List.forall_mem_singleton.mpr trivial
      have hitem : Run (extractItem system dest limits item unpacked) fun answer new =>
          EntryDone dest limits (item :: rest) unpacked answer new ∧
            ∀ n, answer = .ok n → IsTaken limits item := by
        intro log
        obtain ⟨new, hstate, hdone⟩ := run_extractItem hsized List.mem_cons_self hle log
        exact ⟨new, hstate, hdone, fun n hn => isTaken_of_extractItem hn⟩
      refine run_bind hemit (fun _ new hnew => ?_) fun _ new hnew => ?_
      · subst hnew
        refine ⟨hallowed, ?_, ?_, fun h => by cases h⟩
        · rw [hentry.1]
          exact hmore
        · rw [hentry.2]
          exact hle
      · subst hnew
        refine run_bind hitem (fun _ new hdone => ?_) fun n new hdone => ?_
        · have hprocessed := hdone.1.processed
          have hwritten := hdone.1.written
          refine ⟨List.forall_mem_append.mpr ⟨hallowed, hdone.1.allowed⟩, ?_, ?_,
            fun h => by cases h⟩
          · rw [processed_append]
            omega
          · rw [written_append]
            omega
        · obtain ⟨hkept, hnext⟩ := hdone.1.next n rfl
          have hprocessed := hdone.1.processed
          refine (ih hrest hmore hnext).mono fun answer more hloop => ⟨?_, ?_, ?_, fun h => ?_⟩
          · have hcalls : ∀ event ∈ more, Allowed dest limits (item :: rest) event :=
              fun event hevent => (hloop.allowed event hevent).mono (List.subset_cons_self _ _)
            exact List.forall_mem_append.mpr
              ⟨hallowed, List.forall_mem_append.mpr ⟨hdone.1.allowed, hcalls⟩⟩
          · have hrun := hloop.processed
            rw [processed_append, processed_append]
            omega
          · have hrun := hloop.written
            rw [written_append, written_append]
            omega
          · exact List.forall_mem_cons.mpr ⟨hdone.2 n rfl, hloop.taken h⟩

end Loop

/-! ## The archive -/

section Archive
variable {system : System} {decode : DecodeTarball} {data : List UInt8} {dest : List Component}
  {limits : TarballLimits} {base : Location}

/-- What has happened up to the end of an extraction, or up to the error that ended it. A file is
made and written for a regular entry alone, below the destination; a directory is made there or is
one of those that the destination is in; nothing else is made. -/
structure IsSafe (decode : DecodeTarball) (data : List UInt8) (dest : List Component)
    (limits : TarballLimits) (base : Location) (answer : Except String Unit) (log : List Event) :
    Prop where
  createFile (path : List Component) (reply : Reply) : .call (.createFile path) reply ∈ log →
    ∃ names, names ≠ [] ∧ resolve base path = resolve base dest ++ names
  write (path : List Component) (bytes : List UInt8) (reply : Reply) :
    .call (.write path bytes) reply ∈ log →
      ∃ names, names ≠ [] ∧ resolve base path = resolve base dest ++ names
  createDir (path : List Component) (reply : Reply) : .call (.createDir path) reply ∈ log →
    resolve base dest <+: resolve base path ∨ path <+: dest
  makeOther (path : List Component) (reply : Reply) : .call (.makeOther path) reply ∉ log
  regular (path : List Component) (reply : Reply) : .call (.createFile path) reply ∈ log →
    ∃ items, decode data = .ok items ∧ IsRegularFile dest limits items path
  taken : answer = .ok () → ∃ items, decode data = .ok items ∧ ∀ item ∈ items, IsTaken limits item
  entries : processed log ≤ limits.maxEntries
  bytes : written log ≤ limits.maxUnpackedBytes

theorem resolve_fullPath {relative : List Name} :
    resolve base (fullPath dest relative) = resolve base dest ++ normalizeIgnore relative := by
  rw [fullPath, resolve_append, resolve_normal]

theorem IsRegularFile.resolve {items : List (Except String TarEntry)} {path : List Component}
    (h : IsRegularFile dest limits items path) :
    ∃ names, names ≠ [] ∧ resolve base path = resolve base dest ++ names := by
  obtain ⟨e, relative, -, -, hpath, rfl⟩ := h
  exact ⟨normalizeIgnore relative, normalizeIgnore_ne_nil (sanitizeTarPath_ne_nil hpath),
    resolve_fullPath⟩

theorem InDest.resolve {path : List Component} (h : InDest dest path) :
    resolve base dest <+: resolve base path := by
  obtain ⟨names, rfl⟩ := h
  rw [resolve_append, resolve_normal]
  exact List.prefix_append _ _

theorem isSafe_of_allowed {items : List (Except String TarEntry)} {answer : Except String Unit}
    {log : List Event} (hallowed : ∀ event ∈ log, Allowed dest limits items event)
    (hitems : items = [] ∨ decode data = .ok items)
    (htaken : answer = .ok () → decode data = .ok items ∧ ∀ item ∈ items, IsTaken limits item)
    (hentries : processed log ≤ limits.maxEntries)
    (hbytes : written log ≤ limits.maxUnpackedBytes) :
    IsSafe decode data dest limits base answer log where
  createFile path reply hmem := (hallowed _ hmem).resolve
  write path bytes reply hmem := (hallowed _ hmem).resolve
  createDir path reply hmem := by
    have hdir : path <+: dest ∨ InDest dest path := hallowed _ hmem
    rcases hdir with hup | hin
    · exact Or.inr hup
    · exact Or.inl hin.resolve
  makeOther path reply hmem := hallowed _ hmem
  regular path reply hmem := by
    have hfile : IsRegularFile dest limits items path := hallowed _ hmem
    rcases hitems with rfl | hdecode
    · obtain ⟨e, relative, hnone, -⟩ := hfile
      exact absurd hnone List.not_mem_nil
    · exact ⟨items, hdecode, hfile⟩
  taken h := ⟨items, htaken h⟩
  entries := hentries
  bytes := hbytes

theorem run_extractArchive (hsized : ∀ items, decode data = .ok items → Sized items) :
    Run (extractArchive system decode data dest limits)
      (IsSafe decode data dest limits base) := by
  have hdirs : ∀ (items : List (Except String TarEntry)) (new : List Event),
      (∀ event ∈ new, DirCall dest event) →
        (∀ event ∈ new, Allowed dest limits items event) ∧ processed new = 0 ∧ written new = 0 := by
    intro items new hnew
    exact ⟨fun event hevent => (hnew event hevent).allowed (Or.inl List.prefix_rfl),
      processed_dirCalls hnew, written_eq_zero fun event hevent => (hnew event hevent).size⟩
  unfold extractArchive
  refine run_bind records_createDirAll (fun _ new hnew => ?_) fun _ new hnew => ?_
  · obtain ⟨hallowed, hprocessed, hwritten⟩ := hdirs [] new hnew
    exact isSafe_of_allowed hallowed (Or.inl rfl) (fun h => by cases h) (by omega) (by omega)
  · cases hdecode : decode data with
    | error message =>
      obtain ⟨hallowed, hprocessed, hwritten⟩ := hdirs [] new hnew
      refine run_throw ?_
      rw [List.append_nil]
      exact isSafe_of_allowed hallowed (Or.inl rfl) (fun h => by cases h) (by omega) (by omega)
    | ok items =>
      obtain ⟨hallowed, hprocessed, hwritten⟩ := hdirs items new hnew
      refine (run_extractLoop (hsized items hdecode) (Nat.zero_le _) (Nat.zero_le _)).mono
        fun answer more hloop => ?_
      have hentries := hloop.processed
      have hbytes := hloop.written
      refine isSafe_of_allowed (List.forall_mem_append.mpr ⟨hallowed, hloop.allowed⟩)
        (Or.inr hdecode) (fun h => ⟨hdecode, hloop.taken h⟩) ?_ ?_
      · rw [processed_append]
        omega
      · rw [written_append]
        omega

/-- The extraction of any archive into any destination, with any answers of the system. -/
theorem extractArchive_safe (hsized : ∀ items, decode data = .ok items → Sized items) :
    IsSafe decode data dest limits base (extractArchive system decode data dest limits []).answer
      (extractArchive system decode data dest limits []).state := by
  have hrun : Run (extractArchive system decode data dest limits)
      (IsSafe decode data dest limits base) := run_extractArchive hsized
  obtain ⟨new, hstate, hsafe⟩ := hrun []
  rw [hstate, List.nil_append]
  exact hsafe

end Archive

/-! ## A destination that is not there -/

section Above

def archiveDest : List Component :=
  [.rootDir, .normal (asBytes "srv"), .normal (asBytes "package")]

/-- Nothing is there at first, and whatever is asked for after that is done. -/
def emptySystem : System := fun log _ => if log.isEmpty then .notFound else .done

def oneEntry : TarEntry where
  entryType := .regular
  path := asBytes "package/a.js"
  size := 2
  ustar := true
  mode := some 0o644
  data := { bytes := asBytes "1;" }

theorem extractArchive_safe_one :
    IsSafe (fun _ => .ok [.ok oneEntry]) [] archiveDest {} []
      (extractArchive emptySystem (fun _ => .ok [.ok oneEntry]) [] archiveDest {} []).answer
      (extractArchive emptySystem (fun _ => .ok [.ok oneEntry]) [] archiveDest {} []).state := by
  refine extractArchive_safe fun items hitems e he => ?_
  obtain rfl := Except.ok.inj hitems
  obtain rfl := Except.ok.inj (List.mem_singleton.mp he)
  decide

/-- The directory that the destination is in is made too. -/
theorem extractArchive_above : ∃ path,
    .call (.createDir path) .done ∈
        (extractArchive emptySystem (fun _ => .ok []) [] archiveDest {} []).state ∧
      ¬resolve [] archiveDest <+: resolve [] path := by
  have hstate : (extractArchive emptySystem (fun _ => .ok []) [] archiveDest {} []).state =
      [.call (.createDir archiveDest) .notFound,
        .call (.createDir [.rootDir, .normal (asBytes "srv")]) .done,
        .call (.createDir archiveDest) .done] := by rfl
  refine ⟨[.rootDir, .normal (asBytes "srv")], ?_, by decide⟩
  rw [hstate]
  exact List.mem_cons_of_mem _ List.mem_cons_self

end Above

end Oath.Fetch.Calls
