import Oath.Library.Interleaving
import Oath.Transparency.TamperEvidence

/-! Several calls that log at the same time. A call reads the log and appends to it later; the chain
goes on exactly when the last hash is still the one that was read. Behind a last line without its end
the next entry is lost with it, unless what stands there is blank. -/

namespace Oath.Transparency
open Contracts Contracts.Value Registry Replace

/-! ## A last line without its end -/

/-- The file as whole lines and a last line that has no end. -/
structure Parts (file : Option (List UInt8)) (front : String) (tail : List Char) : Prop where
  bytes : file.getD [] = asBytes (front ++ String.ofList tail)
  whole : Whole front
  unfinished : '\n' ∉ tail

/-- What stands behind the last end of a line. -/
def lastLine (file : Option (List UInt8)) : List Char :=
  match readToString (file.getD []) with
  | .ok content => (content.toList.reverse.takeWhile (· ≠ '\n')).reverse
  | .error _ => []

theorem Parts.lastLine {file : Option (List UInt8)} {front : String} {tail : List Char}
    (h : Parts file front tail) : lastLine file = tail := by
  have hfront : front.toList.reverse.takeWhile (· ≠ '\n') = [] := by
    rcases h.whole with hempty | ⟨text, htext⟩
    · rw [hempty]
      rfl
    · rw [htext, List.reverse_append]
      rfl
  have htail : ∀ c ∈ tail.reverse, decide (c ≠ '\n') := by
    intro c hc
    have hne : c ≠ '\n' := fun heq => h.unfinished (heq ▸ List.mem_reverse.mp hc)
    exact decide_eq_true hne
  rw [Transparency.lastLine, h.bytes, readToString_asBytes]
  dsimp only
  rw [String.toList_append, String.toList_ofList, List.reverse_append,
    List.takeWhile_append_of_pos htail, hfront, List.append_nil, List.reverse_reverse]

theorem lastLine_none : lastLine none = [] := by
  have hparts : Parts none "" [] := ⟨rfl, Or.inl rfl, List.not_mem_nil⟩
  exact hparts.lastLine

theorem exists_parts {file : Option (List UInt8)} {content : String}
    (h : file.getD [] = asBytes content) : ∃ front, Parts file front (lastLine file) := by
  obtain ⟨front, tail, hcontent, hwhole, htail⟩ : ∃ front tail : List Char,
      content.toList = front ++ tail ∧ (front = [] ∨ ∃ text, front = text ++ ['\n']) ∧
        '\n' ∉ tail := by
    induction content.toList using List.reverseRecOn with
    | nil => exact ⟨[], [], rfl, Or.inl rfl, List.not_mem_nil⟩
    | append_singleton text c ih =>
      by_cases hc : c = '\n'
      · refine ⟨text ++ ['\n'], [], ?_, Or.inr ⟨text, rfl⟩, List.not_mem_nil⟩
        rw [hc, List.append_nil]
      · obtain ⟨front, tail, htext, hwhole, htail⟩ := ih
        refine ⟨front, tail ++ [c], ?_, hwhole, ?_⟩
        · rw [htext, List.append_assoc]
        · rw [List.mem_append, List.mem_singleton, not_or]
          exact ⟨htail, Ne.symm hc⟩
  have hparts : Parts file (String.ofList front) tail := by
    refine ⟨?_, ?_, htail⟩
    · rw [h, ← String.ofList_append, ← hcontent, String.ofList_toList]
    · rcases hwhole with hnil | ⟨text, htext⟩
      · rw [hnil]
        exact Or.inl rfl
      · exact Or.inr ⟨text, by rw [String.toList_ofList, htext]⟩
  refine ⟨String.ofList front, ?_⟩
  rw [hparts.lastLine]
  exact hparts

theorem linesFrom_unfinished {text : List Char} (h : '\n' ∉ text) (front : List Char) :
    linesFrom front text = if front ++ text = [] then [] else [front ++ text] := by
  induction text generalizing front with
  | nil => rw [linesFrom, List.append_nil]
  | cons c text ih =>
    rw [List.mem_cons, not_or] at h
    rw [linesFrom, if_neg (Ne.symm h.1), ih h.2, List.append_assoc, List.singleton_append]

section Append
variable {fromStr : String → Option TransparencyEntry}

/-- What the last line is read as. -/
def lastEntry (fromStr : String → Option TransparencyEntry) (tail : List Char) :
    List TransparencyEntry :=
  ((if tail = [] then [] else [String.ofList tail]).filter
    fun line => !(Core.trim line).isEmpty).filterMap fromStr

theorem Parts.readAll {file : Option (List UInt8)} {front : String} {tail : List Char}
    (h : Parts file front tail) :
    readAll fromStr file = .ok (entriesOf fromStr front ++ lastEntry fromStr tail) := by
  have hlines : lines (front ++ String.ofList tail) =
      lines front ++ if tail = [] then [] else [String.ofList tail] := by
    have htext : (front ++ String.ofList tail).toList = front.toList ++ tail := by
      rw [String.toList_append, String.toList_ofList]
    rw [lines, htext, toList_whole h.whole, linesFrom_unfinished h.unfinished, List.map_append,
      List.nil_append]
    split_ifs
    · rfl
    · rfl
  rw [readAll_whole h.bytes, entriesOf, hlines, List.filter_append, List.filterMap_append]
  rfl

/-- What is read of a log when a line is appended behind what is on its last line: the entry, if
there are only blanks in front of it. -/
def Joined (fromStr : String → Option TransparencyEntry) (tail : List Char) : Prop :=
  ∀ entry : TransparencyEntry, fromStr (String.ofList (tail ++ entry.line.toList)) =
    if tail.all isSpace then some entry else none

theorem joined_nil (hreads : Reads fromStr) : Joined fromStr [] := by
  intro entry
  rw [List.nil_append, String.ofList_toList]
  exact hreads entry

theorem isWhitespace_of_isSpace {c : Char} (h : isSpace c) : Core.isWhitespace c := by
  simp only [isSpace, Bool.or_eq_true, decide_eq_true_eq] at h
  rcases h with ((rfl | rfl) | rfl) | rfl
  · decide
  · decide
  · decide
  · decide

theorem lastEntry_blank {tail : List Char} (h : tail.all isSpace) : lastEntry fromStr tail = [] := by
  unfold lastEntry
  split_ifs with hnil
  · rfl
  · have hfront : tail.dropWhile Core.isWhitespace = [] :=
      List.dropWhile_eq_nil_iff.mpr fun c hc =>
        isWhitespace_of_isSpace (List.all_eq_true.mp h c hc)
    have hblank : Core.trim (String.ofList tail) = "" := by
      rw [Core.trim, String.toList_ofList, hfront]
      rfl
    rw [List.filter_singleton, hblank]
    rfl

/-- Appending an entry: behind blanks it is read after the others; behind anything else it is lost,
and with it what stood there. -/
theorem Parts.append {file : Option (List UInt8)} {front : String} {tail : List Char}
    (h : Parts file front tail) (hjoined : Joined fromStr tail) (entry : TransparencyEntry) :
    ∃ front', Parts (some (appendEntry entry file)) front' [] ∧
      entriesOf fromStr front' =
        entriesOf fromStr front ++ if tail.all isSpace then [entry] else [] := by
  refine ⟨front ++ String.ofList tail ++ (entry.line ++ "\n"), ⟨?_, ?_, List.not_mem_nil⟩, ?_⟩
  · rw [Option.getD_some, appendEntry, h.bytes, ← asBytes_append, String.ofList_nil,
      String.append_empty]
  · exact Whole.append entry.line
  · rw [entriesOf_append h.whole h.unfinished, hjoined entry]
    split_ifs
    · rfl
    · rfl

end Append

/-! ## The steps of a call -/

inductive Call
  | waiting (install : Install)
  | appending (existing : List TransparencyEntry) (install : Install)
  | returned (result : Except LogError Unit)
deriving Repr

inductive CallStep
  | readAll
  | append
deriving DecidableEq, Repr

section Calls
variable (sha : Sha256) (fromStr : String → Option TransparencyEntry)

/-- The two steps of `log`, each of them atomic. -/
def callStep (action : CallStep) (file : Option (List UInt8)) (call : Call) :
    Option (Option (List UInt8) × Call) :=
  match action, call with
  | .readAll, .waiting install =>
    match readAll fromStr file with
    | .ok existing => some (file, .appending existing install)
    | .error error => some (file, .returned (.error error))
  | .append, .appending existing install =>
    let entry := entryAfter sha (lastHash existing) install.payload
    some (some (appendEntry entry file), .returned (.ok ()))
  | _, _ => none

def calls : Threads ℕ CallStep (Option (List UInt8)) Call where
  step _ := callStep sha fromStr

variable {sha fromStr} in
/-- What a step does: the log stays, or an entry after the hash that was read is appended. -/
theorem callStep_cases {action : CallStep} {file file' : Option (List UInt8)} {call call' : Call}
    (h : callStep sha fromStr action file call = some (file', call')) :
    action = .readAll ∧ file' = file ∨ action = .append ∧ ∃ existing install,
      call = .appending existing install ∧
      file' = some (appendEntry (entryAfter sha (lastHash existing) install.payload) file) := by
  cases action with
  | readAll =>
    refine Or.inl ⟨rfl, ?_⟩
    cases call with
    | waiting install =>
      cases hread : readAll fromStr file with
      | ok existing =>
        rw [callStep, hread] at h
        exact (Prod.mk.inj (Option.some.inj h)).1.symm
      | error error =>
        rw [callStep, hread] at h
        exact (Prod.mk.inj (Option.some.inj h)).1.symm
    | appending existing install => cases h
    | returned result => cases h
  | append =>
    cases call with
    | waiting install => cases h
    | appending existing install =>
      exact Or.inr ⟨rfl, existing, install, rfl, (Prod.mk.inj (Option.some.inj h)).1.symm⟩
    | returned result => cases h

/-- A call that is about to append finds the last hash it has read, or a last line without its
end that takes the new line away. -/
def UpToDate (file : Option (List UInt8)) : Call → Prop
  | .appending existing _ => (lastLine file).all isSpace →
    (readAll fromStr file).map lastHash = .ok (lastHash existing)
  | _ => True

/-- Every append of the run is up to date. -/
def AppendsUpToDate :
    Threads.State ℕ (Option (List UInt8)) Call → List (ℕ × CallStep) → Prop
  | _, [] => True
  | s, event :: rest =>
    (event.2 = .append → UpToDate fromStr s.shared (s.locals event.1)) ∧
      ∀ next, (calls sha fromStr).fire s event = some next → AppendsUpToDate next rest

end Calls

/-! ## Runs -/

section Runs
variable {sha : Sha256} {fromStr : String → Option TransparencyEntry}

theorem Chain.of_prefix {entries others : List TransparencyEntry} {last : String}
    (h : Chain sha (entries ++ others) last) : ∃ before, Chain sha entries before := by
  unfold Chain at h
  rw [List.foldlM_append] at h
  obtain ⟨before, hbefore, -⟩ := Except.bind_eq_ok.mp h
  exact ⟨before, hbefore⟩

theorem Parts.verifyChain_iff {file : Option (List UInt8)} {front : String} {tail : List Char}
    (h : Parts file front tail) : verifyChain sha fromStr file = .ok () ↔
      ∃ last, Chain sha (hashedEntries (entriesOf fromStr front ++ lastEntry fromStr tail)) last :=
  Transparency.verifyChain_iff h.readAll

theorem exists_content_of_readAll {file : Option (List UInt8)} {entries : List TransparencyEntry}
    (h : readAll fromStr file = .ok entries) : ∃ content, file.getD [] = asBytes content := by
  cases file with
  | none => exact ⟨"", rfl⟩
  | some bytes =>
    cases hcontent : readToString bytes with
    | ok content => exact ⟨content, (readToString_eq_ok hcontent).symm⟩
    | error error =>
      rw [readAll, hcontent] at h
      cases h

theorem exists_content {file : Option (List UInt8)}
    (h : verifyChain sha fromStr file = .ok ()) : ∃ content, file.getD [] = asBytes content := by
  obtain ⟨entries, hread, -⟩ := Except.bind_eq_ok.mp h
  exact exists_content_of_readAll hread

theorem lastEntry_nil : lastEntry fromStr [] = [] := rfl

/-- An append to a verified log: it verifies again exactly when the append was up to date. -/
theorem verifyChain_append {file : Option (List UInt8)}
    (hjoined : Joined fromStr (lastLine file)) (hverify : verifyChain sha fromStr file = .ok ())
    (existing : List TransparencyEntry) (install : Install) :
    ∃ front, Parts (some (appendEntry (entryAfter sha (lastHash existing) install.payload) file))
        front [] ∧
      (verifyChain sha fromStr
          (some (appendEntry (entryAfter sha (lastHash existing) install.payload) file)) = .ok () ↔
        UpToDate fromStr file (.appending existing install)) := by
  obtain ⟨content, hcontent⟩ := exists_content hverify
  obtain ⟨front, hparts⟩ := exists_parts hcontent
  obtain ⟨last, hchain⟩ := hparts.verifyChain_iff.mp hverify
  obtain ⟨front', hparts', hentries⟩ := hparts.append hjoined
    (entryAfter sha (lastHash existing) install.payload)
  refine ⟨front', hparts', ?_⟩
  rw [hparts'.verifyChain_iff, hentries, lastEntry_nil, List.append_nil]
  by_cases hblank : (lastLine file).all isSpace
  · rw [lastEntry_blank hblank, List.append_nil] at hchain
    have hread : readAll fromStr file = .ok (entriesOf fromStr front) := by
      rw [hparts.readAll, lastEntry_blank hblank, List.append_nil]
    rw [if_pos hblank, chain_append_iff hchain install.payload, lastHash_of_chain hchain]
    constructor
    · intro hsame _
      rw [hread, hsame]
      rfl
    · intro hcurrent
      have hhash := hcurrent hblank
      rw [hread] at hhash
      exact (Except.ok.inj hhash).symm
  · rw [if_neg hblank, List.append_nil]
    rw [hashedEntries_append] at hchain
    exact ⟨fun _ hno => absurd hno hblank, fun _ => hchain.of_prefix⟩

/-- A broken chain stays broken. -/
theorem not_verifyChain_run (hreads : Reads fromStr)
    {s s' : Threads.State ℕ (Option (List UInt8)) Call} {events : List (ℕ × CallStep)}
    {front : String} (hparts : Parts s.shared front [])
    (hbroken : verifyChain sha fromStr s.shared ≠ .ok ())
    (hrun : (calls sha fromStr).run s events = some s') :
    verifyChain sha fromStr s'.shared ≠ .ok () := by
  have hkept := Threads.run_invariant (t := calls sha fromStr)
    (I := fun s => (∃ front, Parts s.shared front []) ∧ verifyChain sha fromStr s.shared ≠ .ok ())
    ?_ ⟨⟨front, hparts⟩, hbroken⟩ hrun
  · exact hkept.2
  · rintro s event s' ⟨⟨front, hparts⟩, hbroken⟩ hfire
    obtain ⟨file, call, hstep, rfl⟩ := Threads.fire_eq_some.mp hfire
    rcases callStep_cases hstep with ⟨-, hsame⟩ | ⟨-, existing, install, -, hfile⟩
    · rw [hsame]
      exact ⟨⟨front, hparts⟩, hbroken⟩
    · rw [hfile]
      obtain ⟨front', hparts', hentries⟩ := hparts.append (joined_nil hreads)
        (entryAfter sha (lastHash existing) install.payload)
      refine ⟨⟨front', hparts'⟩, fun hverify => hbroken ?_⟩
      -- the entries before the new one would verify as well
      obtain ⟨last, hchain⟩ := hparts'.verifyChain_iff.mp hverify
      rw [hentries, lastEntry_nil, List.append_nil, hashedEntries_append] at hchain
      refine hparts.verifyChain_iff.mpr ?_
      rw [lastEntry_nil, List.append_nil]
      exact hchain.of_prefix

theorem appendsUpToDate_cons {s next : Threads.State ℕ (Option (List UInt8)) Call}
    {event : ℕ × CallStep} {rest : List (ℕ × CallStep)}
    (hfire : (calls sha fromStr).fire s event = some next) :
    AppendsUpToDate sha fromStr s (event :: rest) ↔
      (event.2 = .append → UpToDate fromStr s.shared (s.locals event.1)) ∧
        AppendsUpToDate sha fromStr next rest := by
  refine and_congr_right fun _ => ⟨fun h => h next hfire, fun h other hother => ?_⟩
  rw [hfire] at hother
  exact Option.some.inj hother ▸ h

/-- A call whose steps come one after the other is `log`. -/
theorem calls_log {s : Threads.State ℕ (Option (List UInt8)) Call} {i : ℕ} {install : Install}
    (hwaiting : s.locals i = .waiting install) {bytes : List UInt8}
    (h : log sha fromStr install s.shared = .ok bytes) :
    ∃ s', (calls sha fromStr).run s [(i, .readAll), (i, .append)] = some s' ∧
      s'.shared = some bytes ∧ s'.locals i = .returned (.ok ()) := by
  obtain ⟨existing, hread, hbytes⟩ := Except.bind_eq_ok.mp h
  have hreadStep : callStep sha fromStr .readAll s.shared (.waiting install) =
      some (s.shared, .appending existing install) := by
    rw [callStep, hread]
  have hfirst : (calls sha fromStr).fire s (i, .readAll) =
      some ⟨s.shared, Function.update s.locals i (.appending existing install)⟩ :=
    Threads.fire_of_step hwaiting hreadStep
  have happendStep : callStep sha fromStr .append s.shared (.appending existing install) =
      some (some bytes, .returned (.ok ())) := by
    rw [← Except.ok.inj hbytes]
    rfl
  have hsecond : (calls sha fromStr).fire
      ⟨s.shared, Function.update s.locals i (.appending existing install)⟩ (i, .append) =
      some ⟨some bytes, Function.update (Function.update s.locals i (.appending existing install))
        i (.returned (.ok ()))⟩ :=
    Threads.fire_of_step (Function.update_self ..) happendStep
  refine ⟨_, Threads.run_cons_eq_some.mpr ⟨_, hfirst, Threads.run_cons_eq_some.mpr
    ⟨_, hsecond, Threads.run_nil⟩⟩, rfl, Function.update_self ..⟩

/-- Of a verified log, a run leaves one that verifies exactly when every append was up to date. -/
theorem verifyChain_calls_iff (hreads : Reads fromStr)
    {s s' : Threads.State ℕ (Option (List UInt8)) Call} {events : List (ℕ × CallStep)}
    (hjoined : Joined fromStr (lastLine s.shared))
    (hverify : verifyChain sha fromStr s.shared = .ok ())
    (hrun : (calls sha fromStr).run s events = some s') :
    verifyChain sha fromStr s'.shared = .ok () ↔ AppendsUpToDate sha fromStr s events := by
  induction events generalizing s with
  | nil =>
    obtain rfl := Option.some.inj hrun
    exact ⟨fun _ => trivial, fun _ => hverify⟩
  | cons event rest ih =>
    obtain ⟨next, hfire, hrest⟩ := Threads.run_cons_eq_some.mp hrun
    rw [appendsUpToDate_cons hfire]
    obtain ⟨file, call, hstep, rfl⟩ := Threads.fire_eq_some.mp hfire
    rcases callStep_cases hstep with ⟨hread, hsame⟩ | ⟨happend, existing, install, hcall, hfile⟩
    · have hother : ¬ event.2 = .append := by
        rw [hread]
        decide
      rw [ih (by rw [hsame]; exact hjoined) (by rw [hsame]; exact hverify) hrest]
      exact ⟨fun h => ⟨fun heq => absurd heq hother, h⟩, fun h => h.2⟩
    · obtain ⟨front, hparts, hiff⟩ := verifyChain_append hjoined hverify existing install
      rw [← hfile] at hparts hiff
      rw [happend, hcall, ← hiff]
      by_cases hgood : verifyChain sha fromStr file = .ok ()
      · have hlater : Joined fromStr (lastLine file) := by
          rw [hparts.lastLine]
          exact joined_nil hreads
        rw [ih hlater hgood hrest]
        exact ⟨fun h => ⟨fun _ => hgood, h⟩, fun h => h.2⟩
      · have hbroken := not_verifyChain_run hreads hparts hgood hrest
        exact ⟨fun h => absurd h hbroken, fun h => absurd (h.1 rfl) hgood⟩

/-! ## Two installs at once -/

/-- Two calls on a log that does not exist yet. -/
def twoCalls : Threads.State ℕ (Option (List UInt8)) Call where
  shared := none
  locals i := .waiting ⟨1700000000 + UInt64.ofNat i, "/home/demo/app", [], 15⟩

/-- Both read before one of them appends. -/
def bothReadFirst : List (ℕ × CallStep) :=
  [(0, .readAll), (1, .readAll), (0, .append), (1, .append)]

theorem hashEntry_ne_genesisHash (previous : String) (payload : HashPayload) :
    hashEntry sha previous payload ≠ genesisHash := by
  intro h
  have hlength := length_hexSha256 sha (entryInput previous payload)
  have hgenesis : (asBytes genesisHash).length = 7 := by decide
  rw [hashEntry] at h
  rw [h, hgenesis] at hlength
  cases hlength

theorem verifyChain_calls_broken : ∃ s',
    verifyChain .fips180 entryOfStr twoCalls.shared = .ok () ∧
    (calls .fips180 entryOfStr).run twoCalls bothReadFirst = some s' ∧
    (s'.locals 0 = .returned (.ok ()) ∧ s'.locals 1 = .returned (.ok ())) ∧
    verifyChain .fips180 entryOfStr s'.shared ≠ .ok () := by
  let install (i : ℕ) : Install := ⟨1700000000 + UInt64.ofNat i, "/home/demo/app", [], 15⟩
  let entry (i : ℕ) : TransparencyEntry := entryAfter .fips180 (lastHash []) (install i).payload
  let first := appendEntry (entry 0) none
  have hempty : verifyChain .fips180 entryOfStr none = .ok () := rfl
  have hjoined : Joined entryOfStr [] := joined_nil entryOfStr_line
  have hwhole : WholeFile none := ⟨"", rfl, Or.inl rfl⟩
  obtain ⟨front, hparts, hiff⟩ := @verifyChain_append .fips180 entryOfStr none
    (lastLine_none ▸ hjoined) hempty [] (install 0)
  have hfirst : verifyChain .fips180 entryOfStr (some first) = .ok () := hiff.mpr fun _ => rfl
  have hline : lastLine (some first) = [] := hparts.lastLine
  obtain ⟨-, -, hsecond⟩ := verifyChain_append (hline ▸ hjoined) hfirst [] (install 1)
  obtain ⟨-, entries, hnone, hread⟩ := hwhole.readAll_appendEntry entryOfStr_line (entry 0)
  refine ⟨⟨some (appendEntry (entry 1) (some first)), Function.update (Function.update
    (Function.update (Function.update twoCalls.locals 0 (.appending [] (install 0))) 1
      (.appending [] (install 1))) 0 (.returned (.ok ()))) 1 (.returned (.ok ()))⟩,
    hempty, rfl, ⟨rfl, rfl⟩, fun hverify => ?_⟩
  -- the second call has read that there is no entry yet
  have hcurrent := hsecond.mp hverify (by rw [hline]; rfl)
  rw [hread, ← Except.ok.inj hnone] at hcurrent
  exact hashEntry_ne_genesisHash _ _ (Except.ok.inj hcurrent)

theorem verifyChain_calls_iff_alone : ∃ s',
    (calls .fips180 entryOfStr).run twoCalls [(0, .readAll), (0, .append)] = some s' ∧
    verifyChain .fips180 entryOfStr s'.shared = .ok () := by
  have hline : lastLine twoCalls.shared = [] := lastLine_none
  let install : Install := ⟨1700000000, "/home/demo/app", [], 15⟩
  let entry := entryAfter .fips180 (lastHash []) install.payload
  let read : Threads.State ℕ (Option (List UInt8)) Call :=
    ⟨none, Function.update twoCalls.locals 0 (.appending [] install)⟩
  let appended : Threads.State ℕ (Option (List UInt8)) Call :=
    ⟨some (appendEntry entry none), Function.update read.locals 0 (.returned (.ok ()))⟩
  have hread : (calls .fips180 entryOfStr).fire twoCalls (0, .readAll) = some read := rfl
  have happend : (calls .fips180 entryOfStr).fire read (0, .append) = some appended := rfl
  have hrun : (calls .fips180 entryOfStr).run twoCalls [(0, .readAll), (0, .append)] =
      some appended :=
    Threads.run_cons_eq_some.mpr ⟨read, hread, Threads.run_cons_eq_some.mpr
      ⟨appended, happend, Threads.run_nil⟩⟩
  refine ⟨appended, hrun, (verifyChain_calls_iff entryOfStr_line
    (hline ▸ joined_nil entryOfStr_line) rfl hrun).mpr ?_⟩
  rw [appendsUpToDate_cons hread, appendsUpToDate_cons happend]
  exact ⟨fun hno => absurd hno (by decide), fun _ _ => rfl, trivial⟩

end Runs

/-! ## A log whose last line has no end -/

section Log
variable {sha : Sha256} {fromStr : String → Option TransparencyEntry}
  {install : Install} {file : Option (List UInt8)} {bytes : List UInt8}

theorem log_eq_ok : log sha fromStr install file = .ok bytes ↔
    ∃ entries, readAll fromStr file = .ok entries ∧
      appendEntry (entryAfter sha (lastHash entries) install.payload) file = bytes := by
  refine Except.bind_eq_ok.trans (exists_congr fun entries => and_congr_right fun _ => ?_)
  exact ⟨Except.ok.inj, congrArg Except.ok⟩

/-- What is read once an entry is appended: the whole lines, and the entry behind blanks. -/
theorem Parts.readAll_appendEntry {front : String} {tail : List Char} (h : Parts file front tail)
    (hjoined : Joined fromStr tail) (entry : TransparencyEntry) :
    Transparency.readAll fromStr (some (appendEntry entry file)) =
      .ok (entriesOf fromStr front ++ if tail.all isSpace then [entry] else []) := by
  obtain ⟨front', hparts, hentries⟩ := h.append hjoined entry
  rw [hparts.readAll, hentries, lastEntry_nil, List.append_nil]

/-- A call that succeeds adds its entry to those that are read exactly when there is nothing but
blanks behind the last end of a line. -/
theorem readAll_log_iff (hjoined : Joined fromStr (lastLine file))
    (hlog : log sha fromStr install file = .ok bytes) :
    (∃ entries, readAll fromStr file = .ok entries ∧ readAll fromStr (some bytes) =
        .ok (entries ++ [entryAfter sha (lastHash entries) install.payload])) ↔
      (lastLine file).all isSpace := by
  obtain ⟨entries, hread, rfl⟩ := log_eq_ok.mp hlog
  obtain ⟨content, hcontent⟩ := exists_content_of_readAll hread
  obtain ⟨front, hparts⟩ := exists_parts hcontent
  have hbefore : entries = entriesOf fromStr front ++ lastEntry fromStr (lastLine file) :=
    Except.ok.inj (hread.symm.trans hparts.readAll)
  have hafter := hparts.readAll_appendEntry hjoined
    (entryAfter sha (lastHash entries) install.payload)
  constructor
  · rintro ⟨others, hothers, hadded⟩
    obtain rfl : entries = others := Except.ok.inj (hread.symm.trans hothers)
    by_contra hblank
    rw [hafter, if_neg hblank, List.append_nil] at hadded
    -- the entries of the whole lines alone are fewer
    have hlength := congrArg List.length (Except.ok.inj hadded)
    rw [hbefore, List.append_assoc, List.length_append, List.length_append,
      List.length_singleton] at hlength
    omega
  · intro hblank
    refine ⟨entries, hread, ?_⟩
    rw [hafter, if_pos hblank, hbefore, lastEntry_blank hblank, List.append_nil]

def demoInstall : Install := ⟨1700000000, "/home/demo/app", [("left-pad", "1.3.0", none)], 120⟩

theorem readAll_log_iff_demo : ∃ bytes,
    log .fips180 entryOfStr demoInstall none = .ok bytes ∧
    ((∃ entries, readAll entryOfStr none = .ok entries ∧ readAll entryOfStr (some bytes) =
        .ok (entries ++ [entryAfter .fips180 (lastHash entries) demoInstall.payload])) ↔
      (lastLine none).all isSpace) := by
  have hjoined : Joined entryOfStr (lastLine none) :=
    lastLine_none ▸ joined_nil entryOfStr_line
  exact ⟨_, rfl, readAll_log_iff hjoined rfl⟩

end Log

/-! ## A line of which only the first character was written -/

/-- An object may not open with an object in the place of a key. -/
theorem joined_brace : Joined entryOfStr ['\x7b'] := by
  intro entry
  have hread : ∀ rest, readValue (fun _ => none) (rest.length + 3) recursionLimit
      ('\x7b' :: '\x7b' :: rest) = none := fun _ => rfl
  have hvalid (cs : List Char) : Utf8.isValid (encode cs) := by
    rw [Utf8.isValid, encode, Utf8.decode_encode, List.all_map]
    exact List.all_eq_true.mpr fun _ _ => rfl
  obtain ⟨rest, hline⟩ : ∃ rest, entry.line.toList = '\x7b' :: rest := by
    rw [entry.line_toList]
    exact ⟨_, rfl⟩
  have hnone : fromSlice (fun _ => none) recursionLimit (encode ('\x7b' :: '\x7b' :: rest)) =
      none := by
    have htext : Utf8.lossy (encode ('\x7b' :: '\x7b' :: rest)) = '\x7b' :: '\x7b' :: rest :=
      Utf8.lossy_encode _
    rw [fromSlice, if_pos (hvalid _), htext]
    exact congrArg (Option.bind · _) (hread rest)
  have hbytes : asBytes (String.ofList ('\x7b' :: '\x7b' :: rest)) =
      encode ('\x7b' :: '\x7b' :: rest) := by
    rw [asBytes_eq, String.toList_ofList]
  rw [hline, List.singleton_append, entryOfStr, hbytes, hnone]
  rfl

/-- The entry that is logged behind the torn line is not read. -/
theorem readAll_log_torn : ∃ bytes,
    log .fips180 entryOfStr demoInstall (some (asBytes "\x7b")) = .ok bytes ∧
    readAll entryOfStr (some (asBytes "\x7b")) = .ok [] ∧
    readAll entryOfStr (some bytes) = .ok [] := by
  have hparts : Parts (some (asBytes "\x7b")) "" ['\x7b'] :=
    ⟨rfl, Or.inl rfl, by decide⟩
  have hbefore : readAll entryOfStr (some (asBytes "\x7b")) = .ok [] := by
    rw [hparts.readAll]
    rfl
  refine ⟨_, log_eq_ok.mpr ⟨[], hbefore, rfl⟩, hbefore, ?_⟩
  rw [hparts.readAll_appendEntry joined_brace]
  rfl

end Oath.Transparency
