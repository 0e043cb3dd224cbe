import Oath.Cli.ExecConsent

/-! Whether the directory that `exec` scans and runs holds the artifact that it records. -/

namespace Oath.Cli
open Contracts Registry Resolve Unix

/-- What an approval is bound to. -/
structure Artifact where
  name : String
  version : String
  integrity : Option String
deriving DecidableEq, Repr

/-! ## What a plan puts into a directory -/

def placement (location : String) : List Component := components (asBytes location)

/-- The last node that is placed in the directory or in one above it. -/
def lastPlaced (nodes : List PlacementNode) (directory : List Component) : Option PlacementNode :=
  nodes.reverse.find? fun node => (placement node.location).isPrefixOf directory

/-- Into the directory of a package that is not a link goes the store entry of its name,
version and integrity. -/
def artifactOf (directory : List Component) (node : PlacementNode) : Option Artifact :=
  if placement node.location = directory ∧ node.link = false then
    some ⟨node.name, node.version, node.integrity⟩
  else none

def linkedArtifact (plan : PlacementPlan) (name : String) : Option Artifact :=
  let directory := placement ("node_modules/" ++ name)
  (lastPlaced plan.nodes directory).bind (artifactOf directory)

/-! ## What a run records -/

/-- The assessment of a refused release is about no directory. -/
def recordedArtifact : ExecEvent → Option Artifact
  | .printed assessment _ => some ⟨assessment.identity.name, assessment.identity.version,
      assessment.identity.integrity⟩
  | .lookedUp approval => some ⟨approval.package, approval.version, some approval.integrity⟩
  | .remembered approval => some ⟨approval.package, approval.version, some approval.integrity⟩
  | _ => none

/-- The directory of the package holds each artifact that is recorded. -/
def Bound (inspection : Inspection) (new : List ExecEvent) : Prop :=
  ∀ event ∈ new, ∀ artifact, recordedArtifact event = some artifact →
    linkedArtifact inspection.plan inspection.name = some artifact

section Records
variable {Text : Type}

/-- The run scans a package and comes to the decision on it. -/
structure Inspects (env : ExecEnvironment Text) (options : ExecOptions) (s : ExecSession)
    (sandbox : ExecSandboxDecision) (inspection : Inspection) : Prop where
  schema : options.schemaVersion = 2 ∨ options.schemaVersion = 3
  resolved : resolveExecSandbox env options = .ok sandbox
  notLocal : usesLocalBin env options sandbox = false
  inspect : inspect env options sandbox s = .ok inspection s

/-- An assessment is printed or an approval looked up. -/
structure Records (env : ExecEnvironment Text) (options : ExecOptions)
    (sandbox : ExecSandboxDecision) (inspection : Inspection) : Prop where
  home : env.home.isSome
  records : inspection.info.integrity.getD "" ≠ "" ∨ (options.json ∧
    (options.schemaVersion = 2 ∨
      (env.signAssessment (assess env options sandbox inspection)).isOk))

def Inspection.artifact (inspection : Inspection) : Artifact :=
  ⟨inspection.name, inspection.version, inspection.info.integrity⟩

variable {env : ExecEnvironment Text} {options : ExecOptions} {sandbox : ExecSandboxDecision}
  {inspection : Inspection} {s : ExecSession}

theorem approvalOf_artifact (h : (approvalOf env options sandbox inspection).integrity ≠ "") :
    some (approvalOf env options sandbox inspection).integrity = inspection.info.integrity := by
  unfold approvalOf at h ⊢
  dsimp only at h ⊢
  cases hintegrity : inspection.info.integrity with
  | none =>
    rw [hintegrity] at h
    exact absurd rfl h
  | some integrity => rfl

/-- The event records nothing, or the artifact of the inspection in a run that records. -/
def RecordsOnly (env : ExecEnvironment Text) (options : ExecOptions)
    (sandbox : ExecSandboxDecision) (inspection : Inspection) (event : ExecEvent) : Prop :=
  ∀ artifact, recordedArtifact event = some artifact →
    artifact = inspection.artifact ∧ Records env options sandbox inspection

/-- All that is added to the events has the property. -/
abbrev AddsOnly (p : ExecEvent → Prop) (s s' : ExecSession) : Prop :=
  ∃ new, s'.events = s.events ++ new ∧ ∀ event ∈ new, p event

instance (p : ExecEvent → Prop) : Std.Refl (AddsOnly p) := ⟨fun _ => ⟨[], by simp, by simp⟩⟩

instance (p : ExecEvent → Prop) : IsTrans ExecSession (AddsOnly p) where
  trans := by
    rintro s₁ s₂ s₃ ⟨first, hfirst, hp⟩ ⟨later, hlater, hrest⟩
    refine ⟨first ++ later, by rw [hlater, hfirst, List.append_assoc], fun event hmem => ?_⟩
    exact (List.mem_append.mp hmem).elim (hp event) (hrest event)

variable {α : Type} {p : ExecEvent → Prop} {x : ExecCommand α}

theorem addsOnly_of_silent (h : ∀ s, (x s).state.events = s.events) :
    EStateM.Moves (AddsOnly p) x := fun s => ⟨[], by simp [h], by simp⟩

theorem addsOnly_orFail (y : Except String α) :
    EStateM.Moves (AddsOnly p) (orFail y : ExecCommand α) :=
  addsOnly_of_silent fun s => by rw [orFail_state]

theorem addsOnly_report {event : ExecEvent} (h : p event) :
    EStateM.Moves (AddsOnly p) (report event) :=
  fun _ => ⟨[event], rfl, fun _ hmem => List.mem_singleton.mp hmem ▸ h⟩

theorem recordsOnly_of_none {event : ExecEvent} (h : recordedArtifact event = none) :
    RecordsOnly env options sandbox inspection event := by
  intro artifact hartifact
  rw [h] at hartifact
  cases hartifact

theorem recordsOnly_of_approval (hhome : env.home.isSome) {event : ExecEvent}
    (hintegrity : (approvalOf env options sandbox inspection).integrity ≠ "")
    (hevent : recordedArtifact event = some ⟨inspection.name, inspection.version,
      some (approvalOf env options sandbox inspection).integrity⟩) :
    RecordsOnly env options sandbox inspection event := by
  intro artifact hartifact
  rw [hevent, approvalOf_artifact hintegrity] at hartifact
  exact ⟨(Option.some.inj hartifact).symm, hhome, Or.inl hintegrity⟩

theorem previouslyApproved_adds (hhome : env.home.isSome) :
    EStateM.Moves (AddsOnly (RecordsOnly env options sandbox inspection))
      (previouslyApproved (approvalOf env options sandbox inspection)) := by
  unfold previouslyApproved
  split_ifs with hintegrity
  · exact EStateM.moves_pure _
  · refine EStateM.moves_bind (addsOnly_report ?_) fun _ => ?_
    · exact recordsOnly_of_approval hhome hintegrity rfl
    · exact EStateM.moves_bind (addsOnly_of_silent fun s => by rw [load_state]) fun file =>
        EStateM.moves_pure _

theorem showAssessment_adds (hhome : env.home.isSome) (approved : Bool) :
    EStateM.Moves (AddsOnly (RecordsOnly env options sandbox inspection))
      (showAssessment env options (assess env options sandbox inspection) approved) := by
  unfold showAssessment
  split_ifs with hjson
  · intro s
    unfold printAssessment
    by_cases hsigned : options.schemaVersion = 2 ∨
        (env.signAssessment (assess env options sandbox inspection)).isOk
    · refine EStateM.moves_bind (addsOnly_orFail _) (fun _ => addsOnly_report ?_) s
      intro artifact hartifact
      exact ⟨(Option.some.inj hartifact).symm, hhome, Or.inr ⟨hjson, hsigned⟩⟩
    · rw [not_or] at hsigned
      rw [if_neg hsigned.1]
      cases hsign : env.signAssessment (assess env options sandbox inspection) with
      | ok _ =>
        rw [hsign] at hsigned
        exact absurd rfl hsigned.2
      | error message => exact ⟨[], (List.append_nil _).symm, by simp⟩
  · exact addsOnly_report (recordsOnly_of_none rfl)

theorem remember_adds (hhome : env.home.isSome) :
    EStateM.Moves (AddsOnly (RecordsOnly env options sandbox inspection))
      (remember env (approvalOf env options sandbox inspection)) := by
  intro s
  unfold remember
  by_cases hintegrity : (approvalOf env options sandbox inspection).integrity = ""
  · rw [if_pos hintegrity]
    exact ⟨[], (List.append_nil _).symm, by simp⟩
  · refine EStateM.moves_bind (addsOnly_orFail _) (fun _ => ?_) s
    refine EStateM.moves_bind (addsOnly_of_silent fun s => by rw [load_state]) fun file => ?_
    refine EStateM.moves_bind (addsOnly_orFail _) fun _ => ?_
    refine EStateM.moves_bind (addsOnly_of_silent fun _ => rfl) fun _ => ?_
    exact addsOnly_report (recordsOnly_of_approval hhome hintegrity rfl)

theorem rememberAndRun_adds (hhome : env.home.isSome) :
    EStateM.Moves (AddsOnly (RecordsOnly env options sandbox inspection))
      (rememberAndRun env options sandbox inspection) := by
  refine EStateM.moves_bind ?_ fun _ => ?_
  · unfold rememberChoice
    split_ifs
    · exact remember_adds hhome
    · exact EStateM.moves_pure ()
  · refine EStateM.moves_bind (addsOnly_of_silent fun s => by rw [findBinary_state]) fun binary => ?_
    refine EStateM.moves_bind (addsOnly_report (recordsOnly_of_none rfl)) fun _ => ?_
    exact EStateM.moves_bind (addsOnly_orFail _) fun code => EStateM.moves_throw _

theorem checkGrade_state : (checkGrade env options inspection s).state = s := by
  unfold checkGrade
  split_ifs <;> rfl

theorem confirm_adds (approved : Bool) :
    EStateM.Moves (AddsOnly (RecordsOnly env options sandbox inspection))
      (confirm env options inspection approved) := by
  unfold confirm
  split_ifs
  · refine EStateM.moves_bind (fun s => ?_) fun answer => ?_
    · exact ⟨[.asked (s.stdin.headD "")], rfl, fun event hmem =>
        recordsOnly_of_none (by rw [List.mem_singleton.mp hmem]; rfl)⟩
    · split_ifs
      · exact EStateM.moves_pure ()
      · exact EStateM.moves_throw _
  · exact EStateM.moves_pure ()

/-- The steps of a decision after the assessment is shown. -/
def afterShown (env : ExecEnvironment Text) (options : ExecOptions)
    (sandbox : ExecSandboxDecision) (inspection : Inspection) (approved : Bool) :
    ExecCommand Unit := do
  checkGrade env options inspection
  if options.dryRun then pure ()
  else do
    confirm env options inspection approved
    rememberAndRun env options sandbox inspection

variable (options sandbox inspection) in
theorem afterShown_adds (hhome : env.home.isSome) (approved : Bool) :
    EStateM.Moves (AddsOnly (RecordsOnly env options sandbox inspection))
      (afterShown env options sandbox inspection approved) := by
  refine EStateM.moves_bind (addsOnly_of_silent fun s => by rw [checkGrade_state]) fun _ => ?_
  split_ifs
  · exact EStateM.moves_pure ()
  · exact EStateM.moves_bind (confirm_adds approved) fun _ => rememberAndRun_adds hhome

variable (options sandbox inspection) in
theorem showAndRun_adds (hhome : env.home.isSome) (approved : Bool) :
    EStateM.Moves (AddsOnly (RecordsOnly env options sandbox inspection))
      (showAssessment env options (assess env options sandbox inspection) approved >>=
        fun _ => afterShown env options sandbox inspection approved) :=
  EStateM.moves_bind (showAssessment_adds hhome approved) fun _ =>
    afterShown_adds options sandbox inspection hhome approved

variable (env options sandbox inspection) in
theorem decideAndRun_adds :
    EStateM.Moves (AddsOnly (RecordsOnly env options sandbox inspection))
      (decideAndRun env options sandbox inspection) := by
  intro s
  unfold decideAndRun
  by_cases hhome : env.home.isSome
  · refine EStateM.moves_bind (addsOnly_orFail _) (fun _ => ?_) s
    exact EStateM.moves_bind (previouslyApproved_adds hhome) fun approved =>
      showAndRun_adds options sandbox inspection hhome approved
  · rw [if_neg hhome]
    exact ⟨[], (List.append_nil _).symm, by simp⟩

/-- What a first step has added stays. -/
theorem bind_keeps_first {β : Type} {f : α → ExecCommand β} {event : ExecEvent}
    (hx : ∃ first, (x s).state.events = s.events ++ first ∧ event ∈ first)
    (hf : ∀ a, EStateM.Moves (AddsOnly p) (f a)) :
    ∃ new, ((x >>= f) s).state.events = s.events ++ new ∧ event ∈ new := by
  obtain ⟨first, hfirst, hmem⟩ := hx
  show ∃ new, (EStateM.bind x f s).state.events = _ ∧ _
  unfold EStateM.bind
  cases h : x s with
  | error stop s₁ =>
    rw [h] at hfirst
    exact ⟨first, hfirst, hmem⟩
  | ok a s₁ =>
    rw [h] at hfirst
    obtain ⟨later, hlater, -⟩ := hf a s₁
    refine ⟨first ++ later, ?_, List.mem_append_left _ hmem⟩
    show (f a s₁).state.events = _
    rw [hlater, ← List.append_assoc]
    exact congrArg (· ++ later) hfirst

/-- A run that records has the artifact of the inspection among its events. -/
theorem decideAndRun_records (h : Records env options sandbox inspection) (s : ExecSession) :
    ∃ new, (decideAndRun env options sandbox inspection s).state.events = s.events ++ new ∧
      ∃ event ∈ new, recordedArtifact event = some inspection.artifact := by
  have hdecide : decideAndRun env options sandbox inspection s =
      (previouslyApproved (approvalOf env options sandbox inspection) >>= fun approved =>
        showAssessment env options (assess env options sandbox inspection) approved >>=
          fun _ => afterShown env options sandbox inspection approved) s := by
    unfold decideAndRun
    rw [if_pos h.home]
    rfl
  rw [hdecide]
  by_cases hintegrity : (approvalOf env options sandbox inspection).integrity = ""
  · have hpure : previouslyApproved (approvalOf env options sandbox inspection) = pure false := by
      unfold previouslyApproved
      rw [if_pos hintegrity]
    rw [hpure, pure_bind]
    obtain ⟨hjson, hsigned⟩ := h.records.resolve_left (not_not.mpr hintegrity)
    have hsign : (if options.schemaVersion = 2 then .ok ()
        else env.signAssessment (assess env options sandbox inspection)) = Except.ok () := by
      split_ifs with hschema
      · rfl
      · have hok := hsigned.resolve_left hschema
        cases hresult : env.signAssessment (assess env options sandbox inspection) with
        | ok _ => rfl
        | error message =>
          rw [hresult] at hok
          cases hok
    have hprinted : ∃ first, (showAssessment env options (assess env options sandbox inspection)
        false s).state.events = s.events ++ first ∧
          .printed (assess env options sandbox inspection) false ∈ first := by
      unfold showAssessment printAssessment
      rw [if_pos hjson, hsign]
      exact ⟨_, rfl, List.mem_singleton_self _⟩
    obtain ⟨new, hnew, hmem⟩ := bind_keeps_first hprinted fun _ =>
      afterShown_adds options sandbox inspection h.home false
    exact ⟨new, hnew, _, hmem, rfl⟩
  · have hlookedUp : ∃ first, (previouslyApproved (approvalOf env options sandbox inspection)
        s).state.events = s.events ++ first ∧
          .lookedUp (approvalOf env options sandbox inspection) ∈ first := by
      unfold previouslyApproved
      rw [if_neg hintegrity]
      refine ⟨_, report_bind_events fun s₁ => ?_, List.mem_singleton_self _⟩
      exact congrArg ExecSession.events (load_bind_state s₁)
    obtain ⟨new, hnew, hmem⟩ := bind_keeps_first hlookedUp fun approved =>
      showAndRun_adds options sandbox inspection h.home approved
    refine ⟨new, hnew, _, hmem, ?_⟩
    exact congrArg (fun integrity => some (Artifact.mk inspection.name inspection.version integrity))
      (approvalOf_artifact hintegrity)

end Records

/-! ## What the planner has planned -/

section Plan
variable {Text : Type} {env : ExecEnvironment Text} {options : ExecOptions}
  {sandbox : ExecSandboxDecision} {inspection : Inspection} {s : ExecSession}

/-- The integrity of a planned node, filled in by the registry where the plan has a node of
its name and version without a URL. -/
def completedIntegrity (env : Environment Text) (plan : PlacementPlan) (node : PlacementNode) :
    Option String :=
  node.integrity.or <| if toLex (node.name, node.version) ∈ missingMetadata plan.nodes then
    ((env.fetchPackument node.name).toOption.bind (·.find? node.version)).bind DistInfo.integrity
  else none

/-- The planner and the registry mean the same artifact: into the directory of the package
goes a package of the recorded name, version and integrity. -/
def PlansArtifact (env : Environment Text) (execPath : String) (artifact : Artifact) : Prop :=
  ∃ plan node, env.arborist execPath .default = .ok plan ∧
    lastPlaced plan.nodes (placement ("node_modules/" ++ artifact.name)) = some node ∧
    placement node.location = placement ("node_modules/" ++ artifact.name) ∧
    node.link = false ∧
    node.name = artifact.name ∧ node.version = artifact.version ∧
    completedIntegrity env plan node = artifact.integrity

theorem lookup_registryEntry {env : Environment Text} {keys : List (Lex (String × String))}
    {entries : List (Lex (String × String) × DistInfo)}
    (h : keys.mapM (registryEntry env) = .ok entries) (key : Lex (String × String)) :
    entries.lookup key = if key ∈ keys then
      (env.fetchPackument (ofLex key).1).toOption.bind (·.find? (ofLex key).2) else none := by
  induction keys generalizing entries with
  | nil =>
    obtain rfl := Except.ok.inj h
    rfl
  | cons first rest ih =>
    rw [List.mapM_cons] at h
    obtain ⟨entry, hentry, h1⟩ := Except.bind_eq_ok.mp h
    obtain ⟨later, hlater, h2⟩ := Except.bind_eq_ok.mp h1
    obtain rfl := Except.ok.inj h2
    have hfirst : entry.1 = first ∧
        (env.fetchPackument (ofLex first).1).toOption.bind (·.find? (ofLex first).2) =
          some entry.2 := by
      unfold registryEntry at hentry
      dsimp only at hentry
      cases hversions : env.fetchPackument (ofLex first).1 with
      | error message =>
        rw [hversions] at hentry
        cases hentry
      | ok versions =>
        rw [hversions] at hentry
        dsimp only at hentry
        cases hinfo : versions.find? (ofLex first).2 with
        | none =>
          rw [hinfo] at hentry
          cases hentry
        | some info =>
          rw [hinfo] at hentry
          obtain rfl := Except.ok.inj hentry
          exact ⟨rfl, hinfo⟩
    obtain ⟨hkey, hinfo⟩ := hfirst
    rw [List.lookup_cons]
    by_cases hsame : key = first
    · subst hsame
      rw [hkey, beq_self_eq_true, if_pos List.mem_cons_self, hinfo]
    · have hbeq : (key == entry.1) = false := by
        rw [hkey]
        exact beq_false_of_ne hsame
      rw [hbeq, ih hlater]
      simp only [List.mem_cons, hsame, false_or]

/-- A completed node is still in its place. -/
theorem hydrateEntry_fields (entries : List (Lex (String × String) × DistInfo))
    (node : PlacementNode) : (hydrateEntry entries node).location = node.location ∧
      (hydrateEntry entries node).link = node.link ∧
      (hydrateEntry entries node).name = node.name ∧
      (hydrateEntry entries node).version = node.version := by
  unfold hydrateEntry
  split <;> exact ⟨rfl, rfl, rfl, rfl⟩

theorem hydrateEntry_integrity {env : Environment Text} {plan : PlacementPlan}
    {entries : List (Lex (String × String) × DistInfo)}
    (h : (missingMetadata plan.nodes).mapM (registryEntry env) = .ok entries)
    (node : PlacementNode) :
    (hydrateEntry entries node).integrity = completedIntegrity env plan node := by
  have hlookup := lookup_registryEntry h (toLex (node.name, node.version))
  rw [ofLex_toLex] at hlookup
  unfold completedIntegrity
  by_cases hmissing : toLex (node.name, node.version) ∈ missingMetadata plan.nodes
  · rw [if_pos hmissing] at hlookup ⊢
    rw [← hlookup]
    unfold hydrateEntry
    cases entries.lookup (toLex (node.name, node.version)) with
    | none => simp
    | some info => rfl
  · rw [if_neg hmissing] at hlookup ⊢
    unfold hydrateEntry
    rw [hlookup]
    simp

theorem lastPlaced_map {f : PlacementNode → PlacementNode}
    (hf : ∀ node, (f node).location = node.location) (nodes : List PlacementNode)
    (directory : List Component) :
    lastPlaced (nodes.map f) directory = (lastPlaced nodes directory).map f := by
  unfold lastPlaced
  rw [← List.map_reverse, List.find?_map]
  congr 1
  refine congrArg (List.find? · nodes.reverse) ?_
  funext node
  simp only [Function.comp_apply, hf]

/-- The directory is new, so there is no earlier plan to complete the nodes from. -/
theorem planExec_ok {execPath name version : String} {plan : PlacementPlan}
    (h : planExec env execPath name version = .ok plan) :
    ∃ planned entries, env.arborist execPath .default = .ok planned ∧
      (missingMetadata planned.nodes).mapM (registryEntry env.toEnvironment) = .ok entries ∧
      plan.nodes = planned.nodes.map (hydrateEntry entries) := by
  unfold planExec at h
  split at h
  · next found s₁ hplanWith =>
    obtain ⟨planned, s₂, harborist, h1⟩ := EStateM.bind_eq_ok.mp hplanWith
    obtain ⟨hplanned, rfl⟩ := fromExcept_ok.mp harborist
    obtain ⟨_, s₃, hversion, h2⟩ := EStateM.bind_eq_ok.mp h1
    obtain ⟨-, rfl⟩ := fromExcept_ok.mp hversion
    obtain ⟨previous, s₄, hprevious, h3⟩ := EStateM.bind_eq_ok.mp h2
    have hmissing : Function.update (fun _ => none) (packageJsonPath execPath)
        (some (env.json.pretty (execManifest name version))) (planPath execPath) = none := by
      rw [Function.update_of_ne (packageJsonPath_ne_planPath _ _).symm]
    rw [persistedPlan_missing hmissing] at hprevious
    obtain ⟨rfl, rfl⟩ := EStateM.Result.ok.inj hprevious
    obtain ⟨_, s₅, hvalid, h4⟩ := EStateM.bind_eq_ok.mp h3
    obtain ⟨-, rfl⟩ := fromExcept_ok.mp hvalid
    obtain ⟨rfl, -⟩ := EStateM.Result.ok.inj h4
    obtain ⟨entries, hentries, hplan⟩ := Except.bind_eq_ok.mp h
    obtain rfl := Except.ok.inj hplan
    exact ⟨planned, entries, hplanned, hentries, rfl⟩
  · cases h

theorem artifactOf_eq_some {directory : List Component} {node : PlacementNode}
    {artifact : Artifact} : artifactOf directory node = some artifact ↔
      placement node.location = directory ∧ node.link = false ∧ node.name = artifact.name ∧
        node.version = artifact.version ∧ node.integrity = artifact.integrity := by
  unfold artifactOf
  split_ifs with hplaced
  · rw [Option.some_inj, and_iff_right hplaced.1, and_iff_right hplaced.2]
    constructor
    · rintro rfl
      exact ⟨rfl, rfl, rfl⟩
    · rintro ⟨hname, hversion, hintegrity⟩
      rw [hname, hversion, hintegrity]
  · constructor
    · intro h
      cases h
    · rintro ⟨hplacement, hlink, -⟩
      exact absurd ⟨hplacement, hlink⟩ hplaced

theorem linkedArtifact_iff {execPath name version : String} {plan : PlacementPlan}
    (h : planExec env execPath name version = .ok plan) (artifact : Artifact) :
    linkedArtifact plan artifact.name = some artifact ↔
      PlansArtifact env.toEnvironment execPath artifact := by
  obtain ⟨planned, entries, hplanned, hentries, hnodes⟩ := planExec_ok h
  unfold linkedArtifact
  dsimp only
  rw [hnodes, lastPlaced_map fun node => (hydrateEntry_fields entries node).1]
  rw [Option.bind_map, Option.bind_eq_some_iff]
  constructor
  · rintro ⟨node, hlast, hartifact⟩
    obtain ⟨hlocation, hlink, hname, hversion⟩ := hydrateEntry_fields entries node
    have hfields := artifactOf_eq_some.mp hartifact
    rw [hlocation, hlink, hname, hversion, hydrateEntry_integrity hentries] at hfields
    exact ⟨planned, node, hplanned, hlast, hfields⟩
  · rintro ⟨planned', node, hplanned', hlast, hfields⟩
    obtain rfl := Except.ok.inj (hplanned.symm.trans hplanned')
    obtain ⟨hlocation, hlink, hname, hversion⟩ := hydrateEntry_fields entries node
    refine ⟨node, hlast, artifactOf_eq_some.mpr ?_⟩
    rw [hlocation, hlink, hname, hversion, hydrateEntry_integrity hentries]
    exact hfields

theorem inspectPackage_plan {name version : String} {info : DistInfo} {full : Option Value}
    (h : inspectPackage env name version info full = .ok inspection) :
    env.execDir = .ok inspection.execPath ∧ inspection.artifact = ⟨name, version, info.integrity⟩ ∧
      planExec env inspection.execPath name version = .ok inspection.plan := by
  obtain ⟨execPath, hexecDir, h1⟩ := Except.bind_eq_ok.mp h
  obtain ⟨plan, hplan, h2⟩ := Except.bind_eq_ok.mp h1
  obtain ⟨graph, -, h3⟩ := Except.bind_eq_ok.mp h2
  obtain ⟨_, -, h4⟩ := Except.bind_eq_ok.mp h3
  obtain ⟨_, -, h5⟩ := Except.bind_eq_ok.mp h4
  obtain ⟨report, -, h6⟩ := Except.bind_eq_ok.mp h5
  obtain ⟨pkg, -, h7⟩ := Except.bind_eq_ok.mp h6
  obtain rfl := Except.ok.inj h7
  exact ⟨hexecDir, rfl, hplan⟩

theorem Inspects.cmdExec (h : Inspects env options s sandbox inspection) :
    cmdExec env options s = decideAndRun env options sandbox inspection s := by
  have hrun : inspectAndRun env options sandbox s = decideAndRun env options sandbox inspection s := by
    show EStateM.bind (Cli.inspect env options sandbox) _ s = _
    unfold EStateM.bind
    rw [h.inspect]
  unfold Cli.cmdExec
  rw [if_pos h.schema, h.resolved]
  show (if usesLocalBin env options sandbox = true then runLocalBin env options
    else inspectAndRun env options sandbox) s = _
  rw [h.notLocal]
  exact hrun

end Plan

/-! ## A registry that disagrees with the planner -/

def inspectsDemo (integrity : Option String) : Bool :=
  match inspect (demoExecEnvironment integrity) jsonOptions noSandbox demoSession with
  | .ok inspection _ => inspection.artifact = ⟨"demo", "1.0.0", some "sha512-one"⟩ ∧
      inspection.execPath = "/tmp/exec" ∧ inspection.plan.nodes = [execNode integrity]
  | .error _ _ => false

theorem demo_inspects {integrity : Option String} (h : inspectsDemo integrity) :
    ∃ inspection, Inspects (demoExecEnvironment integrity) jsonOptions demoSession noSandbox
        inspection ∧ inspection.artifact = ⟨"demo", "1.0.0", some "sha512-one"⟩ ∧
      inspection.execPath = "/tmp/exec" ∧ inspection.plan.nodes = [execNode integrity] := by
  unfold inspectsDemo at h
  split at h
  · next inspection s' hok =>
    obtain ⟨rfl, -⟩ := inspect_ok hok
    exact ⟨inspection, ⟨Or.inr rfl, rfl, rfl, hok⟩, of_decide_eq_true h⟩
  · cases h

end Oath.Cli
