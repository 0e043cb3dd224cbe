import Oath.Cli.Frozen
import Oath.Workspace.Detection

/-! The install of a whole workspace, and when `ci` accepts the lockfile that it writes. -/

namespace Oath.Cli
open Contracts Resolve Workspace

section Command
variable {Text : Type} (env : Environment Text)

/-- A root manifest that cannot be read counts as missing. -/
def rootManifest (ws : WorkspaceRoot) (s : Session Text) : Option Manifest :=
  (s.files (packageJsonPath ws.root)).bind fun text =>
    (env.json.parse text).toOption.bind Manifest.ofValue?

def collectedDeps (ws : WorkspaceRoot) (s : Session Text) : CollectedDeps :=
  ws.collectExternalDeps (rootManifest env ws s) true

def nothingToInstall (deps : CollectedDeps) : Bool :=
  deps.external.rows.isEmpty && deps.workspaceLinks.isEmpty

/-- All external dependencies of the workspace stand under the root's dependencies. -/
def workspaceLock (graph : DepGraph) (external : OrderedMap String String) : Lockfile :=
  .fromGraphWithManifest graph "workspace" "0.0.0" external .empty

def planWorkspace (ws : WorkspaceRoot) : Command Text PlacementPlan := do
  let plan ← planWith env ws.root .default
  fromExcept (hydrateMissingRegistryMetadata env plan)

def installPlanned (ws : WorkspaceRoot) (external : OrderedMap String String)
    (plan : PlacementPlan) : Command Text Unit := do
  let graph ← fromExcept plan.toDepGraph
  let _ ← fromExcept (downloadMissing env graph)
  fromExcept (env.linkPlacementPlan plan ws.root)
  writePlan env.json ws.root plan
  writeLockfile env.json ws.root (workspaceLock graph external)

def cmdInstallWorkspace (ws : WorkspaceRoot) (dryRun : Bool) : Command Text Unit := do
  let deps := collectedDeps env ws (← get)
  if nothingToInstall deps || dryRun then pure ()
  else do
    let plan ← planWorkspace env ws
    installPlanned env ws deps.external plan

end Command

section Runs
variable {Text : Type} {env : Environment Text} {ws : WorkspaceRoot} {s s' : Session Text}

theorem planWorkspace_ok {plan : PlacementPlan} (h : planWorkspace env ws s = .ok plan s') :
    s' = s := by
  obtain ⟨found, s₁, hfound, h1⟩ := EStateM.bind_eq_ok.mp h
  obtain ⟨-, rfl⟩ := planWith_ok hfound
  exact (fromExcept_ok.mp h1).2

theorem installPlanned_ok {external : OrderedMap String String} {plan : PlacementPlan}
    (h : installPlanned env ws external plan s = .ok () s') :
    ∃ graph, plan.toDepGraph = .ok graph ∧
      s'.files = Function.update
        (Function.update s.files (planPath ws.root) (some (env.json.pretty plan.toValue)))
        (lockPath ws.root) (some (env.json.pretty (workspaceLock graph external).toValue)) := by
  obtain ⟨graph, s₁, hgraph, h1⟩ := EStateM.bind_eq_ok.mp h
  obtain ⟨htoDepGraph, rfl⟩ := fromExcept_ok.mp hgraph
  obtain ⟨count, s₂, hdownload, h2⟩ := EStateM.bind_eq_ok.mp h1
  obtain ⟨-, rfl⟩ := fromExcept_ok.mp hdownload
  obtain ⟨_, s₃, hlink, h3⟩ := EStateM.bind_eq_ok.mp h2
  obtain ⟨-, rfl⟩ := fromExcept_ok.mp hlink
  obtain ⟨_, s₄, hplan, h4⟩ := EStateM.bind_eq_ok.mp h3
  obtain rfl := writeFile_ok hplan
  rw [writeFile_ok h4]
  exact ⟨graph, htoDepGraph, rfl⟩

/-- A run that succeeds and has something to do leaves its lockfile and all other files but
the plan. -/
theorem cmdInstallWorkspace_ok {dryRun : Bool}
    (h : cmdInstallWorkspace env ws dryRun s = .ok () s') :
    if nothingToInstall (collectedDeps env ws s) || dryRun then s' = s
    else ∃ graph plan, s'.files = Function.update
        (Function.update s.files (planPath ws.root) (some plan)) (lockPath ws.root)
        (some (env.json.pretty (workspaceLock graph (collectedDeps env ws s).external).toValue)) := by
  obtain ⟨current, s₁, hcurrent, h1⟩ := EStateM.bind_eq_ok.mp h
  obtain ⟨rfl, rfl⟩ := EStateM.Result.ok.inj hcurrent
  split_ifs at h1 ⊢ with hnothing
  · exact (EStateM.Result.ok.inj h1).2.symm
  · obtain ⟨plan, s₂, hplan, h2⟩ := EStateM.bind_eq_ok.mp h1
    obtain rfl := planWorkspace_ok hplan
    obtain ⟨graph, -, hfiles⟩ := installPlanned_ok h2
    exact ⟨graph, _, hfiles⟩

end Runs

/-! ## When `ci` accepts the lockfile -/

theorem mapM_asStr? {fields : List (String × Value)} {rows : List (String × String)}
    (h : (fields.mapM fun field : String × Value => field.2.asStr?.map (field.1, ·)) = some rows) :
    fields.map (fun field => (field.1, field.2.asStr?.getD "*")) = rows := by
  induction fields generalizing rows with
  | nil =>
    obtain rfl := Option.some.inj h
    rfl
  | cons field rest ih =>
    rw [List.mapM_cons] at h
    obtain ⟨row, hrow, h1⟩ := Option.bind_eq_some_iff.mp h
    obtain ⟨rest', hrest, h2⟩ := Option.bind_eq_some_iff.mp h1
    obtain rfl := Option.some.inj h2
    obtain ⟨spec, hspec, rfl⟩ := Option.map_eq_some_iff.mp hrow
    rw [List.map_cons, ih hrest, hspec]
    rfl

/-- What `ci` finds under the root's dependencies, the workspace install finds too. -/
theorem dependencies_of_manifest {pkg : Value} {manifest : Manifest}
    (h : Manifest.ofValue? pkg = some manifest) {name spec : String}
    (hdep : (extractDeps pkg "dependencies").find? name = some spec) :
    manifest.dependencies.find? name = some spec := by
  obtain ⟨record, hrecord, h1⟩ := Option.bind_eq_some_iff.mp h
  obtain ⟨_, -, h2⟩ := Option.bind_eq_some_iff.mp h1
  obtain ⟨_, -, h3⟩ := Option.bind_eq_some_iff.mp h2
  obtain ⟨_, -, h4⟩ := Option.bind_eq_some_iff.mp h3
  obtain ⟨dependencies, hdeps, h5⟩ := Option.bind_eq_some_iff.mp h4
  obtain ⟨_, -, h6⟩ := Option.bind_eq_some_iff.mp h5
  obtain ⟨_, -, h7⟩ := Option.bind_eq_some_iff.mp h6
  obtain ⟨_, -, h8⟩ := Option.bind_eq_some_iff.mp h7
  obtain ⟨_, -, h9⟩ := Option.bind_eq_some_iff.mp h8
  obtain rfl := Option.some.inj h9
  unfold extractDeps at hdep
  cases hfield : (pkg.get? "dependencies").bind Value.asObject? with
  | none =>
    rw [hfield] at hdep
    cases hdep
  | some fields =>
    rw [hfield] at hdep
    obtain ⟨value, hvalue, hobject⟩ := Option.bind_eq_some_iff.mp hfield
    have hsame : record = pkg := by
      cases pkg with
      | object _ => exact (Option.some.inj hrecord).symm
      | _ => cases hvalue
    subst hsame
    rw [Value.fieldOr_of_get? _ _ hvalue] at hdeps
    obtain ⟨fields', hobject', hmap⟩ := Option.bind_eq_some_iff.mp hdeps
    obtain rfl := Option.some.inj (hobject.symm.trans hobject')
    obtain ⟨rows, hrows, rfl⟩ := Option.map_eq_some_iff.mp hmap
    rw [← mapM_asStr? hrows]
    exact hdep

/-- The root manifest declares under `dependencies` just the external dependencies of the
workspace. -/
structure RootDeclaresAll (ws : WorkspaceRoot) (pkg : Value) : Prop where
  noDev : extractDeps pkg "devDependencies" = .empty
  outside (name spec : String) :
    (extractDeps pkg "dependencies").find? name = some spec → ws.isExternal name spec
  declared (row : String × String) : row ∈ ws.declarations (Manifest.ofValue? pkg) true →
    ws.isExternal row.1 row.2 → row.1 ∈ (extractDeps pkg "dependencies").keys
  /-- A root manifest that the install cannot read leaves the declarations to the members. -/
  unread (name spec : String) : Manifest.ofValue? pkg = none →
    (extractDeps pkg "dependencies").find? name = some spec →
      ∃ before after, ws.declarations none true = before ++ (name, spec) :: after ∧
        ∀ row ∈ before, row.1 = name → ¬ws.isExternal row.1 row.2

theorem find?_external_isSome {ws : WorkspaceRoot} {manifest : Option Manifest} {name : String} :
    ((ws.collectExternalDeps manifest true).external.find? name).isSome ↔
      ∃ row ∈ ws.declarations manifest true, row.1 = name ∧ ws.isExternal row.1 row.2 := by
  rw [find?_external, Option.isSome_map, List.find?_isSome]
  simp only [Bool.and_eq_true, decide_eq_true_eq]

/-- The first declaration of a root dependency is the root's own. -/
theorem find?_external_of_root {ws : WorkspaceRoot} {manifest : Manifest} {name spec : String}
    (hdep : manifest.dependencies.find? name = some spec) (houtside : ws.isExternal name spec) :
    (ws.collectExternalDeps (some manifest) true).external.find? name = some spec := by
  have hrow : (name, spec) ∈ manifest.dependencies.rows := OrderedMap.find?_eq_some.mp hdep
  have hsome : (manifest.dependencies.rows.find? fun row =>
      row.1 = name && ws.isExternal row.1 row.2).isSome :=
    List.find?_isSome.mpr ⟨(name, spec), hrow, by simp [houtside]⟩
  obtain ⟨row, hfind⟩ := Option.isSome_iff_exists.mp hsome
  have hmem := List.mem_of_find?_eq_some hfind
  have hname : row.1 = name := (by simpa using List.find?_some hfind : row.1 = name ∧ _).1
  obtain rfl : row = (name, spec) := manifest.dependencies.toTable.key_inj hmem hrow hname
  rw [find?_external]
  unfold WorkspaceRoot.declarations WorkspaceRoot.dependencyGroups
  simp only [Option.map_some, Option.getD_some, if_true, List.cons_append, List.flatMap_cons,
    List.find?_append, hfind]
  rfl

theorem external_eq_dependencies_iff {ws : WorkspaceRoot} {pkg : Value}
    (hdev : extractDeps pkg "devDependencies" = .empty) :
    (ws.collectExternalDeps (Manifest.ofValue? pkg) true).external =
      extractDeps pkg "dependencies" ↔ RootDeclaresAll ws pkg := by
  constructor
  · intro heq
    refine ⟨hdev, fun name spec hdep => ?_, fun row hrow hexternal => ?_,
      fun name spec hunread hdep => ?_⟩
    · rw [← heq, find?_external] at hdep
      obtain ⟨row, hfind, rfl⟩ := Option.map_eq_some_iff.mp hdep
      obtain ⟨rfl, hexternal⟩ : row.1 = name ∧ ws.isExternal row.1 row.2 := by
        simpa using List.find?_some hfind
      exact hexternal
    · rw [← heq, OrderedMap.mem_keys, find?_external_isSome]
      exact ⟨row, hrow, rfl, hexternal⟩
    · rw [← heq, hunread, find?_external] at hdep
      obtain ⟨row, hfind, rfl⟩ := Option.map_eq_some_iff.mp hdep
      obtain ⟨hrow, before, after, hsplit, hbefore⟩ := List.find?_eq_some_iff_append.mp hfind
      have hname : row.1 = name := (by simpa using hrow : row.1 = name ∧ _).1
      subst hname
      refine ⟨before, after, hsplit, fun other hother hname hexternal => ?_⟩
      have hskipped := hbefore other hother
      simp [hname] at hskipped
      exact absurd (hname ▸ hexternal) (by simp [hskipped])
  · intro h
    apply OrderedMap.ext
    intro name
    cases hdep : (extractDeps pkg "dependencies").find? name with
    | none =>
      by_contra hne
      obtain ⟨row, hrow, rfl, hexternal⟩ :=
        find?_external_isSome.mp (Option.isSome_iff_ne_none.mpr hne)
      have hkey := OrderedMap.mem_keys.mp (h.declared row hrow hexternal)
      rw [hdep] at hkey
      cases hkey
    | some spec =>
      have houtside := h.outside name spec hdep
      cases hmanifest : Manifest.ofValue? pkg with
      | some manifest =>
        exact find?_external_of_root (dependencies_of_manifest hmanifest hdep) houtside
      | none =>
        obtain ⟨before, after, hsplit, hbefore⟩ := h.unread name spec hmanifest hdep
        rw [find?_external, hsplit]
        have hskip : before.find? (fun row => row.1 = name && ws.isExternal row.1 row.2) = none := by
          apply List.find?_eq_none.mpr
          intro row hrow hfound
          obtain ⟨hname, hexternal⟩ : row.1 = name ∧ ws.isExternal row.1 row.2 := by
            simpa using hfound
          exact hbefore row hrow hname hexternal
        rw [List.find?_append, hskip]
        simp [houtside]

/-- `ci` accepts the lockfile of a workspace install if and only if the root manifest has no
devDependencies and its dependencies are just the external dependencies of the workspace. -/
theorem ci_accepts_workspace_lock_iff {Text : Type} {env : Environment Text} {ws : WorkspaceRoot}
    {s s' : Session Text} {pkg : Value}
    (hrun : cmdInstallWorkspace env ws false s = .ok () s')
    (hinstalled : nothingToInstall (collectedDeps env ws s) = false)
    (hpkg : readPackageJson env.json ws.root s' = .ok pkg s') :
    (∃ checked, checkManifest env ws.root s' = .ok checked s') ↔ RootDeclaresAll ws pkg := by
  have hfiles := cmdInstallWorkspace_ok hrun
  rw [hinstalled] at hfiles
  obtain ⟨graph, plan, hfiles⟩ := hfiles
  have hmanifest : rootManifest env ws s = Manifest.ofValue? pkg := by
    obtain ⟨⟨text, htext, hparse⟩, -⟩ := readPackageJson_ok.mp hpkg
    rw [hfiles, Function.update_of_ne (packageJsonPath_ne_lockPath _ _),
      Function.update_of_ne (packageJsonPath_ne_planPath _ _)] at htext
    unfold rootManifest
    rw [htext, Option.bind_some, hparse]
    rfl
  have hlock : readLockfile env.json ws.root s' =
      .ok (workspaceLock graph (collectedDeps env ws s).external) s' :=
    readLockfile_written (by rw [hfiles, Function.update_self])
  have hmatch : (workspaceLock graph (collectedDeps env ws s).external).matchesManifest
      (extractDeps pkg "dependencies") (extractDeps pkg "devDependencies") ↔
      RootDeclaresAll ws pkg := by
    unfold Lockfile.matchesManifest
    rw [Bool.and_eq_true, decide_eq_true_iff, decide_eq_true_iff]
    constructor
    · rintro ⟨hdeps, hdev⟩
      exact (external_eq_dependencies_iff hdev.symm).mp (by rw [← hmanifest]; exact hdeps)
    · intro h
      have hdeps := (external_eq_dependencies_iff h.noDev).mpr h
      rw [← hmanifest] at hdeps
      exact ⟨hdeps, h.noDev.symm⟩
  rw [← hmatch]
  constructor
  · rintro ⟨⟨pkg', lockfile⟩, hchecked⟩
    obtain ⟨hpkg', hlock', hmatches, -⟩ := checkManifest_ok.mp hchecked
    obtain ⟨rfl, -⟩ := EStateM.Result.ok.inj (hpkg.symm.trans hpkg')
    obtain ⟨rfl, -⟩ := EStateM.Result.ok.inj (hlock.symm.trans hlock')
    exact hmatches
  · intro hmatches
    exact ⟨(pkg, _), checkManifest_ok.mpr ⟨hpkg, hlock, hmatches, rfl⟩⟩

def demoWorkspace : WorkspaceRoot := ⟨"/repo", []⟩

def typescript : Value := .object [("typescript", .string "^5.4.0")]

theorem root_declares_all_demo : RootDeclaresAll demoWorkspace
    (.object [("dependencies", typescript)]) := by
  have hrun : ∃ s', cmdInstallWorkspace (demoEnvironment [demoNode]) demoWorkspace false
      (demoFiles (.object [("dependencies", typescript)])) = .ok () s' ∧
      readPackageJson demoJson "/repo" s' = .ok (.object [("dependencies", typescript)]) s' ∧
      ∃ checked, checkManifest (demoEnvironment [demoNode]) "/repo" s' = .ok checked s' :=
    ⟨_, rfl, rfl, _, rfl⟩
  obtain ⟨s', hinstall, hpkg, hchecked⟩ := hrun
  exact (ci_accepts_workspace_lock_iff hinstall rfl hpkg).mp hchecked

/-- A root that has devDependencies is not accepted: the lockfile lists them under the
dependencies. -/
theorem ci_refuses_root_dev_dependencies :
    ∃ s', cmdInstallWorkspace (demoEnvironment [demoNode]) demoWorkspace false
        (demoFiles (.object [("devDependencies", typescript)])) = .ok () s' ∧
      checkManifest (demoEnvironment [demoNode]) "/repo" s' =
        .error "package.json does not match oath-lock.json, run oath install first" s' :=
  ⟨_, rfl, rfl⟩

end Oath.Cli
