import Oath.Library.UnixPath

/-! The permissions of a sandbox policy and the plan the enforcement layer is given for
them, on the Unix targets. -/

namespace Oath.Sandbox

abbrev Path := List UInt8

def sandboxPlanVersion : Nat := 1

inductive NetworkMode
  | deny
  | inherit
deriving DecidableEq, Repr

structure ResourceLimits where
  timeoutSecs : Nat
  maxProcesses : Nat
  maxOpenFiles : Nat
  maxFileBytes : Nat
  maxMemoryBytes : Nat
deriving DecidableEq, Repr

def defaultMaxMemoryBytes : Nat := 1024 * 1024 * 1024

def ResourceLimits.default : ResourceLimits where
  timeoutSecs := 30
  maxProcesses := 64
  maxOpenFiles := 256
  maxFileBytes := 512 * 1024 * 1024
  maxMemoryBytes := defaultMaxMemoryBytes

structure SandboxPlan where
  version : Nat
  package : String
  workdir : Path
  readOnlyPaths : List Path
  writablePaths : List Path
  environmentAllowlist : List String
  network : NetworkMode
  allowSubprocesses : Bool
  limits : ResourceLimits
deriving DecidableEq, Repr

def SandboxPlan.strict (package : String) (workdir : Path) : SandboxPlan where
  version := sandboxPlanVersion
  package := package
  workdir := workdir
  readOnlyPaths := [workdir]
  writablePaths := [workdir]
  environmentAllowlist := ["PATH", "TERM"]
  network := .deny
  allowSubprocesses := true
  limits := .default

inductive Permission
  | network (hosts : List String)
  | read (paths : List Path)
  | write (paths : List Path)
  | env (names : List String)
  | subprocess (commands : List String)
  | unrestricted
deriving DecidableEq, Repr

/-- One of the paths is an ancestor of this one, or the path itself. -/
def covers (paths : List Path) (path : Path) : Bool :=
  paths.any fun allowed => Unix.startsWith path (Unix.components allowed)

structure SandboxPolicy where
  package : String
  workdir : Path
  permissions : List Permission
  timeoutSecs : Nat
deriving DecidableEq, Repr

namespace SandboxPolicy

def minimal (package : String) (workdir : Path) : SandboxPolicy where
  package := package
  workdir := workdir
  permissions := []
  timeoutSecs := 30

def isUnrestricted (policy : SandboxPolicy) : Bool :=
  policy.permissions.any fun
    | .unrestricted => true
    | _ => false

def allowsNetwork (policy : SandboxPolicy) : Bool :=
  policy.permissions.any fun
    | .network _ | .unrestricted => true
    | _ => false

def allowsRead (policy : SandboxPolicy) (path : Path) : Bool :=
  if policy.isUnrestricted then true
  else Unix.startsWith path (Unix.components policy.workdir) ||
    policy.permissions.any fun
      | .read paths => covers paths path
      | _ => false

def allowsWrite (policy : SandboxPolicy) (path : Path) : Bool :=
  if policy.isUnrestricted then true
  else policy.permissions.any fun
    | .write paths => covers paths path
    | _ => false

def allowsEnv (policy : SandboxPolicy) (name : String) : Bool :=
  if policy.isUnrestricted then true
  else policy.permissions.any fun
    | .env names => names.any (· == name)
    | _ => false

def allowsSubprocess (policy : SandboxPolicy) (command : String) : Bool :=
  if policy.isUnrestricted then true
  else policy.permissions.any fun
    | .subprocess commands => commands.any (· == command)
    | _ => false

def pushEnvName (names : List String) (name : String) : List String :=
  if names.contains name then names else names ++ [name]

def pushEnvNames (names : List String) : Permission → List String
  | .env allowed => allowed.foldl pushEnvName names
  | _ => names

/-- The environment stands for the names of the process's own variables. -/
def allowedEnvNames (environment : List String) (policy : SandboxPolicy) : List String :=
  if policy.isUnrestricted then environment
  else policy.permissions.foldl pushEnvNames []

end SandboxPolicy

def SandboxPlan.extendPaths (plan : SandboxPlan) : Permission → SandboxPlan
  | .read paths => { plan with readOnlyPaths := plan.readOnlyPaths ++ paths }
  | .write paths => { plan with writablePaths := plan.writablePaths ++ paths }
  | _ => plan

def SandboxPolicy.toPlan (environment : List String) (policy : SandboxPolicy) : SandboxPlan :=
  let strict := SandboxPlan.strict policy.package policy.workdir
  let plan := { strict with
    environmentAllowlist := policy.allowedEnvNames environment
    network := if policy.allowsNetwork then .inherit else .deny
    limits := { strict.limits with timeoutSecs := policy.timeoutSecs } }
  policy.permissions.foldl SandboxPlan.extendPaths plan

namespace Permission

/-- What a permission declares for reading. -/
def reads : Permission → List Path
  | .read paths => paths
  | _ => []

def writes : Permission → List Path
  | .write paths => paths
  | _ => []

def names : Permission → List String
  | .env names => names
  | _ => []

end Permission

section Coverage

theorem startsWith_iff {path : Path} {base : List Unix.Component} :
    Unix.startsWith path base = true ↔ base <+: Unix.components path :=
  List.isPrefixOf_iff_prefix

theorem startsWith_self (path : Path) :
    Unix.startsWith path (Unix.components path) = true :=
  startsWith_iff.mpr (List.prefix_refl _)

theorem startsWith_trans {path middle base : Path}
    (hpath : Unix.startsWith path (Unix.components middle) = true)
    (hmiddle : Unix.startsWith middle (Unix.components base) = true) :
    Unix.startsWith path (Unix.components base) = true :=
  startsWith_iff.mpr ((startsWith_iff.mp hmiddle).trans (startsWith_iff.mp hpath))

@[simp] theorem covers_iff {paths : List Path} {path : Path} :
    covers paths path = true ↔
      ∃ allowed ∈ paths, Unix.startsWith path (Unix.components allowed) = true := by
  simp [covers]

/-- What covers a directory covers everything below it. -/
theorem covers_below {paths : List Path} {path directory : Path}
    (hcovers : covers paths directory = true)
    (hbelow : Unix.startsWith path (Unix.components directory) = true) :
    covers paths path = true := by
  obtain ⟨allowed, hmem, hunder⟩ := covers_iff.mp hcovers
  exact covers_iff.mpr ⟨allowed, hmem, startsWith_trans hbelow hunder⟩

end Coverage

namespace SandboxPolicy

variable {policy : SandboxPolicy} {environment : List String} {path : Path} {name : String}

theorem isUnrestricted_iff :
    policy.isUnrestricted = true ↔ Permission.unrestricted ∈ policy.permissions := by
  unfold isUnrestricted
  rw [List.any_eq_true]
  constructor
  · intro ⟨permission, hmem, hkind⟩
    cases permission with
    | unrestricted => exact hmem
    | _ => simp at hkind
  · intro hmem
    exact ⟨.unrestricted, hmem, rfl⟩

/-- The directories a policy's write permissions name. -/
def writePaths (policy : SandboxPolicy) : List Path := policy.permissions.flatMap Permission.writes

def readPaths (policy : SandboxPolicy) : List Path := policy.permissions.flatMap Permission.reads

def envNames (policy : SandboxPolicy) : List String := policy.permissions.flatMap Permission.names

theorem allowsWrite_iff : policy.allowsWrite path = true ↔
    Permission.unrestricted ∈ policy.permissions ∨ covers policy.writePaths path = true := by
  rw [← isUnrestricted_iff]
  unfold allowsWrite
  cases hfree : policy.isUnrestricted with
  | true => simp
  | false =>
    have hdeclared : covers policy.writePaths path = true ↔
        ∃ permission ∈ policy.permissions, covers permission.writes path = true := by
      simp only [writePaths, covers, List.any_flatMap, List.any_eq_true]
    simp only [Bool.false_eq_true, if_false, false_or, hdeclared, List.any_eq_true]
    apply exists_congr
    intro permission
    cases permission <;> simp [Permission.writes]

theorem allowsRead_iff : policy.allowsRead path = true ↔
    Permission.unrestricted ∈ policy.permissions ∨
      covers (policy.workdir :: policy.readPaths) path = true := by
  rw [← isUnrestricted_iff]
  unfold allowsRead
  cases hfree : policy.isUnrestricted with
  | true => simp
  | false =>
    have hdeclared : covers (policy.workdir :: policy.readPaths) path = true ↔
        Unix.startsWith path (Unix.components policy.workdir) = true ∨
          ∃ permission ∈ policy.permissions, covers permission.reads path = true := by
      simp only [readPaths, covers, List.any_cons, List.any_flatMap, List.any_eq_true,
        Bool.or_eq_true]
    simp only [Bool.false_eq_true, if_false, false_or, hdeclared, Bool.or_eq_true,
      List.any_eq_true]
    apply or_congr_right
    apply exists_congr
    intro permission
    cases permission <;> simp [Permission.reads]

theorem allowsEnv_iff : policy.allowsEnv name = true ↔
    Permission.unrestricted ∈ policy.permissions ∨ name ∈ policy.envNames := by
  rw [← isUnrestricted_iff]
  unfold allowsEnv
  cases hfree : policy.isUnrestricted with
  | true => simp
  | false =>
    simp only [Bool.false_eq_true, if_false, false_or, List.any_eq_true, envNames,
      List.mem_flatMap]
    apply exists_congr
    intro permission
    cases permission <;> simp [Permission.names]

end SandboxPolicy

section EnvironmentNames

theorem mem_pushEnvName {names : List String} {added name : String} :
    name ∈ SandboxPolicy.pushEnvName names added ↔ name ∈ names ∨ name = added := by
  unfold SandboxPolicy.pushEnvName
  split
  · case isTrue hmem =>
    have hadded : added ∈ names := by simpa using hmem
    constructor
    · exact .inl
    · intro hname
      cases hname with
      | inl hname => exact hname
      | inr hname => exact hname ▸ hadded
  · simp

theorem mem_pushEnvNames {allowed names : List String} {name : String} :
    name ∈ allowed.foldl SandboxPolicy.pushEnvName names ↔ name ∈ names ∨ name ∈ allowed := by
  induction allowed generalizing names with
  | nil => simp
  | cons added allowed ih =>
    rw [List.foldl_cons, ih, mem_pushEnvName, List.mem_cons, or_assoc]

theorem mem_allowedEnvNames {policy : SandboxPolicy} {environment : List String} {name : String} :
    name ∈ policy.allowedEnvNames environment ↔ policy.allowsEnv name = true ∧
      (Permission.unrestricted ∈ policy.permissions → name ∈ environment) := by
  rw [SandboxPolicy.allowsEnv_iff, ← SandboxPolicy.isUnrestricted_iff]
  unfold SandboxPolicy.allowedEnvNames
  cases hfree : policy.isUnrestricted with
  | true => simp
  | false =>
    simp only [Bool.false_eq_true, if_false, false_or, false_implies, and_true]
    -- Over the permissions, whatever names stand there before.
    suffices hall : ∀ (permissions : List Permission) (names : List String),
        name ∈ permissions.foldl SandboxPolicy.pushEnvNames names ↔
          name ∈ names ∨ name ∈ permissions.flatMap Permission.names by
      simpa [SandboxPolicy.envNames] using hall policy.permissions []
    intro permissions
    induction permissions with
    | nil => simp
    | cons permission permissions ih =>
      intro names
      rw [List.foldl_cons, ih, List.flatMap_cons, List.mem_append, ← or_assoc]
      apply or_congr_left
      cases permission <;> simp [SandboxPolicy.pushEnvNames, Permission.names, mem_pushEnvNames]

end EnvironmentNames

section Plans

theorem extendPaths_foldl (permissions : List Permission) (plan : SandboxPlan) :
    permissions.foldl SandboxPlan.extendPaths plan = { plan with
      readOnlyPaths := plan.readOnlyPaths ++ permissions.flatMap Permission.reads
      writablePaths := plan.writablePaths ++ permissions.flatMap Permission.writes } := by
  induction permissions generalizing plan with
  | nil => simp
  | cons permission permissions ih =>
    rw [List.foldl_cons, ih]
    cases permission <;>
      simp [SandboxPlan.extendPaths, Permission.reads, Permission.writes]

/-- The plan starts with the work directory in both lists, and with subprocesses. -/
theorem toPlan_eq (policy : SandboxPolicy) (environment : List String) :
    policy.toPlan environment = { SandboxPlan.strict policy.package policy.workdir with
      readOnlyPaths := policy.workdir :: policy.readPaths
      writablePaths := policy.workdir :: policy.writePaths
      environmentAllowlist := policy.allowedEnvNames environment
      network := if policy.allowsNetwork then .inherit else .deny
      limits := { ResourceLimits.default with timeoutSecs := policy.timeoutSecs } } := by
  unfold SandboxPolicy.toPlan
  rw [extendPaths_foldl]
  rfl

end Plans

/-- The plan grants what the policy's own predicates allow, and no more. -/
structure GrantsOnlyAllowed (environment : List String) (policy : SandboxPolicy) : Prop where
  writable : ∀ path, covers (policy.toPlan environment).writablePaths path = true →
    policy.allowsWrite path = true
  readable : ∀ path, covers (policy.toPlan environment).readOnlyPaths path = true ∨
    covers (policy.toPlan environment).writablePaths path = true → policy.allowsRead path = true
  environmentNames : ∀ name, name ∈ (policy.toPlan environment).environmentAllowlist ↔
    policy.allowsEnv name = true ∧
      (Permission.unrestricted ∈ policy.permissions → name ∈ environment)
  network : (policy.toPlan environment).network = .inherit ↔ policy.allowsNetwork = true
  subprocesses : (policy.toPlan environment).allowSubprocesses = true →
    Permission.unrestricted ∈ policy.permissions ∨
      ∃ commands, Permission.subprocess commands ∈ policy.permissions

section Translation

variable (policy : SandboxPolicy) (environment : List String)

theorem toPlan_environment (name : String) :
    name ∈ (policy.toPlan environment).environmentAllowlist ↔ policy.allowsEnv name = true ∧
      (Permission.unrestricted ∈ policy.permissions → name ∈ environment) := by
  rw [toPlan_eq]
  exact mem_allowedEnvNames

theorem toPlan_network :
    (policy.toPlan environment).network = .inherit ↔ policy.allowsNetwork = true := by
  rw [toPlan_eq]
  cases policy.allowsNetwork <;> simp

/-- The work directory is writable in every plan: that is allowed exactly where a write
permission names it or a directory above it. -/
theorem writable_allowed_iff :
    (∀ path, covers (policy.toPlan environment).writablePaths path = true →
      policy.allowsWrite path = true) ↔
      Permission.unrestricted ∈ policy.permissions ∨
        covers policy.writePaths policy.workdir = true := by
  rw [toPlan_eq, ← SandboxPolicy.allowsWrite_iff]
  constructor
  · intro hall
    apply hall
    exact covers_iff.mpr ⟨policy.workdir, List.mem_cons_self, startsWith_self _⟩
  · intro hworkdir path hcovered
    obtain ⟨allowed, hmem, hunder⟩ := covers_iff.mp hcovered
    cases List.mem_cons.mp hmem with
    | inl hhead =>
      have hbelow : Unix.startsWith path (Unix.components policy.workdir) = true := hhead ▸ hunder
      cases SandboxPolicy.allowsWrite_iff.mp hworkdir with
      | inl hfree => exact SandboxPolicy.allowsWrite_iff.mpr (.inl hfree)
      | inr hdeclared =>
        exact SandboxPolicy.allowsWrite_iff.mpr (.inr (covers_below hdeclared hbelow))
    | inr htail =>
      have hdeclared : covers policy.writePaths path = true :=
        covers_iff.mpr ⟨allowed, htail, hunder⟩
      exact SandboxPolicy.allowsWrite_iff.mpr (.inr hdeclared)

theorem readable_allowed_iff :
    (∀ path, covers (policy.toPlan environment).readOnlyPaths path = true ∨
      covers (policy.toPlan environment).writablePaths path = true →
        policy.allowsRead path = true) ↔
      Permission.unrestricted ∈ policy.permissions ∨
        ∀ path ∈ policy.writePaths, covers (policy.workdir :: policy.readPaths) path = true := by
  rw [toPlan_eq]
  constructor
  · intro hall
    by_cases hfree : Permission.unrestricted ∈ policy.permissions
    · exact .inl hfree
    · apply Or.inr
      intro path hmem
      have hcovered : covers (policy.workdir :: policy.writePaths) path = true :=
        covers_iff.mpr ⟨path, List.mem_cons_of_mem _ hmem, startsWith_self _⟩
      have hread := SandboxPolicy.allowsRead_iff.mp (hall path (.inr hcovered))
      exact hread.resolve_left hfree
  · intro hdeclared path hcovered
    rw [SandboxPolicy.allowsRead_iff]
    cases hdeclared with
    | inl hfree => exact .inl hfree
    | inr hwrites =>
      apply Or.inr
      cases hcovered with
      | inl hread => exact hread
      | inr hwrite =>
        obtain ⟨allowed, hmem, hunder⟩ := covers_iff.mp hwrite
        cases List.mem_cons.mp hmem with
        | inl hhead => exact covers_iff.mpr ⟨allowed, hhead ▸ List.mem_cons_self, hunder⟩
        | inr htail => exact covers_below (hwrites allowed htail) hunder

/-- What the strict defaults grant already is allowed only when the permissions declare it:
some write permission reaches the work directory, every writable path is readable and some
subprocess permission is there. -/
theorem toPlan_grants_only_allowed_iff : GrantsOnlyAllowed environment policy ↔
    Permission.unrestricted ∈ policy.permissions ∨
      (covers policy.writePaths policy.workdir = true ∧
        (∀ path ∈ policy.writePaths,
          covers (policy.workdir :: policy.readPaths) path = true) ∧
        ∃ commands, Permission.subprocess commands ∈ policy.permissions) := by
  have hstrict : (policy.toPlan environment).allowSubprocesses = true := by
    rw [toPlan_eq]
    rfl
  constructor
  · intro hgrants
    by_cases hfree : Permission.unrestricted ∈ policy.permissions
    · exact .inl hfree
    · have hwrite := (writable_allowed_iff policy environment).mp hgrants.writable
      have hread := (readable_allowed_iff policy environment).mp hgrants.readable
      have hcommands := hgrants.subprocesses hstrict
      exact .inr ⟨hwrite.resolve_left hfree, hread.resolve_left hfree,
        hcommands.resolve_left hfree⟩
  · intro hdeclared
    refine ⟨?_, ?_, toPlan_environment policy environment, toPlan_network policy environment, ?_⟩
    · apply (writable_allowed_iff policy environment).mpr
      exact hdeclared.imp id (fun h => h.1)
    · apply (readable_allowed_iff policy environment).mpr
      exact hdeclared.imp id (fun h => h.2.1)
    · intro _
      exact hdeclared.imp id (fun h => h.2.2)

end Translation

/-- `/work`. -/
def demoWorkdir : Path := [47, 119, 111, 114, 107]

/-- The minimal policy allows no write in its work directory; its plan makes it writable. -/
theorem toPlan_grants_undeclared :
    ¬ ∀ environment policy, GrantsOnlyAllowed environment policy := by
  intro hall
  have hminimal := hall ["PATH"] (SandboxPolicy.minimal "demo" demoWorkdir)
  have hwrite := hminimal.writable demoWorkdir (by decide)
  exact absurd hwrite (by decide)

end Oath.Sandbox
