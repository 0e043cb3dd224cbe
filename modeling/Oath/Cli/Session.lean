import Mathlib.Data.Prod.Lex
import Oath.Resolve.Lockfile
import Oath.Resolve.PersistedPlan

/-! The commands of the command line: the files they read and write, what they ask and what
they run, and the planning step that they share. -/

namespace Oath.Cli
open Contracts Registry Resolve

/-- The text of a JSON file as `serde_json` reads and writes it. -/
structure JsonText (Text : Type) where
  parse : Text → Except String Value
  pretty : Value → Text
  parse_pretty_lockfile (lockfile : Lockfile) :
    parse (pretty lockfile.toValue) = .ok lockfile.toValue

inductive ScriptDecision
  | allow
  | always
  | deny
deriving DecidableEq, Repr

inductive Event
  | asked (package : String) (decision : ScriptDecision)
  | ranScript (package directory hook command : String)
  | ranRootScript (hook command : String)
deriving DecidableEq, Repr

abbrev Files (Text : Type) := String → Option Text

/-- The end of the input and a line that cannot be read are the same here. -/
structure Session (Text : Type) where
  files : Files Text
  stdin : List String
  events : List Event

abbrev Command (Text α : Type) := EStateM String (Session Text) α

structure DistInfo where
  tarball : String
  integrity : Option String
deriving DecidableEq, Repr

structure PlacementRequest where
  add : List String
  rm : List String
  update : Option (List String)
  saveType : Option String

def PlacementRequest.default : PlacementRequest := ⟨[], [], none, none⟩

/-- What a command finds outside: Arborist, the registry, the store and the linker. -/
structure Environment (Text : Type) where
  json : JsonText Text
  cwd : String
  arborist : String → PlacementRequest → Except String PlacementPlan
  fetchPackument : String → Except String (OrderedMap String DistInfo)
  verified : DepNode → Bool
  download : List DepNode → Except String ℕ
  linkPlacementPlan : PlacementPlan → String → Except String Unit
  linkPlacementPlanClean : PlacementPlan → String → Except String Unit

section FileAccess
variable {Text : Type}

def readFile (path message : String) : Command Text Text := do
  match (← get).files path with
  | some text => pure text
  | none => throw message

def writeFile (path : String) (text : Text) : Command Text Unit :=
  modify fun s => { s with files := Function.update s.files path (some text) }

def fromExcept {α : Type} : Except String α → Command Text α
  | .ok a => pure a
  | .error message => throw message

def packageJsonPath (directory : String) : String := directory ++ "/package.json"
def lockPath (directory : String) : String := directory ++ "/oath-lock.json"
def planPath (directory : String) : String := directory ++ "/.oath/placement-plan.json"

def readPackageJson (json : JsonText Text) (directory : String) : Command Text Value := do
  let text ← readFile (packageJsonPath directory)
    "no package.json found (run `oath init` to create one)"
  match json.parse text with
  | .ok value => pure value
  | .error _ => throw "failed to parse package.json"

/-- A specification that is not a string counts as `*`. -/
def extractDeps (pkg : Value) (key : String) : OrderedMap String String :=
  match (pkg.get? key).bind Value.asObject? with
  | some fields => .ofList (fields.map fun field => (field.1, field.2.asStr?.getD "*"))
  | none => .empty

def readLockfile (json : JsonText Text) (directory : String) : Command Text Lockfile := do
  let text ← readFile (lockPath directory) "failed to read lockfile"
  match (json.parse text).toOption.bind Lockfile.ofValue? with
  | some lockfile => pure lockfile
  | none => throw "failed to parse lockfile"

def writeLockfile (json : JsonText Text) (directory : String) (lockfile : Lockfile) :
    Command Text Unit := writeFile (lockPath directory) (json.pretty lockfile.toValue)

def readPlan (json : JsonText Text) (directory : String) : Command Text PlacementPlan := do
  let path := planPath directory
  let text ← readFile path "No such file or directory (os error 2)"
  match json.parse text with
  | .ok value => fromExcept (PlacementPlan.read path value)
  | .error _ => throw ("decode placement plan " ++ path)

def writePlan (json : JsonText Text) (directory : String) (plan : PlacementPlan) :
    Command Text Unit := writeFile (planPath directory) (json.pretty plan.toValue)

end FileAccess

/-! ## Planning -/

section Planning
variable {Text : Type} (env : Environment Text)

/-- The persisted plan, if there is one that can be read. -/
def persistedPlan (directory : String) : Command Text (Except String PlacementPlan) := fun s =>
  match readPlan env.json directory s with
  | .ok plan _ => .ok (.ok plan) s
  | .error message _ => .ok (.error message) s

def planWith (project : String) (request : PlacementRequest) : Command Text PlacementPlan := do
  let plan ← fromExcept (env.arborist project request)
  fromExcept (checkSchemaVersion plan)
  let previous ← persistedPlan env project
  let plan := hydrateFromPersistedPlan previous plan
  fromExcept (validateLocations plan)
  pure plan

/-- Names and versions of the nodes without a resolved URL, in order. -/
def missingMetadata (nodes : List PlacementNode) : List (Lex (String × String)) :=
  (OrderedMap.ofList ((nodes.filter fun node => !node.link && node.resolved.isNone).map
    fun node => (toLex (node.name, node.version), ()))).keys

def registryEntry (key : Lex (String × String)) :
    Except String (Lex (String × String) × DistInfo) :=
  let (name, version) := ofLex key
  match env.fetchPackument name with
  | .error _ => .error ("recovering registry metadata for " ++ name ++ "@" ++ version)
  | .ok versions =>
    match versions.find? version with
    | none => .error ("registry has no metadata for " ++ name ++ "@" ++ version)
    | some info => .ok (key, info)

/-- An entry fills what is missing at every node of its name and version, links included. -/
def hydrateEntry (entries : List (Lex (String × String) × DistInfo)) (node : PlacementNode) :
    PlacementNode :=
  match entries.lookup (toLex (node.name, node.version)) with
  | none => node
  | some info => { node with
      resolved := node.resolved.or (some info.tarball)
      integrity := node.integrity.or info.integrity }

def hydrateMissingRegistryMetadata (plan : PlacementPlan) : Except String PlacementPlan := do
  let entries ← (missingMetadata plan.nodes).mapM (registryEntry env)
  .ok { plan with nodes := plan.nodes.map (hydrateEntry entries) }

abbrev Identity := String × String × String × Option String

def identityOf (node : DepNode) : Identity :=
  (node.name, node.version, node.resolved, node.integrity)

/-- The nodes to download, each identity once, and the number of those already there. -/
def missingStoreNodes : List DepNode → List Identity → List DepNode × ℕ
  | [], _ => ([], 0)
  | node :: rest, scheduled =>
    if env.verified node then
      let (toDownload, cached) := missingStoreNodes rest scheduled
      (toDownload, cached + 1)
    else if identityOf node ∈ scheduled then missingStoreNodes rest scheduled
    else
      let (toDownload, cached) := missingStoreNodes rest (identityOf node :: scheduled)
      (node :: toDownload, cached)

def downloadMissing (graph : DepGraph) : Except String ℕ :=
  env.download (missingStoreNodes env (graph.nodes.rows.map Prod.snd) []).1

end Planning

/-! ## The pieces of a command -/

section Pieces
variable {Text α : Type} {s s' : Session Text}

theorem fromExcept_ok {x : Except String α} {a : α} :
    (fromExcept x : Command Text α) s = .ok a s' ↔ x = .ok a ∧ s' = s := by
  cases x <;> simp [fromExcept, EStateM.pure_eq_ok, EStateM.throw_ne_ok, eq_comm]

theorem readFile_ok {path message : String} {text : Text} :
    readFile path message s = .ok text s' ↔ s.files path = some text ∧ s' = s := by
  have hread : readFile path message s = (match s.files path with
    | some text => pure text
    | none => throw message : Command Text Text) s := rfl
  rw [hread]
  cases s.files path <;> simp [EStateM.pure_eq_ok, EStateM.throw_ne_ok, eq_comm]

theorem readPackageJson_ok {json : JsonText Text} {directory : String} {pkg : Value} :
    readPackageJson json directory s = .ok pkg s' ↔
      (∃ text, s.files (packageJsonPath directory) = some text ∧ json.parse text = .ok pkg) ∧
        s' = s := by
  unfold readPackageJson
  rw [EStateM.bind_eq_ok]
  constructor
  · rintro ⟨text, s₁, htext, hparse⟩
    obtain ⟨hfile, rfl⟩ := readFile_ok.mp htext
    cases hvalue : json.parse text with
    | error message =>
      rw [hvalue] at hparse
      cases hparse
    | ok value =>
      rw [hvalue] at hparse
      obtain ⟨rfl, rfl⟩ := EStateM.Result.ok.inj hparse
      exact ⟨⟨text, hfile, hvalue⟩, rfl⟩
  · rintro ⟨⟨text, hfile, hparse⟩, rfl⟩
    refine ⟨text, s', readFile_ok.mpr ⟨hfile, rfl⟩, ?_⟩
    rw [hparse]
    rfl

theorem readLockfile_ok {json : JsonText Text} {directory : String} {lockfile : Lockfile} :
    readLockfile json directory s = .ok lockfile s' ↔
      (∃ text, s.files (lockPath directory) = some text ∧
        (json.parse text).toOption.bind Lockfile.ofValue? = some lockfile) ∧ s' = s := by
  unfold readLockfile
  rw [EStateM.bind_eq_ok]
  constructor
  · rintro ⟨text, s₁, htext, hparse⟩
    obtain ⟨hfile, rfl⟩ := readFile_ok.mp htext
    cases hvalue : (json.parse text).toOption.bind Lockfile.ofValue? with
    | none =>
      rw [hvalue] at hparse
      cases hparse
    | some value =>
      rw [hvalue] at hparse
      obtain ⟨rfl, rfl⟩ := EStateM.Result.ok.inj hparse
      exact ⟨⟨text, hfile, hvalue⟩, rfl⟩
  · rintro ⟨⟨text, hfile, hparse⟩, rfl⟩
    refine ⟨text, s', readFile_ok.mpr ⟨hfile, rfl⟩, ?_⟩
    rw [hparse]
    rfl

/-- A lockfile that was written is read back. -/
theorem readLockfile_written {json : JsonText Text} {directory : String} {lockfile : Lockfile}
    (h : s.files (lockPath directory) = some (json.pretty lockfile.toValue)) :
    readLockfile json directory s = .ok lockfile s := by
  refine readLockfile_ok.mpr ⟨⟨_, h, ?_⟩, rfl⟩
  rw [json.parse_pretty_lockfile]
  exact lockfile.ofValue?_toValue

theorem writeFile_ok {path : String} {text : Text} (h : writeFile path text s = .ok () s') :
    s' = { s with files := Function.update s.files path (some text) } :=
  (EStateM.Result.ok.inj h).2.symm

variable {env : Environment Text}

theorem persistedPlan_ok {directory : String} {previous : Except String PlacementPlan}
    (h : persistedPlan env directory s = .ok previous s') : s' = s := by
  unfold persistedPlan at h
  split at h
  · exact (EStateM.Result.ok.inj h).2.symm
  · exact (EStateM.Result.ok.inj h).2.symm

theorem persistedPlan_missing {directory : String} (h : s.files (planPath directory) = none) :
    persistedPlan env directory s =
      .ok (.error "No such file or directory (os error 2)") s := by
  have hread : readPlan env.json directory s =
      .error "No such file or directory (os error 2)" s := by
    unfold readPlan
    refine EStateM.bind_eq_error.mpr (Or.inl ?_)
    show (match s.files (planPath directory) with
      | some text => pure text
      | none => throw _ : Command Text Text) s = _
    rw [h]
    rfl
  unfold persistedPlan
  rw [hread]

theorem planWith_ok {project : String} {request : PlacementRequest} {plan : PlacementPlan}
    (h : planWith env project request s = .ok plan s') :
    validateLocations plan = .ok () ∧ s' = s := by
  obtain ⟨found, s₁, hfound, h1⟩ := EStateM.bind_eq_ok.mp h
  obtain ⟨-, rfl⟩ := fromExcept_ok.mp hfound
  obtain ⟨_, s₂, hversion, h2⟩ := EStateM.bind_eq_ok.mp h1
  obtain ⟨-, rfl⟩ := fromExcept_ok.mp hversion
  obtain ⟨previous, s₃, hprevious, h3⟩ := EStateM.bind_eq_ok.mp h2
  obtain rfl := persistedPlan_ok hprevious
  obtain ⟨_, s₄, hvalid, h4⟩ := EStateM.bind_eq_ok.mp h3
  obtain ⟨hlocations, rfl⟩ := fromExcept_ok.mp hvalid
  obtain ⟨rfl, rfl⟩ := EStateM.Result.ok.inj h4
  exact ⟨hlocations, rfl⟩

end Pieces

/-! ## The files of a directory -/

/-- Paths that end in different names differ. -/
theorem path_ne {a b x y : String} (hxy : ¬asBytes x <:+ asBytes y) (hyx : ¬asBytes y <:+ asBytes x) :
    a ++ x ≠ b ++ y := by
  intro h
  have hbytes := congrArg asBytes h
  rw [asBytes_append, asBytes_append] at hbytes
  have hx : asBytes x <:+ asBytes a ++ asBytes x := List.suffix_append _ _
  have hy : asBytes y <:+ asBytes a ++ asBytes x := hbytes ▸ List.suffix_append _ _
  rcases List.suffix_or_suffix_of_suffix hx hy with hle | hle
  · exact hxy hle
  · exact hyx hle

theorem packageJsonPath_ne_planPath (a b : String) : packageJsonPath a ≠ planPath b :=
  path_ne (by decide) (by decide)

theorem packageJsonPath_ne_lockPath (a b : String) : packageJsonPath a ≠ lockPath b :=
  path_ne (by decide) (by decide)

theorem planPath_ne_lockPath (a b : String) : planPath a ≠ lockPath b :=
  path_ne (by decide) (by decide)

/-! ## What a command leaves as it is -/

section Keeps
variable {Text View α β : Type} {view : Session Text → View}

/-- No run changes what one looks at, failed runs included. -/
abbrev Keeps (view : Session Text → View) : Command Text α → Prop :=
  EStateM.Moves fun s s' => view s = view s'

instance : Std.Refl fun s s' : Session Text => view s = view s' := ⟨fun _ => rfl⟩

instance : IsTrans (Session Text) fun s s' => view s = view s' := ⟨fun _ _ _ h h' => h.trans h'⟩

theorem keeps_bind {x : Command Text α} {f : α → Command Text β} (hx : Keeps view x)
    (hf : ∀ a, Keeps view (f a)) : Keeps view (x >>= f) := EStateM.moves_bind hx hf

theorem keeps_pure (a : α) : Keeps view (pure a : Command Text α) := EStateM.moves_pure a

theorem keeps_throw (message : String) : Keeps view (throw message : Command Text α) :=
  EStateM.moves_throw message

theorem keeps_ok {x : Command Text α} (hx : Keeps view x) {s s' : Session Text} {a : α}
    (h : x s = .ok a s') : view s' = view s := by
  have hmoved := hx s
  rw [h] at hmoved
  exact hmoved.symm

theorem keeps_forM {items : List β} {f : β → Command Text Unit}
    (hf : ∀ item, Keeps view (f item)) : Keeps view (items.forM f) := by
  induction items with
  | nil => exact keeps_pure ()
  | cons item rest ih => exact keeps_bind (hf item) fun _ => ih

theorem keeps_fromExcept (x : Except String α) : Keeps view (fromExcept x : Command Text α) := by
  cases x
  · exact keeps_throw _
  · exact keeps_pure _

theorem keeps_readFile (path message : String) :
    Keeps view (readFile path message : Command Text Text) := by
  refine keeps_bind (fun _ => rfl) fun s => ?_
  split
  · exact keeps_pure _
  · exact keeps_throw _

theorem keeps_readPackageJson (json : JsonText Text) (directory : String) :
    Keeps view (readPackageJson json directory) := by
  refine keeps_bind (keeps_readFile _ _) fun text => ?_
  split
  · exact keeps_pure _
  · exact keeps_throw _

theorem keeps_readLockfile (json : JsonText Text) (directory : String) :
    Keeps view (readLockfile json directory) := by
  refine keeps_bind (keeps_readFile _ _) fun text => ?_
  split
  · exact keeps_pure _
  · exact keeps_throw _

theorem keeps_planWith (env : Environment Text) (project : String) (request : PlacementRequest) :
    Keeps view (planWith env project request) := by
  refine keeps_bind (keeps_fromExcept _) fun plan => ?_
  refine keeps_bind (keeps_fromExcept _) fun _ => ?_
  refine keeps_bind (fun s => ?_) fun previous => ?_
  · unfold persistedPlan
    split <;> rfl
  · exact keeps_bind (keeps_fromExcept _) fun _ => keeps_pure _

/-- Only the file of the path changes. -/
theorem keeps_writeFile {path other : String} (hne : other ≠ path) (text : Text) :
    Keeps (fun s => s.files path) (writeFile other text) := by
  intro s
  exact (Function.update_of_ne hne.symm _ _).symm

theorem keepsEvents_writeFile (path : String) (text : Text) :
    Keeps Session.events (writeFile path text) := fun _ => rfl

end Keeps

/-! ## Commands on files known by their values -/

def demoJson : JsonText (Except String Value) := ⟨id, .ok, fun _ => rfl⟩

def demoNode : PlacementNode where
  location := "node_modules/typescript"
  installName := "typescript"
  name := "typescript"
  version := "5.4.5"
  resolved := some "https://registry.npmjs.org/typescript/-/typescript-5.4.5.tgz"
  integrity := none
  dev := true
  optional := false
  hasInstallScript := false
  reuseExisting := false
  link := false
  target := none
  edges := []

def demoPlan (nodes : List PlacementNode) : PlacementPlan :=
  ⟨2, ⟨"@npmcli/arborist", "11.12.1"⟩, "/repo", nodes, [], []⟩

/-- Arborist plans these nodes; everything else succeeds. -/
def demoEnvironment (nodes : List PlacementNode) : Environment (Except String Value) where
  json := demoJson
  cwd := "/repo"
  arborist := fun _ _ => .ok (demoPlan nodes)
  fetchPackument := fun _ => .ok .empty
  verified := fun _ => true
  download := fun _ => .ok 0
  linkPlacementPlan := fun _ _ => .ok ()
  linkPlacementPlanClean := fun _ _ => .ok ()

def demoFiles (pkg : Value) : Session (Except String Value) where
  files := Function.update (fun _ => none) "/repo/package.json" (some (.ok pkg))
  stdin := []
  events := []

end Oath.Cli
