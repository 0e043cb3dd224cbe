import Oath.Cli.Install
import Oath.Cli.WorkspacePlacement

/-! `remove`: the entries that it takes out of the manifest, and what it then does with
`node_modules`. -/

namespace Oath.Cli
open Contracts Registry Resolve Store Unix Value

/-! ## Entries of a manifest -/

def dependencyGroups : List String :=
  ["dependencies", "devDependencies", "optionalDependencies", "peerDependencies"]

/-- The groups that the command looks at. -/
def editedGroups : List String := ["dependencies", "devDependencies"]

def hasEntry (pkg : Value) (group name : String) : Bool :=
  match (pkg.get? group).bind Value.asObject? with
  | some entries => entries.any fun entry => entry.1 = name
  | none => false

def updateFirst (key : String) (f : Value → Value) : List (String × Value) → List (String × Value)
  | [] => []
  | field :: fields =>
    if field.1 = key then (key, f field.2) :: fields else field :: updateFirst key f fields

/-- `get_mut`, when there is such a field. -/
def updateField (key : String) (f : Value → Value) : Value → Value
  | .object fields => .object (updateFirst key f fields)
  | value => value

def removeEntry (name : String) : Value → Value
  | .object entries => .object (entries.filter fun entry => entry.1 ≠ name)
  | value => value

/-- One name is taken out of every group, and whether it was in one of them. -/
def takeFrom (name : String) : List String → Value → Value × Bool
  | [], pkg => (pkg, false)
  | group :: groups, pkg =>
    let (rest, removed) := takeFrom name groups (updateField group (removeEntry name) pkg)
    (rest, hasEntry pkg group name || removed)

/-- The manifest without the names, and the names that were in it. -/
def takeEntries : List String → Value → Value × List String
  | [], pkg => (pkg, [])
  | name :: names, pkg =>
    let (pkg, removed) := takeFrom name editedGroups pkg
    let (rest, removedNames) := takeEntries names pkg
    (rest, if removed then name :: removedNames else removedNames)

/-! ## The command -/

/-- What `remove` finds outside: it can also clear `node_modules`. -/
structure RemoveEnvironment (Text : Type) extends Environment Text where
  cleanNodeModules : Except String Unit

/-- What becomes of `node_modules`. -/
inductive ModulesChange
  | kept
  | deleted
  | linked (plan : PlacementPlan)

def PlacementRequest.remove (names : List String) : PlacementRequest := ⟨[], names, none, none⟩

section Command
variable {Text : Type} (env : RemoveEnvironment Text)

def removedLock (pkg : Value) (graph : DepGraph) : Lockfile :=
  .fromGraphWithManifest graph ((pkg.index "name").asStr?.getD "project")
    ((pkg.index "version").asStr?.getD "0.0.0") (extractDeps pkg "dependencies")
    (extractDeps pkg "devDependencies")

def clearProject (pkg : Value) : Command Text ModulesChange := do
  fromExcept env.cleanNodeModules
  writeFile (packageJsonPath env.cwd) (env.json.pretty pkg)
  writeLockfile env.json env.cwd (removedLock pkg ⟨.empty, []⟩)
  modify fun s => { s with files := Function.update s.files (planPath env.cwd) none }
  pure .deleted

def replanProject (pkg : Value) (removedNames : List String) : Command Text ModulesChange := do
  let plan ← planWith env.toEnvironment env.cwd (.remove removedNames)
  let plan ← fromExcept (hydrateMissingRegistryMetadata env.toEnvironment plan)
  let graph ← fromExcept plan.toDepGraph
  let _ ← fromExcept (downloadMissing env.toEnvironment graph)
  fromExcept (env.linkPlacementPlan plan env.cwd)
  writePlan env.json env.cwd plan
  writeFile (packageJsonPath env.cwd) (env.json.pretty pkg)
  writeLockfile env.json env.cwd (removedLock pkg graph)
  pure (.linked plan)

def requestedNames (packages : List String) : List String :=
  packages.map fun package => (parsePackageSpec package).1

def nothingLeft (pkg : Value) : Bool :=
  (extractDeps pkg "dependencies").rows.isEmpty && (extractDeps pkg "devDependencies").rows.isEmpty

def cmdRemove (packages : List String) : Command Text ModulesChange := do
  if packages.isEmpty then pure .kept
  else
    if ((← get).files (packageJsonPath env.cwd)).isNone then throw "no package.json found"
    let pkg ← readPackageJson env.json env.cwd
    let (pkg, removedNames) := takeEntries (requestedNames packages) pkg
    if removedNames.isEmpty then pure .kept
    else if nothingLeft pkg then clearProject env pkg
    else replanProject env pkg removedNames

end Command

/-! ## What is taken out -/

section Entries
variable {pkg : Value} {name group : String}

theorem lookup_updateFirst (key : String) (f : Value → Value) (fields : List (String × Value))
    (other : String) : (updateFirst key f fields).lookup other =
      if other = key then (fields.lookup key).map f else fields.lookup other := by
  induction fields with
  | nil =>
    unfold updateFirst
    split_ifs <;> rfl
  | cons field fields ih =>
    unfold updateFirst
    split_ifs with hkey hother hother
    · rw [lookup_cons, lookup_cons, if_pos hother, if_pos hkey.symm]
      rfl
    · have hne : other ≠ field.1 := fun heq => hother (heq.trans hkey)
      rw [lookup_cons, lookup_cons, if_neg hother, if_neg hne]
    · have hne : other ≠ field.1 := fun heq => hkey (heq.symm.trans hother)
      rw [lookup_cons, lookup_cons, if_neg hne, if_neg (Ne.symm hkey), ih, if_pos hother]
    · rw [lookup_cons, lookup_cons, ih, if_neg hother]

theorem get?_updateField (key : String) (f : Value → Value) (pkg : Value) (other : String) :
    (updateField key f pkg).get? other =
      if other = key then (pkg.get? key).map f else pkg.get? other := by
  cases pkg with
  | object fields => exact lookup_updateFirst key f fields other
  | _ =>
    show none = _
    split_ifs <;> rfl

theorem hasEntry_iff : hasEntry pkg group name ↔
    ∃ entries, pkg.get? group = some (.object entries) ∧ ∃ entry ∈ entries, entry.1 = name := by
  unfold hasEntry
  cases hfield : pkg.get? group with
  | none => simp
  | some value => cases value <;> simp [Value.asObject?]

theorem hasEntry_updateField (taken other : String) :
    hasEntry (updateField taken (removeEntry name) pkg) group other ↔
      hasEntry pkg group other ∧ ¬ (group = taken ∧ other = name) := by
  rw [hasEntry_iff, hasEntry_iff, get?_updateField]
  by_cases hgroup : group = taken
  · subst hgroup
    rw [if_pos rfl]
    cases hfield : pkg.get? group with
    | none => simp
    | some value =>
      cases value with
      | object entries =>
        simp only [Option.map_some, removeEntry, Option.some.injEq, Value.object.injEq,
          exists_eq_left', List.mem_filter, true_and]
        constructor
        · rintro ⟨entry, ⟨hentry, hkept⟩, rfl⟩
          exact ⟨⟨entry, hentry, rfl⟩, by simpa using hkept⟩
        · rintro ⟨⟨entry, hentry, rfl⟩, hne⟩
          exact ⟨entry, ⟨hentry, by simpa using hne⟩, rfl⟩
      | _ => simp [removeEntry]
  · simp [hgroup]

theorem hasEntry_takeFrom (groups : List String) (other : String) :
    hasEntry (takeFrom name groups pkg).1 group other ↔
      hasEntry pkg group other ∧ ¬ (group ∈ groups ∧ other = name) := by
  induction groups generalizing pkg with
  | nil => simp [takeFrom]
  | cons first groups ih =>
    unfold takeFrom
    rw [ih, hasEntry_updateField, List.mem_cons]
    tauto

theorem takeFrom_removed (groups : List String) :
    (takeFrom name groups pkg).2 ↔ ∃ group ∈ groups, hasEntry pkg group name := by
  induction groups generalizing pkg with
  | nil => simp [takeFrom]
  | cons first groups ih =>
    unfold takeFrom
    rw [Bool.or_eq_true, ih, List.exists_mem_cons_iff]
    constructor
    · rintro (hfirst | ⟨group, hgroup, hentry⟩)
      · exact Or.inl hfirst
      · exact Or.inr ⟨group, hgroup, (hasEntry_updateField first name).mp hentry |>.1⟩
    · rintro (hfirst | ⟨group, hgroup, hentry⟩)
      · exact Or.inl hfirst
      · by_cases hsame : group = first
        · exact Or.inl (hsame ▸ hentry)
        · exact Or.inr ⟨group, hgroup, (hasEntry_updateField first name).mpr
            ⟨hentry, fun hboth => hsame hboth.1⟩⟩

theorem hasEntry_takeEntries (names : List String) (other : String) :
    hasEntry (takeEntries names pkg).1 group other ↔
      hasEntry pkg group other ∧ ¬ (group ∈ editedGroups ∧ other ∈ names) := by
  induction names generalizing pkg with
  | nil => simp [takeEntries]
  | cons name names ih =>
    unfold takeEntries
    rw [ih, hasEntry_takeFrom, List.mem_cons]
    tauto

theorem mem_takeEntries (names : List String) :
    name ∈ (takeEntries names pkg).2 ↔
      name ∈ names ∧ ∃ group ∈ editedGroups, hasEntry pkg group name := by
  induction names generalizing pkg with
  | nil => simp [takeEntries]
  | cons first names ih =>
    have hmem : name ∈ (takeEntries (first :: names) pkg).2 ↔
        (name = first ∧ ∃ group ∈ editedGroups, hasEntry pkg group first) ∨
          name ∈ (takeEntries names (takeFrom first editedGroups pkg).1).2 := by
      rw [← takeFrom_removed]
      simp only [takeEntries]
      split_ifs with hremoved <;> simp [hremoved]
    rw [hmem, ih, List.mem_cons]
    simp only [hasEntry_takeFrom]
    constructor
    · rintro (⟨rfl, hentry⟩ | ⟨hname, group, hgroup, hentry, -⟩)
      · exact ⟨Or.inl rfl, hentry⟩
      · exact ⟨Or.inr hname, group, hgroup, hentry⟩
    · rintro ⟨hname, group, hgroup, hentry⟩
      by_cases hsame : name = first
      · exact Or.inl ⟨hsame, group, hgroup, hsame ▸ hentry⟩
      · exact Or.inr ⟨hname.resolve_left hsame, group, hgroup, hentry, fun hboth => hsame hboth.2⟩

end Entries

/-! ## What is left -/

/-- Nothing but entries of these names is missing. -/
def EntriesLeft (names : List String) (before after : Value) : Prop :=
  before = after ∨ ∃ entries rest, before = .object entries ∧ after = .object rest ∧
    rest.Sublist entries ∧ ∀ entry ∈ entries, entry ∉ rest → entry.1 ∈ names

def FieldLeft (names : List String) (before after : String × Value) : Prop :=
  before.1 = after.1 ∧
    (before.2 = after.2 ∨ before.1 ∈ dependencyGroups ∧ EntriesLeft names before.2 after.2)

/-- The manifests differ only in entries of these names. -/
def DiffersInEntries (names : List String) (before after : Value) : Prop :=
  before = after ∨ ∃ fields fields', before = .object fields ∧ after = .object fields' ∧
    List.Forall₂ (FieldLeft names) fields fields'

section Left
variable {names : List String} {a b c : Value}

theorem EntriesLeft.trans (hab : EntriesLeft names a b) (hbc : EntriesLeft names b c) :
    EntriesLeft names a c := by
  rcases hab with rfl | ⟨entries, mid, rfl, rfl, hsub, hmissing⟩
  · exact hbc
  · rcases hbc with rfl | ⟨mid', rest, heq, rfl, hsub', hmissing'⟩
    · exact Or.inr ⟨entries, mid, rfl, rfl, hsub, hmissing⟩
    · obtain rfl := Value.object.inj heq
      refine Or.inr ⟨entries, rest, rfl, rfl, hsub'.trans hsub, fun entry hentry hgone => ?_⟩
      by_cases hmid : entry ∈ mid
      · exact hmissing' entry hmid hgone
      · exact hmissing entry hentry hmid

theorem FieldLeft.refl (field : String × Value) : FieldLeft names field field := ⟨rfl, Or.inl rfl⟩

theorem FieldLeft.trans {x y z : String × Value} (hxy : FieldLeft names x y)
    (hyz : FieldLeft names y z) : FieldLeft names x z := by
  obtain ⟨hkey, hleft⟩ := hxy
  obtain ⟨hkey', hleft'⟩ := hyz
  refine ⟨hkey.trans hkey', ?_⟩
  rcases hleft with hsame | ⟨hgroup, hleft⟩
  · rwa [hsame, hkey]
  · rcases hleft' with hsame | ⟨-, hleft'⟩
    · exact Or.inr ⟨hgroup, hsame ▸ hleft⟩
    · exact Or.inr ⟨hgroup, hleft.trans hleft'⟩

theorem fieldsLeft_trans {xs ys zs : List (String × Value)}
    (hxy : List.Forall₂ (FieldLeft names) xs ys) (hyz : List.Forall₂ (FieldLeft names) ys zs) :
    List.Forall₂ (FieldLeft names) xs zs := by
  induction hxy generalizing zs with
  | nil => exact hyz
  | cons hfirst _ ih =>
    cases hyz with
    | cons hfirst' hrest' => exact .cons (hfirst.trans hfirst') (ih hrest')

theorem DiffersInEntries.trans (hab : DiffersInEntries names a b)
    (hbc : DiffersInEntries names b c) : DiffersInEntries names a c := by
  rcases hab with rfl | ⟨fields, mid, rfl, rfl, hleft⟩
  · exact hbc
  · rcases hbc with rfl | ⟨mid', rest, heq, rfl, hleft'⟩
    · exact Or.inr ⟨fields, mid, rfl, rfl, hleft⟩
    · obtain rfl := Value.object.inj heq
      exact Or.inr ⟨fields, rest, rfl, rfl, fieldsLeft_trans hleft hleft'⟩

theorem entriesLeft_removeEntry {name : String} {value : Value}
    (h : ∀ entries, value = .object entries → (∃ entry ∈ entries, entry.1 = name) → name ∈ names) :
    EntriesLeft names value (removeEntry name value) := by
  cases value with
  | object entries =>
    refine Or.inr ⟨entries, _, rfl, rfl, List.filter_sublist, fun entry hentry hgone => ?_⟩
    have hname : entry.1 = name := by
      by_contra hne
      exact hgone (List.mem_filter.mpr ⟨hentry, by simpa using hne⟩)
    exact hname ▸ h entries rfl ⟨entry, hentry, hname⟩
  | _ => exact Or.inl rfl

theorem fieldsLeft_updateFirst {group name : String} (hgroup : group ∈ dependencyGroups)
    {fields : List (String × Value)} (h : ∀ entries, fields.lookup group = some (.object entries) →
      (∃ entry ∈ entries, entry.1 = name) → name ∈ names) :
    List.Forall₂ (FieldLeft names) fields (updateFirst group (removeEntry name) fields) := by
  induction fields with
  | nil => exact .nil
  | cons field fields ih =>
    unfold updateFirst
    split_ifs with hkey
    · have hleft : FieldLeft names field (group, removeEntry name field.2) := by
        refine ⟨hkey, Or.inr ⟨hkey ▸ hgroup, ?_⟩⟩
        refine entriesLeft_removeEntry fun entries hvalue hentry => h entries ?_ hentry
        rw [lookup_cons, if_pos hkey.symm, hvalue]
      exact .cons hleft (List.forall₂_same.mpr fun other _ => FieldLeft.refl other)
    · refine .cons (FieldLeft.refl field) (ih fun entries hvalue => h entries ?_)
      rw [lookup_cons, if_neg (Ne.symm hkey), hvalue]

theorem differs_updateField {group name : String} {pkg : Value}
    (hgroup : group ∈ dependencyGroups) (h : hasEntry pkg group name → name ∈ names) :
    DiffersInEntries names pkg (updateField group (removeEntry name) pkg) := by
  cases pkg with
  | object fields =>
    refine Or.inr ⟨fields, _, rfl, rfl, ?_⟩
    exact fieldsLeft_updateFirst hgroup fun entries hvalue hentry =>
      h (hasEntry_iff.mpr ⟨entries, hvalue, hentry⟩)
  | _ => exact Or.inl rfl

theorem differs_takeFrom {groups : List String} {name : String} {pkg : Value}
    (hgroups : ∀ group ∈ groups, group ∈ dependencyGroups)
    (h : ∀ group ∈ groups, hasEntry pkg group name → name ∈ names) :
    DiffersInEntries names pkg (takeFrom name groups pkg).1 := by
  induction groups generalizing pkg with
  | nil => exact Or.inl rfl
  | cons first groups ih =>
    have hfirst :=
      differs_updateField (hgroups first List.mem_cons_self) (h first List.mem_cons_self)
    refine hfirst.trans (ih (fun group hgroup => hgroups group (List.mem_cons_of_mem _ hgroup)) ?_)
    intro group hgroup hentry
    exact h group (List.mem_cons_of_mem _ hgroup) ((hasEntry_updateField first name).mp hentry).1

theorem differs_takeEntries {requested : List String} {pkg : Value}
    (h : ∀ name ∈ (takeEntries requested pkg).2, name ∈ names) :
    DiffersInEntries names pkg (takeEntries requested pkg).1 := by
  have hall : ∀ name ∈ requested, ∀ group ∈ editedGroups, hasEntry pkg group name → name ∈ names :=
    fun name hname group hgroup hentry =>
      h name ((mem_takeEntries requested).mpr ⟨hname, group, hgroup, hentry⟩)
  clear h
  induction requested generalizing pkg with
  | nil => exact Or.inl rfl
  | cons first requested ih =>
    have hfirst : DiffersInEntries names pkg (takeFrom first editedGroups pkg).1 :=
      differs_takeFrom (by decide) (hall first List.mem_cons_self)
    refine hfirst.trans (ih fun name hname group hgroup hentry => ?_)
    have hbefore := ((hasEntry_takeFrom _ name).mp hentry).1
    exact hall name (List.mem_cons_of_mem _ hname) group hgroup hbefore

end Left

/-! ## The run -/

section Run
variable {Text : Type} {env : RemoveEnvironment Text} {pkg : Value} {s s' : Session Text}
  {change : ModulesChange}

theorem files_written {path : String} {text : Text} (h : writeFile path text s = .ok () s') :
    s'.files path = some text := by
  rw [writeFile_ok h]
  exact Function.update_self ..

theorem files_not_written {path other : String} {text : Text} (hne : other ≠ path)
    (h : writeFile path text s = .ok () s') : s'.files other = s.files other := by
  rw [writeFile_ok h]
  exact Function.update_of_ne hne ..

theorem clearProject_ok (h : clearProject env pkg s = .ok change s') :
    change = .deleted ∧ s'.files (packageJsonPath env.cwd) = some (env.json.pretty pkg) := by
  obtain ⟨_, s₁, -, h1⟩ := EStateM.bind_eq_ok.mp h
  obtain ⟨_, s₂, hwrite, h2⟩ := EStateM.bind_eq_ok.mp h1
  obtain ⟨_, s₃, hlock, h3⟩ := EStateM.bind_eq_ok.mp h2
  obtain ⟨_, s₄, hplan, h4⟩ := EStateM.bind_eq_ok.mp h3
  obtain ⟨rfl, rfl⟩ := EStateM.Result.ok.inj h4
  obtain ⟨-, rfl⟩ := EStateM.Result.ok.inj hplan
  refine ⟨rfl, ?_⟩
  show Function.update s₃.files (planPath env.cwd) none (packageJsonPath env.cwd) = _
  rw [Function.update_of_ne (packageJsonPath_ne_planPath _ _),
    files_not_written (packageJsonPath_ne_lockPath _ _) hlock, files_written hwrite]

/-- The nodes of a plan stand where the planner put them. -/
theorem planWith_locations {env : Environment Text} {project : String} {request : PlacementRequest}
    {plan : PlacementPlan} (h : planWith env project request s = .ok plan s') :
    ∃ planned, env.arborist project request = .ok planned ∧
      plan.nodes.map PlacementNode.location = planned.nodes.map PlacementNode.location := by
  obtain ⟨planned, s₁, hplanned, h1⟩ := EStateM.bind_eq_ok.mp h
  obtain ⟨_, s₂, -, h2⟩ := EStateM.bind_eq_ok.mp h1
  obtain ⟨previous, s₃, -, h3⟩ := EStateM.bind_eq_ok.mp h2
  obtain ⟨_, s₄, -, h4⟩ := EStateM.bind_eq_ok.mp h3
  obtain ⟨rfl, rfl⟩ := EStateM.Result.ok.inj h4
  refine ⟨planned, (fromExcept_ok.mp hplanned).1, ?_⟩
  cases previous with
  | error message => rfl
  | ok previous =>
    have hsame (node : PlacementNode) : (hydrateNode previous node).location = node.location := by
      unfold hydrateNode
      split
      · rfl
      · split_ifs <;> rfl
    exact List.map_map.trans (List.map_congr_left fun node _ => hsame node)

theorem hydrateMissing_locations {env : Environment Text} {plan filled : PlacementPlan}
    (h : hydrateMissingRegistryMetadata env plan = .ok filled) :
    filled.nodes.map PlacementNode.location = plan.nodes.map PlacementNode.location := by
  obtain ⟨entries, -, hmap⟩ := Except.bind_eq_ok.mp h
  obtain rfl := Except.ok.inj hmap
  have hsame (node : PlacementNode) : (hydrateEntry entries node).location = node.location := by
    unfold hydrateEntry
    split <;> rfl
  exact List.map_map.trans (List.map_congr_left fun node _ => hsame node)

theorem replanProject_ok {removedNames : List String}
    (h : replanProject env pkg removedNames s = .ok change s') :
    ∃ planned plan, env.arborist env.cwd (.remove removedNames) = .ok planned ∧
      plan.nodes.map PlacementNode.location = planned.nodes.map PlacementNode.location ∧
      env.linkPlacementPlan plan env.cwd = .ok () ∧ change = .linked plan ∧
      s'.files (packageJsonPath env.cwd) = some (env.json.pretty pkg) := by
  obtain ⟨first, s₁, hfirst, h1⟩ := EStateM.bind_eq_ok.mp h
  obtain ⟨plan, s₂, hplan, h2⟩ := EStateM.bind_eq_ok.mp h1
  obtain ⟨graph, s₃, -, h3⟩ := EStateM.bind_eq_ok.mp h2
  obtain ⟨_, s₄, -, h4⟩ := EStateM.bind_eq_ok.mp h3
  obtain ⟨_, s₅, hlink, h5⟩ := EStateM.bind_eq_ok.mp h4
  obtain ⟨_, s₆, -, h6⟩ := EStateM.bind_eq_ok.mp h5
  obtain ⟨_, s₇, hwrite, h7⟩ := EStateM.bind_eq_ok.mp h6
  obtain ⟨_, s₈, hlock, h8⟩ := EStateM.bind_eq_ok.mp h7
  obtain ⟨rfl, rfl⟩ := EStateM.Result.ok.inj h8
  obtain ⟨planned, hplanned, hlocations⟩ := planWith_locations hfirst
  have hfilled := hydrateMissing_locations (fromExcept_ok.mp hplan).1
  refine ⟨planned, plan, hplanned, hfilled.trans hlocations, (fromExcept_ok.mp hlink).1, rfl, ?_⟩
  rw [files_not_written (packageJsonPath_ne_lockPath _ _) hlock, files_written hwrite]

/-- What a run does that succeeds. -/
inductive RemoveRun (env : RemoveEnvironment Text) (requested : List String) (pkg : Value)
    (s s' : Session Text) : ModulesChange → Prop
  | kept (hnone : (takeEntries requested pkg).2 = []) (hsame : s' = s) :
      RemoveRun env requested pkg s s' .kept
  | deleted (hsome : (takeEntries requested pkg).2 ≠ [])
      (hnothing : nothingLeft (takeEntries requested pkg).1)
      (hwritten : s'.files (packageJsonPath env.cwd) =
        some (env.json.pretty (takeEntries requested pkg).1)) :
      RemoveRun env requested pkg s s' .deleted
  | linked (planned plan : PlacementPlan) (hsome : (takeEntries requested pkg).2 ≠ [])
      (hleft : ¬ nothingLeft (takeEntries requested pkg).1)
      (hplanned : env.arborist env.cwd (.remove (takeEntries requested pkg).2) = .ok planned)
      (hlocations : plan.nodes.map PlacementNode.location =
        planned.nodes.map PlacementNode.location)
      (hlinked : env.linkPlacementPlan plan env.cwd = .ok ())
      (hwritten : s'.files (packageJsonPath env.cwd) =
        some (env.json.pretty (takeEntries requested pkg).1)) :
      RemoveRun env requested pkg s s' (.linked plan)

theorem cmdRemove_run {packages : List String} {text : Text}
    (hfile : s.files (packageJsonPath env.cwd) = some text) (hparse : env.json.parse text = .ok pkg)
    (h : cmdRemove env packages s = .ok change s') :
    RemoveRun env (requestedNames packages) pkg s s' change := by
  unfold cmdRemove at h
  split_ifs at h with hempty
  · obtain ⟨rfl, rfl⟩ := EStateM.Result.ok.inj h
    rw [List.isEmpty_iff.mp hempty]
    exact .kept rfl rfl
  · obtain ⟨s₀, s₁, hget, h1⟩ := EStateM.bind_eq_ok.mp h
    obtain ⟨rfl, rfl⟩ := EStateM.Result.ok.inj hget
    rw [hfile, Option.isNone_some, if_neg Bool.false_ne_true] at h1
    obtain ⟨value, s₂, hread, h3⟩ := EStateM.bind_eq_ok.mp h1
    obtain ⟨⟨text', hfile', hparse'⟩, rfl⟩ := readPackageJson_ok.mp hread
    obtain rfl := Option.some.inj (hfile.symm.trans hfile')
    obtain rfl := Except.ok.inj (hparse.symm.trans hparse')
    dsimp only at h3
    split_ifs at h3 with hnone hnothing
    · obtain ⟨rfl, rfl⟩ := EStateM.Result.ok.inj h3
      exact .kept (List.isEmpty_iff.mp hnone) rfl
    · obtain ⟨rfl, hwritten⟩ := clearProject_ok h3
      exact .deleted (fun heq => hnone (List.isEmpty_iff.mpr heq)) hnothing hwritten
    · obtain ⟨planned, plan, hplanned, hlocations, hlinked, rfl, hwritten⟩ := replanProject_ok h3
      exact .linked planned plan (fun heq => hnone (List.isEmpty_iff.mpr heq)) hnothing hplanned
        hlocations hlinked hwritten

end Run

/-! ## What stays -/

section Kept
variable {Text : Type} {env : RemoveEnvironment Text} {linker : LinkEnvironment} {k : Kernel}
  {s s' : Session Text} {packages names : List String} {text : Text} {pkg : Value}
  {change : ModulesChange}

def Declared (pkg : Value) (name : String) : Prop :=
  ∃ group ∈ dependencyGroups, hasEntry pkg group name

def Installed (linker : LinkEnvironment) (k : Kernel) (name : String) : Prop :=
  k.files.pathExists (linker.inLive (components (asBytes name)))

/-- Whether a package stands in `node_modules` afterwards. -/
def InstalledAfter (linker : LinkEnvironment) (k : Kernel) (name : String) : ModulesChange → Prop
  | .kept => Installed linker k name
  | .deleted => False
  | .linked plan => ∃ node, Places linker plan k node ∧ node.location = "node_modules/" ++ name

structure RemoveKeeps (linker : LinkEnvironment) (k : Kernel) (names : List String)
    (pkg written : Value) (change : ModulesChange) : Prop where
  installed (name : String) : Declared written name → Installed linker k name →
    InstalledAfter linker k name change
  differs : DiffersInEntries names pkg written
  gone (name : String) : name ∈ names → ¬ Declared written name

/-- The plan for a removal keeps what is declared and installed, but for the removed names. -/
def PlannerKeeps (env : RemoveEnvironment Text) (linker : LinkEnvironment) (k : Kernel)
    (pkg : Value) (removedNames : List String) : Prop :=
  ∀ plan, env.arborist env.cwd (.remove removedNames) = .ok plan → ∀ name, Declared pkg name →
    name ∉ removedNames → Installed linker k name →
      ∃ node ∈ plan.nodes, node.location = "node_modules/" ++ name

theorem extractDeps_isEmpty (pkg : Value) (group : String) :
    (extractDeps pkg group).rows.isEmpty ↔ ∀ name, ¬ hasEntry pkg group name := by
  unfold extractDeps hasEntry
  cases (pkg.get? group).bind Value.asObject? with
  | none => exact iff_of_true rfl fun _ => Bool.false_ne_true
  | some entries =>
    rw [List.isEmpty_iff]
    constructor
    · intro hempty name hany
      obtain ⟨entry, hentry, -⟩ := List.any_eq_true.mp hany
      have hfound : ((OrderedMap.ofList
          (entries.map fun field => (field.1, field.2.asStr?.getD "*"))).find? entry.1).isSome := by
        rw [OrderedMap.find?_ofList, Option.isSome_map, List.find?_isSome]
        exact ⟨_, List.mem_reverse.mpr (List.mem_map_of_mem hentry), by simp⟩
      obtain ⟨value, hvalue⟩ := Option.isSome_iff_exists.mp hfound
      have hmem := OrderedMap.find?_eq_some.mp hvalue
      rw [hempty] at hmem
      exact absurd hmem List.not_mem_nil
    · intro hnone
      cases entries with
      | nil => rfl
      | cons entry entries => exact absurd (by simp) (hnone entry.1)

theorem nothingLeft_iff (pkg : Value) :
    nothingLeft pkg ↔ ∀ group ∈ editedGroups, ∀ name, ¬ hasEntry pkg group name := by
  unfold nothingLeft editedGroups
  rw [Bool.and_eq_true, extractDeps_isEmpty, extractDeps_isEmpty]
  simp only [List.forall_mem_cons, List.not_mem_nil, false_imp_iff, implies_true, and_true]

theorem declared_iff (pkg : Value) (name : String) : Declared pkg name ↔
    (∃ group ∈ editedGroups, hasEntry pkg group name) ∨
      hasEntry pkg "optionalDependencies" name ∨ hasEntry pkg "peerDependencies" name := by
  unfold Declared dependencyGroups editedGroups
  simp only [List.mem_cons, List.not_mem_nil, or_false, exists_eq_or_imp, exists_eq_left, or_assoc]

/-- In the groups that the command does not look at everything stays. -/
theorem declared_takeEntries {requested : List String} {name : String} :
    Declared (takeEntries requested pkg).1 name ↔
      (name ∉ requested ∧ ∃ group ∈ editedGroups, hasEntry pkg group name) ∨
        hasEntry pkg "optionalDependencies" name ∨ hasEntry pkg "peerDependencies" name := by
  rw [declared_iff]
  simp only [hasEntry_takeEntries]
  have hoptional : "optionalDependencies" ∉ editedGroups := by decide
  have hpeer : "peerDependencies" ∉ editedGroups := by decide
  constructor
  · rintro (⟨group, hgroup, hentry, hkept⟩ | hother)
    · exact Or.inl ⟨fun hname => hkept ⟨hgroup, hname⟩, group, hgroup, hentry⟩
    · exact Or.inr (hother.imp And.left And.left)
  · rintro (⟨hname, group, hgroup, hentry⟩ | hother)
    · exact Or.inl ⟨group, hgroup, hentry, fun hboth => hname hboth.2⟩
    · exact Or.inr (hother.imp (fun hentry => ⟨hentry, fun hboth => hoptional hboth.1⟩)
        fun hentry => ⟨hentry, fun hboth => hpeer hboth.1⟩)

/-- Nothing of these names is declared where the command does not look. -/
def NotElsewhere (pkg : Value) (names : List String) : Prop :=
  ∀ name ∈ names,
    ¬ (hasEntry pkg "optionalDependencies" name ∨ hasEntry pkg "peerDependencies" name)

/-- With something taken out and nothing left where the command looks, nothing is installed that is
declared elsewhere. -/
def NothingElseInstalled (linker : LinkEnvironment) (k : Kernel) (pkg : Value)
    (requested : List String) : Prop :=
  (∃ name ∈ requested, ∃ group ∈ editedGroups, hasEntry pkg group name) →
    (∀ group ∈ editedGroups, ∀ name, hasEntry pkg group name → name ∈ requested) →
      ∀ name, hasEntry pkg "optionalDependencies" name ∨ hasEntry pkg "peerDependencies" name →
        ¬ Installed linker k name

theorem places_of_linked {directory : String} {plan : PlacementPlan}
    (h : linkerOf linker k plan directory = .ok ()) {node : PlacementNode}
    (hnode : node ∈ plan.nodes) : Places linker plan k node := by
  unfold linkerOf at h
  cases hresult : Store.linkPlacementPlan linker plan k with
  | ok result k' => exact linkPlacementPlan_places hresult hnode
  | error message k' =>
    rw [hresult] at h
    cases h

theorem gone_iff (pkg : Value) {requested : List String}
    (hnames : ∀ name ∈ names, name ∈ requested) :
    (∀ name ∈ names, ¬ Declared (takeEntries requested pkg).1 name) ↔ NotElsewhere pkg names := by
  refine forall₂_congr fun name hname => not_congr ?_
  rw [declared_takeEntries]
  exact or_iff_right fun hkept => hkept.1 (hnames name hname)

section Changes
variable {requested : List String} (hremoved : ∀ name ∈ (takeEntries requested pkg).2, name ∈ names)
  (hrequested : ∀ name ∈ names, name ∈ requested)

include hrequested

theorem keeps_kept_iff (hnone : (takeEntries requested pkg).2 = []) :
    RemoveKeeps linker k names pkg pkg .kept ↔
      NotElsewhere pkg names ∧ NothingElseInstalled linker k pkg requested := by
  have hnothing : ∀ name ∈ requested, ¬ ∃ group ∈ editedGroups, hasEntry pkg group name := by
    intro name hname hentry
    have htaken := (mem_takeEntries requested).mpr ⟨hname, hentry⟩
    rw [hnone] at htaken
    exact absurd htaken List.not_mem_nil
  constructor
  · intro h
    refine ⟨fun name hname hother => ?_,
      fun ⟨name, hname, hentry⟩ => absurd hentry (hnothing name hname)⟩
    exact h.gone name hname ((declared_iff pkg name).mpr (Or.inr hother))
  · rintro ⟨hnames, -⟩
    refine ⟨fun _ _ hinstalled => hinstalled, Or.inl rfl, fun name hname hdeclared => ?_⟩
    rcases (declared_iff pkg name).mp hdeclared with hentry | hother
    · exact hnothing name (hrequested name hname) hentry
    · exact hnames name hname hother

include hremoved

theorem keeps_deleted_iff (hsome : (takeEntries requested pkg).2 ≠ [])
    (hnothing : nothingLeft (takeEntries requested pkg).1) :
    RemoveKeeps linker k names pkg (takeEntries requested pkg).1 .deleted ↔
      NotElsewhere pkg names ∧ NothingElseInstalled linker k pkg requested := by
  have hgone := gone_iff pkg hrequested
  have hleft : ∀ group ∈ editedGroups, ∀ name, hasEntry pkg group name → name ∈ requested := by
    intro group hgroup name hentry
    by_contra hname
    exact (nothingLeft_iff _).mp hnothing group hgroup name
      ((hasEntry_takeEntries requested name).mpr ⟨hentry, fun hboth => hname hboth.2⟩)
  obtain ⟨first, hfirst⟩ := List.exists_mem_of_ne_nil _ hsome
  have htaken := (mem_takeEntries requested).mp hfirst
  constructor
  · intro h
    refine ⟨hgone.mp h.gone, fun _ _ name hother hinstalled => ?_⟩
    exact h.installed name (declared_takeEntries.mpr (Or.inr hother)) hinstalled
  · rintro ⟨hnames, helse⟩
    refine ⟨fun name hdeclared hinstalled => ?_, differs_takeEntries hremoved, hgone.mpr hnames⟩
    rcases declared_takeEntries.mp hdeclared with ⟨hname, group, hgroup, hentry⟩ | hother
    · exact hname (hleft group hgroup name hentry)
    · exact helse ⟨first, htaken⟩ hleft name hother hinstalled

theorem keeps_linked_iff {planned plan : PlacementPlan}
    (hleft : ¬ nothingLeft (takeEntries requested pkg).1)
    (hplanned : env.arborist env.cwd (.remove (takeEntries requested pkg).2) = .ok planned)
    (hlocations : plan.nodes.map PlacementNode.location = planned.nodes.map PlacementNode.location)
    (hplaces : ∀ node ∈ plan.nodes, Places linker plan k node)
    (hplanner : PlannerKeeps env linker k pkg (takeEntries requested pkg).2) :
    RemoveKeeps linker k names pkg (takeEntries requested pkg).1 (.linked plan) ↔
      NotElsewhere pkg names ∧ NothingElseInstalled linker k pkg requested := by
  have hgone := gone_iff pkg hrequested
  constructor
  · refine fun h => ⟨hgone.mp h.gone, fun _ hnothing => absurd ?_ hleft⟩
    refine (nothingLeft_iff _).mpr fun group hgroup name hentry => ?_
    obtain ⟨hentry, hkept⟩ := (hasEntry_takeEntries requested name).mp hentry
    exact hkept ⟨hgroup, hnothing group hgroup name hentry⟩
  · rintro ⟨hnames, -⟩
    refine ⟨fun name hdeclared hinstalled => ?_, differs_takeEntries hremoved, hgone.mpr hnames⟩
    have hkept : name ∉ (takeEntries requested pkg).2 :=
      fun htaken => hgone.mpr hnames name (hremoved name htaken) hdeclared
    have hbefore : Declared pkg name :=
      (declared_iff pkg name).mpr ((declared_takeEntries.mp hdeclared).imp_left And.right)
    obtain ⟨node, hnode, hlocation⟩ := hplanner planned hplanned name hbefore hkept hinstalled
    have hmem : "node_modules/" ++ name ∈ plan.nodes.map PlacementNode.location := by
      rw [hlocations, ← hlocation]
      exact List.mem_map_of_mem hnode
    obtain ⟨placed, hplaced, hplace⟩ := List.mem_map.mp hmem
    exact ⟨placed, hplaces placed hplaced, hplace⟩

end Changes

theorem exists_written_iff {json : JsonText Text} {path : String} {written : Value}
    {holds : Value → Prop} (hfile : s.files path = some text)
    (hparse : json.parse text = .ok written) :
    (∃ text' value, s.files path = some text' ∧ json.parse text' = .ok value ∧ holds value) ↔
      holds written := by
  constructor
  · rintro ⟨text', value, hfile', hparse', hholds⟩
    obtain rfl := Option.some.inj (hfile.symm.trans hfile')
    obtain rfl := Except.ok.inj (hparse.symm.trans hparse')
    exact hholds
  · exact fun hholds => ⟨text, written, hfile, hparse, hholds⟩

end Kept

/-! ## Two removals -/

section Demo

/-- A manifest with a dependency and one of another group. -/
def removeManifest (group : String) : Value :=
  .object [("dependencies", .object [("x", .string "^1.0.0")]),
    (group, .object [("y", .string "1.0.0")])]

def installedRows : List (Location × Entry) := demoRows ++ [
  (textLocation ["repo", "node_modules"], .directory),
  (textLocation ["repo", "node_modules", "y"], .directory),
  (textLocation ["repo", "node_modules", "y", "index.js"], .file 1)]

def installedKernel : Kernel := ⟨entriesOf installedRows (by decide), [], 1⟩

def demoRemove : RemoveEnvironment (Except String Value) where
  toEnvironment := { demoEnvironment [placementOf olderNode] with
    linkPlacementPlan := linkerOf demoLinker installedKernel }
  cleanNodeModules := .ok ()

theorem exists_of_succeeds {α : Type}
    {result : EStateM.Result String (Session (Except String Value)) α}
    (h : succeeds result = true) : ∃ a s', result = .ok a s' := by
  cases result with
  | ok a s' => exact ⟨a, s', rfl⟩
  | error message s' => exact absurd h Bool.false_ne_true

theorem demoRemove_plans : PlannerKeeps demoRemove demoLinker installedKernel
    (removeManifest "devDependencies") ["x"] := by
  intro plan hplan name hdeclared hname _
  obtain rfl := Except.ok.inj hplan
  have hy : name = "y" := by
    obtain ⟨group, hgroup, hentry⟩ := hdeclared
    obtain ⟨entries, hentries, entry, hmem, rfl⟩ := hasEntry_iff.mp hentry
    simp only [dependencyGroups, List.mem_cons, List.not_mem_nil, or_false] at hgroup
    rcases hgroup with rfl | rfl | rfl | rfl
    · obtain rfl := Value.object.inj (Option.some.inj hentries)
      rw [List.mem_singleton.mp hmem] at hname
      exact absurd List.mem_cons_self hname
    · obtain rfl := Value.object.inj (Option.some.inj hentries)
      rw [List.mem_singleton.mp hmem]
    · cases hentries
    · cases hentries
  exact ⟨placementOf olderNode, List.mem_cons_self, hy ▸ rfl⟩

end Demo

end Oath.Cli
