import Oath.Contracts.Decode
import Oath.Library.UnixPath
import Oath.Resolve.Placement

/-! Placement plans as they are kept: their JSON value, the checks of their locations and
what a new plan takes from the one before. -/

namespace Oath.Resolve
open Contracts Registry Unix

/-! ## Checks -/

/-- Both lists of locations go through the same checks. -/
def validateLocation (kind subject location : String) : Except String Unit :=
  if isAbsolute (asBytes location) then
    .error ("absolute " ++ subject ++ " path rejected: " ++ location)
  else if (components (asBytes location)).contains .parentDir then
    .error (kind ++ " traversal rejected: " ++ location)
  else if !beginsWith location "node_modules/" then
    .error (kind ++ " outside node_modules rejected: " ++ location)
  else .ok ()

def validateLocations (plan : PlacementPlan) : Except String Unit := do
  plan.nodes.forM fun node => validateLocation "placement" "placement" node.location
  plan.removedLocations.forM (validateLocation "removal" "removal")

def checkSchemaVersion (plan : PlacementPlan) : Except String Unit :=
  if plan.schemaVersion = placementPlanVersion then .ok ()
  else .error ("unsupported placement plan version " ++ toString plan.schemaVersion.toNat)

/-! ## The JSON value -/

def PlacementEdge.ofValue? (value : Value) : Option PlacementEdge := do
  let value ← value.record? ["name", "spec", "type", "target_location", "valid"] 5
  let name ← value.field? "name" Value.asStr?
  let spec ← value.field? "spec" Value.asStr?
  let dependencyType ← value.field? "type" Value.asStr?
  let targetLocation ← value.fieldOr "target_location" (Value.option? Value.asStr?) none
  let valid ← value.field? "valid" Value.asBool?
  some ⟨name, spec, dependencyType, targetLocation, valid⟩

def PlacementEdge.fields (edge : PlacementEdge) : List (String × Value) :=
  [("name", .string edge.name), ("spec", .string edge.spec),
    ("type", .string edge.dependencyType),
    ("target_location", Value.optString edge.targetLocation), ("valid", .bool edge.valid)]

def PlacementEdge.toValue (edge : PlacementEdge) : Value := .json edge.fields

def PlacementNode.ofValue? (value : Value) : Option PlacementNode := do
  let value ← value.record? ["location", "install_name", "name", "version", "resolved",
    "integrity", "dev", "optional", "has_install_script", "reuse_existing", "link", "target",
    "edges"] 13
  let location ← value.field? "location" Value.asStr?
  let installName ← value.field? "install_name" Value.asStr?
  let name ← value.field? "name" Value.asStr?
  let version ← value.field? "version" Value.asStr?
  let resolved ← value.fieldOr "resolved" (Value.option? Value.asStr?) none
  let integrity ← value.fieldOr "integrity" (Value.option? Value.asStr?) none
  let dev ← value.field? "dev" Value.asBool?
  let optional ← value.field? "optional" Value.asBool?
  let hasInstallScript ← value.field? "has_install_script" Value.asBool?
  let reuseExisting ← value.fieldOr "reuse_existing" Value.asBool? false
  let link ← value.field? "link" Value.asBool?
  let target ← value.fieldOr "target" (Value.option? Value.asStr?) none
  let edges ← value.field? "edges" (Value.listOf? PlacementEdge.ofValue?)
  some ⟨location, installName, name, version, resolved, integrity, dev, optional,
    hasInstallScript, reuseExisting, link, target, edges⟩

def PlacementNode.fields (node : PlacementNode) : List (String × Value) :=
  [("location", .string node.location), ("install_name", .string node.installName),
    ("name", .string node.name), ("version", .string node.version),
    ("resolved", Value.optString node.resolved), ("integrity", Value.optString node.integrity),
    ("dev", .bool node.dev), ("optional", .bool node.optional),
    ("has_install_script", .bool node.hasInstallScript),
    ("reuse_existing", .bool node.reuseExisting), ("link", .bool node.link),
    ("target", Value.optString node.target),
    ("edges", .array (node.edges.map PlacementEdge.toValue))]

def PlacementNode.toValue (node : PlacementNode) : Value := .json node.fields

def PlannerIdentity.ofValue? (value : Value) : Option PlannerIdentity := do
  let value ← value.record? ["name", "npm"] 2
  let name ← value.field? "name" Value.asStr?
  let npm ← value.field? "npm" Value.asStr?
  some ⟨name, npm⟩

def PlannerIdentity.toValue (planner : PlannerIdentity) : Value :=
  .json [("name", .string planner.name), ("npm", .string planner.npm)]

def PlacementPlan.ofValue? (value : Value) : Option PlacementPlan := do
  let value ← value.record? ["schema_version", "planner", "project", "nodes",
    "removed_locations", "invalid_edges"] 6
  let schemaVersion ← value.field? "schema_version" Value.asU32?
  let planner ← value.field? "planner" PlannerIdentity.ofValue?
  let project ← value.field? "project" Value.asStr?
  let nodes ← value.field? "nodes" (Value.listOf? PlacementNode.ofValue?)
  let removedLocations ← value.fieldOr "removed_locations" Value.strings? []
  let invalidEdges ← value.field? "invalid_edges" (Value.listOf? PlacementEdge.ofValue?)
  some ⟨schemaVersion, planner, project, nodes, removedLocations, invalidEdges⟩

def PlacementPlan.fields (plan : PlacementPlan) : List (String × Value) :=
  [("schema_version", .int plan.schemaVersion.toNat),
    ("planner", plan.planner.toValue),
    ("project", .string plan.project),
    ("nodes", .array (plan.nodes.map PlacementNode.toValue)),
    ("removed_locations", Value.strings plan.removedLocations),
    ("invalid_edges", .array (plan.invalidEdges.map PlacementEdge.toValue))]

def PlacementPlan.toValue (plan : PlacementPlan) : Value := .json plan.fields

/-- What is read from a plan file with this JSON value. -/
def PlacementPlan.read (path : String) (value : Value) : Except String PlacementPlan :=
  match PlacementPlan.ofValue? value with
  | none => .error ("decode placement plan " ++ path)
  | some plan => do
    checkSchemaVersion plan
    validateLocations plan
    .ok plan

/-! ## What was written is read back -/

theorem PlacementEdge.ofValue?_toValue (edge : PlacementEdge) :
    ofValue? edge.toValue = some edge := by
  have hnodup : (edge.fields.map Prod.fst).Nodup := by simp [fields]
  have hget := Value.get?_json_of_nodup hnodup
  simp only [fields, List.forall_mem_cons] at hget
  obtain ⟨h1, h2, h3, h4, h5, -⟩ := hget
  refine Option.bind_of_eq_some (a := edge.toValue) rfl ?_
  refine Option.bind_of_eq_some (Value.field?_of_get? _ h1) ?_
  refine Option.bind_of_eq_some (Value.field?_of_get? _ h2) ?_
  refine Option.bind_of_eq_some (Value.field?_of_get? _ h3) ?_
  refine Option.bind_of_eq_some ((Value.fieldOr_of_get? _ _ h4).trans
    (Value.option?_optString _)) ?_
  exact Option.bind_of_eq_some (Value.field?_of_get? _ h5) rfl

theorem PlannerIdentity.ofValue?_toValue (planner : PlannerIdentity) :
    ofValue? planner.toValue = some planner := by
  have hrecord : planner.toValue.record? ["name", "npm"] 2 = some planner.toValue := rfl
  unfold ofValue?
  rw [hrecord]
  unfold toValue
  simp [Value.field?, Value.get?_json]

theorem PlacementNode.ofValue?_toValue (node : PlacementNode) :
    ofValue? node.toValue = some node := by
  have hnodup : (node.fields.map Prod.fst).Nodup := by simp [fields]
  have hget := Value.get?_json_of_nodup hnodup
  simp only [fields, List.forall_mem_cons] at hget
  obtain ⟨h1, h2, h3, h4, h5, h6, h7, h8, h9, h10, h11, h12, h13, -⟩ := hget
  have htext := Value.option?_optString
  have hedges := Value.listOf?_map PlacementEdge.ofValue?_toValue node.edges
  refine Option.bind_of_eq_some (a := node.toValue) rfl ?_
  refine Option.bind_of_eq_some (Value.field?_of_get? _ h1) ?_
  refine Option.bind_of_eq_some (Value.field?_of_get? _ h2) ?_
  refine Option.bind_of_eq_some (Value.field?_of_get? _ h3) ?_
  refine Option.bind_of_eq_some (Value.field?_of_get? _ h4) ?_
  refine Option.bind_of_eq_some ((Value.fieldOr_of_get? _ _ h5).trans (htext _)) ?_
  refine Option.bind_of_eq_some ((Value.fieldOr_of_get? _ _ h6).trans (htext _)) ?_
  refine Option.bind_of_eq_some (Value.field?_of_get? _ h7) ?_
  refine Option.bind_of_eq_some (Value.field?_of_get? _ h8) ?_
  refine Option.bind_of_eq_some (Value.field?_of_get? _ h9) ?_
  refine Option.bind_of_eq_some (Value.fieldOr_of_get? _ _ h10) ?_
  refine Option.bind_of_eq_some (Value.field?_of_get? _ h11) ?_
  refine Option.bind_of_eq_some ((Value.fieldOr_of_get? _ _ h12).trans (htext _)) ?_
  exact Option.bind_of_eq_some ((Value.field?_of_get? _ h13).trans hedges) rfl

theorem PlacementPlan.ofValue?_toValue (plan : PlacementPlan) :
    ofValue? plan.toValue = some plan := by
  have hnodup : (plan.fields.map Prod.fst).Nodup := by simp [fields]
  have hget := Value.get?_json_of_nodup hnodup
  simp only [fields, List.forall_mem_cons] at hget
  obtain ⟨h1, h2, h3, h4, h5, h6, -⟩ := hget
  have hplanner := PlannerIdentity.ofValue?_toValue plan.planner
  have hnodes := Value.listOf?_map PlacementNode.ofValue?_toValue plan.nodes
  have hremoved := Value.strings?_strings plan.removedLocations
  have hedges := Value.listOf?_map PlacementEdge.ofValue?_toValue plan.invalidEdges
  refine Option.bind_of_eq_some (a := plan.toValue) rfl ?_
  refine Option.bind_of_eq_some ((Value.field?_of_get? _ h1).trans (Value.asU32?_int _)) ?_
  refine Option.bind_of_eq_some ((Value.field?_of_get? _ h2).trans hplanner) ?_
  refine Option.bind_of_eq_some (Value.field?_of_get? _ h3) ?_
  refine Option.bind_of_eq_some ((Value.field?_of_get? _ h4).trans hnodes) ?_
  refine Option.bind_of_eq_some ((Value.fieldOr_of_get? _ _ h5).trans hremoved) ?_
  exact Option.bind_of_eq_some ((Value.field?_of_get? _ h6).trans hedges) rfl

/-! ## What a new plan takes from the one before -/

def hydrateNode (previous : PlacementPlan) (node : PlacementNode) : PlacementNode :=
  match (OrderedMap.ofList (previous.nodes.map fun old => (old.location, old))).find?
      node.location with
  | none => node
  | some old =>
    if old.name ≠ node.name ∨ old.version ≠ node.version then node
    else { node with
      resolved := node.resolved.or old.resolved
      integrity := node.integrity.or old.integrity }

def hydrateFromPersistedPlan (previous : Except String PlacementPlan) (plan : PlacementPlan) :
    PlacementPlan :=
  match previous with
  | .error _ => plan
  | .ok previous => { plan with nodes := plan.nodes.map (hydrateNode previous) }

end Oath.Resolve
