import Oath.Cli.Exec
import Oath.Contracts.Assessments
import Oath.Contracts.PrettyRead
import Oath.Library.Interleaving
import Oath.Transparency.Entries

/-! The file of remembered approvals. A call loads it, adds its approval, writes the new file aside
and renames it into place; several calls do so at the same time. The text of the file is read back as
the file. -/

namespace Oath.Cli.Approvals

/-- The text of a file is read back, with a schema version of 32 bits. -/
structure ApprovalJson where
  toVecPretty : ApprovalFile → List UInt8
  fromSlice : List UInt8 → Option ApprovalFile
  fromSlice_toVecPretty (file : ApprovalFile) : file.schemaVersion < 2 ^ 32 →
    fromSlice (toVecPretty file) = some file
  schemaVersion_lt {bytes : List UInt8} {file : ApprovalFile} : fromSlice bytes = some file →
    file.schemaVersion < 2 ^ 32

/-- What is loaded when there is no file. -/
def absent : ApprovalFile := ⟨1, []⟩

/-- The two names of the store, the data of files and the number of the next new file. -/
structure ApprovalDir where
  path : Option ℕ
  tmp : Option ℕ
  data : ℕ → List UInt8
  fresh : ℕ

/-- Where a call is. With the file to be stored stands what was found when it was loaded. -/
inductive Phase
  | called
  | found
  | opened (inode : ℕ)
  | loaded (seen : Option ℕ) (file : ApprovalFile)
  | writing (seen : Option ℕ) (file : ApprovalFile) (inode written : ℕ)
  | returned (ok : Bool)

inductive Syscall
  | exists?
  | open
  | read
  | createTmp
  | write (size : ℕ)
  | rename
  /-- Any call that fails, also one that makes the directory above. -/
  | fail
deriving DecidableEq

/-- A write at an offset. What is missing in front of it is filled with zeros. -/
def overwrite (data : List UInt8) (offset : ℕ) (bytes : List UInt8) : List UInt8 :=
  data.take offset ++ List.replicate (offset - data.length) 0 ++ bytes ++
    data.drop (offset + bytes.length)

section Steps
variable (json : ApprovalJson) (approval : ExecApproval)

def exists? (dir : ApprovalDir) : Phase :=
  match dir.path with
  | none => .loaded none (absent.add approval)
  | some _ => .found

def openPath (dir : ApprovalDir) : Phase :=
  match dir.path with
  | none => .returned false
  | some inode => .opened inode

def readPath (dir : ApprovalDir) (inode : ℕ) : Phase :=
  match json.fromSlice (dir.data inode) with
  | none => .returned false
  | some file => .loaded (some inode) (file.add approval)

/-- The file aside is made, or emptied when it is there. -/
def createTmp (dir : ApprovalDir) : ApprovalDir × ℕ :=
  match dir.tmp with
  | some inode => ({ dir with data := Function.update dir.data inode [] }, inode)
  | none => ({ dir with tmp := some dir.fresh, fresh := dir.fresh + 1,
                        data := Function.update dir.data dir.fresh [] }, dir.fresh)

/-- The next bytes go where the call has come to in the file that it has opened. -/
def writeTmp (dir : ApprovalDir) (file : ApprovalFile) (inode written size : ℕ) : ApprovalDir :=
  let bytes := ((json.toVecPretty file).drop written).take size
  { dir with data := Function.update dir.data inode (overwrite (dir.data inode) written bytes) }

/-- What is at the name aside now takes the place of the file. -/
def renameTmp (dir : ApprovalDir) : ApprovalDir × Phase :=
  match dir.tmp with
  | none => (dir, .returned false)
  | some inode => ({ dir with path := some inode, tmp := none }, .returned true)

def rememberStep (syscall : Syscall) (dir : ApprovalDir) (phase : Phase) :
    Option (ApprovalDir × Phase) :=
  match syscall, phase with
  | .exists?, .called => some (dir, exists? approval dir)
  | .open, .found => some (dir, openPath dir)
  | .read, .opened inode => some (dir, readPath json approval dir inode)
  | .createTmp, .loaded seen file =>
    some ((createTmp dir).1, .writing seen file (createTmp dir).2 0)
  | .write size, .writing seen file inode written =>
    if written + size ≤ (json.toVecPretty file).length then
      some (writeTmp json dir file inode written size, .writing seen file inode (written + size))
    else none
  | .rename, .writing _ file _ written =>
    if written = (json.toVecPretty file).length then some (renameTmp dir) else none
  | .fail, .returned _ => none
  | .fail, _ => some (dir, .returned false)
  | _, _ => none

end Steps

/-- Calls that each remember an approval. -/
def rememberCalls {Call : Type} (json : ApprovalJson) (approval : Call → ExecApproval) :
    Threads Call Syscall ApprovalDir Phase where
  step call syscall dir phase := rememberStep json (approval call) syscall dir phase

end Oath.Cli.Approvals

/-! ## The text of the file -/

namespace Oath.Cli
open Contracts Contracts.Value Transparency

def ExecApproval.fields (approval : ExecApproval) : List (String × Value) :=
  [("package", string approval.package), ("version", string approval.version),
    ("integrity", string approval.integrity), ("capabilities", strings approval.capabilities),
    ("sandbox_backend", string approval.sandboxBackend),
    ("deny_network", bool approval.denyNetwork)]

def ExecApproval.toValue (approval : ExecApproval) : Value := object approval.fields

def ExecApproval.ofValue? (value : Value) : Option ExecApproval := do
  let value ← value.record? ["package", "version", "integrity", "capabilities", "sandbox_backend",
    "deny_network"] 6
  let package ← value.field? "package" asStr?
  let version ← value.field? "version" asStr?
  let integrity ← value.field? "integrity" asStr?
  let capabilities ← value.field? "capabilities" strings?
  let sandboxBackend ← value.field? "sandbox_backend" asStr?
  let denyNetwork ← value.field? "deny_network" asBool?
  some ⟨package, version, integrity, capabilities, sandboxBackend, denyNetwork⟩

def ApprovalFile.fields (file : ApprovalFile) : List (String × Value) :=
  [("schema_version", int file.schemaVersion),
    ("approvals", array (file.approvals.map ExecApproval.toValue))]

def ApprovalFile.toValue (file : ApprovalFile) : Value := object file.fields

/-- Of a field that comes twice the last one counts. -/
def ApprovalFile.ofValue? (value : Value) : Option ApprovalFile := do
  let value ← value.record? ["schema_version", "approvals"] 2
  let schemaVersion ← value.field? "schema_version" asU32?
  let approvals ← value.field? "approvals" (listOf? ExecApproval.ofValue?)
  some ⟨schemaVersion.toNat, approvals⟩

theorem get?_ordered_of_nodup {fields : List (String × Value)} (h : (fields.map Prod.fst).Nodup) :
    ∀ field ∈ fields, (ordered (object fields)).get? field.1 = some field.2.ordered := by
  intro field hmem
  have hordered : ordered (object fields) =
      json (fields.map fun field => (field.1, field.2.ordered)) := by
    rw [ordered, orderedFields_eq]
  have hkeys : ((fields.map fun field => (field.1, field.2.ordered)).map Prod.fst).Nodup := by
    rw [List.map_map]
    exact h
  rw [hordered]
  exact get?_json_of_nodup hkeys _ (List.mem_map_of_mem hmem)

theorem ordered_strings (texts : List String) : ordered (strings texts) = strings texts :=
  orderedItems_map texts string

theorem ExecApproval.ofValue?_ordered (approval : ExecApproval) :
    ofValue? approval.toValue.ordered = some approval := by
  have hnodup : (approval.fields.map Prod.fst).Nodup := by simp [fields]
  have hget := get?_ordered_of_nodup hnodup
  simp only [fields, List.forall_mem_cons] at hget
  obtain ⟨h1, h2, h3, h4, h5, h6, -⟩ := hget
  have hcapabilities : strings? (ordered (strings approval.capabilities)) =
      some approval.capabilities := by
    rw [ordered_strings, strings?_strings]
  refine Option.bind_of_eq_some (a := approval.toValue.ordered) rfl ?_
  refine Option.bind_of_eq_some (field?_of_get? _ h1) ?_
  refine Option.bind_of_eq_some (field?_of_get? _ h2) ?_
  refine Option.bind_of_eq_some (field?_of_get? _ h3) ?_
  refine Option.bind_of_eq_some ((field?_of_get? _ h4).trans hcapabilities) ?_
  refine Option.bind_of_eq_some (field?_of_get? _ h5) ?_
  exact Option.bind_of_eq_some (field?_of_get? _ h6) rfl

theorem ApprovalFile.ofValue?_ordered {file : ApprovalFile} (h : file.schemaVersion < 2 ^ 32) :
    ofValue? file.toValue.ordered = some file := by
  have hnodup : (file.fields.map Prod.fst).Nodup := by simp [fields]
  have hget := get?_ordered_of_nodup hnodup
  simp only [fields, List.forall_mem_cons] at hget
  obtain ⟨h1, h2, -⟩ := hget
  have hversion : asU32? (ordered (int file.schemaVersion)) =
      some (UInt32.ofNat file.schemaVersion) := if_pos h
  have happrovals : listOf? ExecApproval.ofValue?
      (ordered (array (file.approvals.map ExecApproval.toValue))) = some file.approvals := by
    rw [orderedItems_map]
    exact listOf?_map ExecApproval.ofValue?_ordered file.approvals
  refine Option.bind_of_eq_some (a := file.toValue.ordered) rfl ?_
  refine Option.bind_of_eq_some ((field?_of_get? _ h1).trans hversion) ?_
  refine Option.bind_of_eq_some ((field?_of_get? _ h2).trans happrovals) ?_
  rw [UInt32.toNat_ofNat_of_lt' h]

theorem isMachineIntegral_strings (texts : List String) : isMachineIntegral (strings texts) := by
  induction texts with
  | nil => rfl
  | cons text rest ih => exact isMachineIntegral_cons.mpr ⟨rfl, ih⟩

theorem ExecApproval.isMachineIntegral_toValue (approval : ExecApproval) :
    approval.toValue.isMachineIntegral := by
  refine isMachineIntegralFields_cons.mpr ⟨rfl, isMachineIntegralFields_cons.mpr ⟨rfl, ?_⟩⟩
  refine isMachineIntegralFields_cons.mpr ⟨rfl, ?_⟩
  exact isMachineIntegralFields_cons.mpr ⟨isMachineIntegral_strings _, rfl⟩

theorem ApprovalFile.isMachineIntegral_toValue {file : ApprovalFile}
    (h : file.schemaVersion < 2 ^ 32) : file.toValue.isMachineIntegral := by
  have hversion : isMachine file.schemaVersion := by
    simp only [isMachine, Bool.and_eq_true, decide_eq_true_eq]
    omega
  have happrovals : isMachineIntegral (array (file.approvals.map ExecApproval.toValue)) := by
    induction file.approvals with
    | nil => rfl
    | cons approval rest ih =>
      exact isMachineIntegral_cons.mpr ⟨approval.isMachineIntegral_toValue, ih⟩
  refine isMachineIntegralFields_cons.mpr ⟨hversion, ?_⟩
  exact isMachineIntegralFields_cons.mpr ⟨happrovals, rfl⟩

theorem depth_strings (texts : List String) : depth (strings texts) ≤ 1 := by
  have hitems : depthItems (texts.map string) ≤ 0 := by
    refine depthItems_le.mpr fun value hvalue => ?_
    obtain ⟨text, -, rfl⟩ := List.mem_map.mp hvalue
    exact le_rfl
  have hdepth : depth (strings texts) = 1 + depthItems (texts.map string) := rfl
  omega

theorem ExecApproval.depth_le (approval : ExecApproval) : approval.toValue.depth ≤ 2 := by
  have hfields : depthFields approval.fields ≤ 1 := by
    refine depthFields_le.mpr fun field hfield => ?_
    simp only [fields, List.mem_cons, List.not_mem_nil, or_false] at hfield
    rcases hfield with rfl | rfl | rfl | rfl | rfl | rfl
    · exact Nat.zero_le 1
    · exact Nat.zero_le 1
    · exact Nat.zero_le 1
    · exact depth_strings _
    · exact Nat.zero_le 1
    · exact Nat.zero_le 1
  rw [toValue, depth]
  omega

theorem ApprovalFile.depth_le (file : ApprovalFile) : file.toValue.depth ≤ 4 := by
  have happrovals : depth (array (file.approvals.map ExecApproval.toValue)) ≤ 3 := by
    have hitems : depthItems (file.approvals.map ExecApproval.toValue) ≤ 2 := by
      refine depthItems_le.mpr fun value hvalue => ?_
      obtain ⟨approval, -, rfl⟩ := List.mem_map.mp hvalue
      exact approval.depth_le
    rw [depth]
    omega
  have hfields : depthFields file.fields ≤ 3 := by
    refine depthFields_le.mpr fun field hfield => ?_
    simp only [fields, List.mem_cons, List.not_mem_nil, or_false] at hfield
    rcases hfield with rfl | rfl
    · exact Nat.zero_le 3
    · exact happrovals
  rw [toValue, depth]
  omega

namespace Approvals
open Registry Replace

def fileOfSlice (bytes : List UInt8) : Option ApprovalFile :=
  (fromSlice (fun _ => none) recursionLimit bytes).bind ApprovalFile.ofValue?

/-- What was written is read back. -/
theorem fileOfSlice_pretty {file : ApprovalFile} (h : file.schemaVersion < 2 ^ 32) :
    fileOfSlice (encode (file.toValue.pretty 0)) = some file := by
  have hdepth : file.toValue.depth ≤ recursionLimit := le_trans file.depth_le (by decide)
  rw [fileOfSlice, fromSlice_pretty _ (ApprovalFile.isMachineIntegral_toValue h),
    within_of_le hdepth]
  exact ApprovalFile.ofValue?_ordered h

theorem fileOfSlice_schemaVersion {bytes : List UInt8} {file : ApprovalFile}
    (h : fileOfSlice bytes = some file) : file.schemaVersion < 2 ^ 32 := by
  obtain ⟨value, -, hvalue⟩ := Option.bind_eq_some_iff.mp h
  obtain ⟨record, -, hrecord⟩ := Option.bind_eq_some_iff.mp hvalue
  obtain ⟨version, -, hversion⟩ := Option.bind_eq_some_iff.mp hrecord
  obtain ⟨approvals, -, hfile⟩ := Option.bind_eq_some_iff.mp hversion
  obtain rfl := Option.some.inj hfile
  exact version.toNat_lt

def approvalJson : ApprovalJson where
  toVecPretty file := encode (file.toValue.pretty 0)
  fromSlice := fileOfSlice
  fromSlice_toVecPretty _ := fileOfSlice_pretty
  schemaVersion_lt := fileOfSlice_schemaVersion

end Approvals

end Oath.Cli
