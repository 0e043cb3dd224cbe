import Mathlib.Data.List.Nodup
import Oath.Contracts.Decode
import Oath.Contracts.Verdict

/-! The signed records of the contracts as JSON values: what a library reads from a document,
and that it reads back what it wrote. A field of a record that may be `null` may be missing as
well, and what the record has no field for is passed over. -/

namespace Oath.Contracts
open Value

namespace Value

def asU64? : Value → Option UInt64
  | int (.ofNat value) => if value < 2 ^ 64 then some (.ofNat value) else none
  | _ => none

def asU8? : Value → Option UInt8
  | int (.ofNat value) => if value < 2 ^ 8 then some (.ofNat value) else none
  | _ => none

theorem asU64?_int (n : UInt64) : asU64? (int n.toNat) = some n := by
  have hread : asU64? (int n.toNat) = some (.ofNat n.toNat) := if_pos n.toNat_lt
  rw [hread, UInt64.ofNat_toNat]

/-- A name of an enumeration, alone or as the only key of an object with `null`. -/
def variant? : Value → Option String
  | string name => some name
  | object [(name, null)] => some name
  | _ => none

def ofOption {α : Type} (write : α → Value) (value : Option α) : Value := (value.map write).getD null

/-- `null` is read back as nothing where no value is written as `null`. -/
theorem option?_ofOption {α : Type} {read : Value → Option α} {write : α → Value}
    (hread : ∀ a, read (write a) = some a) (hnull : ∀ a, write a ≠ null) (value : Option α) :
    option? read (ofOption write value) = some value := by
  cases value with
  | none => rfl
  | some a =>
    have hsome : option? read (write a) = (read (write a)).map some := by
      cases hwrite : write a with
      | null => exact absurd hwrite (hnull a)
      | bool | int | float | string | array | object => rfl
    rw [ofOption, Option.map_some, Option.getD_some, hsome, hread, Option.map_some]

end Value

/-! ## Enumerations -/

def Decision.ofStr? (text : String) : Option Decision :=
  [allow, deny, review, unknown].find? fun decision => decision.asStr = text

def Decision.ofValue? (value : Value) : Option Decision := value.variant?.bind ofStr?

theorem Decision.ofValue?_string (decision : Decision) :
    ofValue? (.string decision.asStr) = some decision := by cases decision <;> decide

def ReasonCode.all : List ReasonCode :=
  [execAllowed, execGradeBelowRequired, execReleaseTooNew, publishAllowed, publishSecretDetected,
    registryAllowed, registryCriticalBehavior, registryReviewRequired, registrySecretDetected,
    registryUnknown]

def ReasonCode.ofStr? (text : String) : Option ReasonCode :=
  ReasonCode.all.find? fun code => code.asStr = text

def ReasonCode.ofValue? (value : Value) : Option ReasonCode := value.variant?.bind ofStr?

theorem ReasonCode.ofValue?_string (code : ReasonCode) :
    ofValue? (.string code.asStr) = some code := by cases code <;> decide

/-! ## Signatures -/

def DetachedSignature.ofValue? (value : Value) : Option DetachedSignature := do
  let value ← value.record? ["algorithm", "canonicalization", "public_key", "signature"] 4
  let algorithm ← value.field? "algorithm" asStr?
  let canonicalization ← value.field? "canonicalization" asStr?
  let publicKey ← value.field? "public_key" asStr?
  let signature ← value.field? "signature" asStr?
  some ⟨algorithm, canonicalization, publicKey, signature⟩

theorem DetachedSignature.ofValue?_toValue (signature : DetachedSignature) :
    ofValue? signature.toValue = some signature := by
  have hrecord : signature.toValue.record? ["algorithm", "canonicalization", "public_key",
    "signature"] 4 = some signature.toValue := rfl
  unfold ofValue?
  rw [hrecord]
  unfold toValue
  simp [field?, get?_json]

/-! ## Publish assessments -/

structure PublishFile where
  path : String
  bytes : UInt64
  sha256 : String
deriving DecidableEq, Repr

def PublishFile.fields (file : PublishFile) : List (String × Value) :=
  [("path", .string file.path), ("bytes", .int file.bytes.toNat),
    ("sha256", .string file.sha256)]

def PublishFile.toValue (file : PublishFile) : Value := .json file.fields

def PublishFile.ofValue? (value : Value) : Option PublishFile := do
  let value ← value.record? ["path", "bytes", "sha256"] 3
  let path ← value.field? "path" asStr?
  let bytes ← value.field? "bytes" asU64?
  let sha256 ← value.field? "sha256" asStr?
  some ⟨path, bytes, sha256⟩

theorem PublishFile.ofValue?_toValue (file : PublishFile) :
    ofValue? file.toValue = some file := by
  have hnodup : (file.fields.map Prod.fst).Nodup := by simp [fields]
  have hget := Value.get?_json_of_nodup hnodup
  simp only [fields, List.forall_mem_cons] at hget
  obtain ⟨h1, h2, h3, -⟩ := hget
  refine Option.bind_of_eq_some (a := file.toValue) rfl ?_
  refine Option.bind_of_eq_some (Value.field?_of_get? _ h1) ?_
  refine Option.bind_of_eq_some ((Value.field?_of_get? _ h2).trans (asU64?_int _)) ?_
  exact Option.bind_of_eq_some (Value.field?_of_get? _ h3) rfl

structure PublishDiff where
  previousVersion : String
  addedFiles : List String
  removedFiles : List String
  changedFiles : List String
  capabilitiesAdded : List String
  capabilitiesRemoved : List String
deriving DecidableEq, Repr

def PublishDiff.fields (diff : PublishDiff) : List (String × Value) :=
  [("previous_version", .string diff.previousVersion), ("added_files", strings diff.addedFiles),
    ("removed_files", strings diff.removedFiles), ("changed_files", strings diff.changedFiles),
    ("capabilities_added", strings diff.capabilitiesAdded),
    ("capabilities_removed", strings diff.capabilitiesRemoved)]

def PublishDiff.toValue (diff : PublishDiff) : Value := .json diff.fields

def PublishDiff.ofValue? (value : Value) : Option PublishDiff := do
  let value ← value.record? ["previous_version", "added_files", "removed_files", "changed_files",
    "capabilities_added", "capabilities_removed"] 6
  let previousVersion ← value.field? "previous_version" asStr?
  let addedFiles ← value.field? "added_files" strings?
  let removedFiles ← value.field? "removed_files" strings?
  let changedFiles ← value.field? "changed_files" strings?
  let capabilitiesAdded ← value.field? "capabilities_added" strings?
  let capabilitiesRemoved ← value.field? "capabilities_removed" strings?
  some ⟨previousVersion, addedFiles, removedFiles, changedFiles, capabilitiesAdded,
    capabilitiesRemoved⟩

theorem PublishDiff.ofValue?_toValue (diff : PublishDiff) :
    ofValue? diff.toValue = some diff := by
  have hnodup : (diff.fields.map Prod.fst).Nodup := by simp [fields]
  have hget := Value.get?_json_of_nodup hnodup
  simp only [fields, List.forall_mem_cons] at hget
  obtain ⟨h1, h2, h3, h4, h5, h6, -⟩ := hget
  have hstrings := Value.strings?_strings
  refine Option.bind_of_eq_some (a := diff.toValue) rfl ?_
  refine Option.bind_of_eq_some (Value.field?_of_get? _ h1) ?_
  refine Option.bind_of_eq_some ((Value.field?_of_get? _ h2).trans (hstrings _)) ?_
  refine Option.bind_of_eq_some ((Value.field?_of_get? _ h3).trans (hstrings _)) ?_
  refine Option.bind_of_eq_some ((Value.field?_of_get? _ h4).trans (hstrings _)) ?_
  refine Option.bind_of_eq_some ((Value.field?_of_get? _ h5).trans (hstrings _)) ?_
  exact Option.bind_of_eq_some ((Value.field?_of_get? _ h6).trans (hstrings _)) rfl

structure PublishAssessmentV2 where
  schemaVersion : UInt32
  generatedAt : UInt64
  expiresAt : UInt64
  name : String
  version : String
  tag : String
  access : Option String
  packageDigest : String
  unpackedBytes : UInt64
  files : List PublishFile
  dependencyCount : UInt64
  lifecycleHooks : List String
  capabilities : List String
  sourceAvailable : Bool
  secretFindings : List String
  decision : Decision
  reasonCode : ReasonCode
  previousRelease : Option PublishDiff
  policyDigest : String
  evidenceDigest : String
  ruleBundleVersion : String
  limitations : List String
  signature : Option DetachedSignature
deriving DecidableEq, Repr

def PublishAssessmentV2.fields (a : PublishAssessmentV2) : List (String × Value) :=
  [("schema_version", .int a.schemaVersion.toNat), ("generated_at", .int a.generatedAt.toNat),
    ("expires_at", .int a.expiresAt.toNat), ("name", .string a.name),
    ("version", .string a.version), ("tag", .string a.tag), ("access", optString a.access),
    ("package_digest", .string a.packageDigest), ("unpacked_bytes", .int a.unpackedBytes.toNat),
    ("files", .array (a.files.map PublishFile.toValue)),
    ("dependency_count", .int a.dependencyCount.toNat),
    ("lifecycle_hooks", strings a.lifecycleHooks), ("capabilities", strings a.capabilities),
    ("source_available", .bool a.sourceAvailable), ("secret_findings", strings a.secretFindings),
    ("decision", .string a.decision.asStr), ("reason_code", .string a.reasonCode.asStr),
    ("previous_release", ofOption PublishDiff.toValue a.previousRelease),
    ("policy_digest", .string a.policyDigest), ("evidence_digest", .string a.evidenceDigest),
    ("rule_bundle_version", .string a.ruleBundleVersion), ("limitations", strings a.limitations),
    ("signature", ofOption DetachedSignature.toValue a.signature)]

def PublishAssessmentV2.toValue (a : PublishAssessmentV2) : Value := .json a.fields

def PublishAssessmentV2.ofValue? (value : Value) : Option PublishAssessmentV2 := do
  let value ← value.record? ["schema_version", "generated_at", "expires_at", "name", "version",
    "tag", "access", "package_digest", "unpacked_bytes", "files", "dependency_count",
    "lifecycle_hooks", "capabilities", "source_available", "secret_findings", "decision",
    "reason_code", "previous_release", "policy_digest", "evidence_digest", "rule_bundle_version",
    "limitations", "signature"] 23
  let schemaVersion ← value.field? "schema_version" asU32?
  let generatedAt ← value.field? "generated_at" asU64?
  let expiresAt ← value.field? "expires_at" asU64?
  let name ← value.field? "name" asStr?
  let version ← value.field? "version" asStr?
  let tag ← value.field? "tag" asStr?
  let access ← value.fieldOr "access" (option? asStr?) none
  let packageDigest ← value.field? "package_digest" asStr?
  let unpackedBytes ← value.field? "unpacked_bytes" asU64?
  let files ← value.field? "files" (listOf? PublishFile.ofValue?)
  let dependencyCount ← value.field? "dependency_count" asU64?
  let lifecycleHooks ← value.field? "lifecycle_hooks" strings?
  let capabilities ← value.field? "capabilities" strings?
  let sourceAvailable ← value.field? "source_available" asBool?
  let secretFindings ← value.field? "secret_findings" strings?
  let decision ← value.field? "decision" Decision.ofValue?
  let reasonCode ← value.field? "reason_code" ReasonCode.ofValue?
  let previousRelease ← value.fieldOr "previous_release" (option? PublishDiff.ofValue?) none
  let policyDigest ← value.field? "policy_digest" asStr?
  let evidenceDigest ← value.field? "evidence_digest" asStr?
  let ruleBundleVersion ← value.field? "rule_bundle_version" asStr?
  let limitations ← value.field? "limitations" strings?
  let signature ← value.fieldOr "signature" (option? DetachedSignature.ofValue?) none
  some ⟨schemaVersion, generatedAt, expiresAt, name, version, tag, access, packageDigest,
    unpackedBytes, files, dependencyCount, lifecycleHooks, capabilities, sourceAvailable,
    secretFindings, decision, reasonCode, previousRelease, policyDigest, evidenceDigest,
    ruleBundleVersion, limitations, signature⟩

/-- A record is never written as `null`. -/
theorem Value.json_ne_null (fields : List (String × Value)) : json fields ≠ null := by
  unfold json
  exact Value.noConfusion

theorem DetachedSignature.option?_ofOption (signature : Option DetachedSignature) :
    option? ofValue? (ofOption toValue signature) = some signature :=
  Value.option?_ofOption ofValue?_toValue (fun _ => json_ne_null _) signature

theorem PublishAssessmentV2.ofValue?_toValue (a : PublishAssessmentV2) :
    ofValue? a.toValue = some a := by
  have hnodup : (a.fields.map Prod.fst).Nodup := by simp [fields]
  have hget := Value.get?_json_of_nodup hnodup
  simp only [fields, List.forall_mem_cons] at hget
  obtain ⟨h1, h2, h3, h4, h5, h6, h7, h8, h9, h10, h11, h12, h13, h14, h15, h16, h17, h18, h19,
    h20, h21, h22, h23, -⟩ := hget
  have htext := Value.option?_optString
  have hstrings := Value.strings?_strings
  have hfiles := Value.listOf?_map PublishFile.ofValue?_toValue a.files
  have hdiff := Value.option?_ofOption PublishDiff.ofValue?_toValue (fun _ => json_ne_null _)
    a.previousRelease
  have hsignature := DetachedSignature.option?_ofOption a.signature
  refine Option.bind_of_eq_some (a := a.toValue) rfl ?_
  refine Option.bind_of_eq_some ((Value.field?_of_get? _ h1).trans (asU32?_int _)) ?_
  refine Option.bind_of_eq_some ((Value.field?_of_get? _ h2).trans (asU64?_int _)) ?_
  refine Option.bind_of_eq_some ((Value.field?_of_get? _ h3).trans (asU64?_int _)) ?_
  refine Option.bind_of_eq_some (Value.field?_of_get? _ h4) ?_
  refine Option.bind_of_eq_some (Value.field?_of_get? _ h5) ?_
  refine Option.bind_of_eq_some (Value.field?_of_get? _ h6) ?_
  refine Option.bind_of_eq_some ((Value.fieldOr_of_get? _ _ h7).trans (htext _)) ?_
  refine Option.bind_of_eq_some (Value.field?_of_get? _ h8) ?_
  refine Option.bind_of_eq_some ((Value.field?_of_get? _ h9).trans (asU64?_int _)) ?_
  refine Option.bind_of_eq_some ((Value.field?_of_get? _ h10).trans hfiles) ?_
  refine Option.bind_of_eq_some ((Value.field?_of_get? _ h11).trans (asU64?_int _)) ?_
  refine Option.bind_of_eq_some ((Value.field?_of_get? _ h12).trans (hstrings _)) ?_
  refine Option.bind_of_eq_some ((Value.field?_of_get? _ h13).trans (hstrings _)) ?_
  refine Option.bind_of_eq_some (Value.field?_of_get? _ h14) ?_
  refine Option.bind_of_eq_some ((Value.field?_of_get? _ h15).trans (hstrings _)) ?_
  refine Option.bind_of_eq_some ((Value.field?_of_get? _ h16).trans
    (Decision.ofValue?_string _)) ?_
  refine Option.bind_of_eq_some ((Value.field?_of_get? _ h17).trans
    (ReasonCode.ofValue?_string _)) ?_
  refine Option.bind_of_eq_some ((Value.fieldOr_of_get? _ _ h18).trans hdiff) ?_
  refine Option.bind_of_eq_some (Value.field?_of_get? _ h19) ?_
  refine Option.bind_of_eq_some (Value.field?_of_get? _ h20) ?_
  refine Option.bind_of_eq_some (Value.field?_of_get? _ h21) ?_
  refine Option.bind_of_eq_some ((Value.field?_of_get? _ h22).trans (hstrings _)) ?_
  exact Option.bind_of_eq_some ((Value.fieldOr_of_get? _ _ h23).trans hsignature) rfl

end Oath.Contracts
