import Oath.Contracts.Assessments
import Oath.Contracts.Verdict
import Oath.Library.Base64
import Oath.Library.Outcome

/-! Detached signatures over canonical JSON, the three kinds of signed records, how the Rust library
reads them from documents, and its verification of what it has read. -/

namespace Oath.Contracts

inductive ContractError
  | invalidPublicKey
  | invalidSignature
  | unsupportedAlgorithm (algorithm : String)
  | unsupportedCanonicalization (canonicalization : String)
  | base64
deriving DecidableEq, Repr

/-- The signature scheme: which keys there are, and which signatures of a message they verify. -/
structure Ed25519 where
  isKey : List UInt8 → Bool
  verifies (key message signature : List UInt8) : Bool

/-- Base64 of so many bytes. -/
def decodeExact (size : ℕ) (error : ContractError) (text : String) :
    Except ContractError (List UInt8) :=
  match Base64.decode text with
  | none => .error .base64
  | some bytes => if bytes.length = size then .ok bytes else .error error

def verifyDecoded (ed : Ed25519) (value : Value) (detached : DetachedSignature) :
    Except ContractError Unit := do
  let key ← decodeExact 32 .invalidPublicKey detached.publicKey
  let signature ← decodeExact 64 .invalidSignature detached.signature
  if !ed.isKey key then .error .invalidPublicKey
  else if ed.verifies key (canonicalJsonBytes value) signature then .ok ()
  else .error .invalidSignature

def verifyJson (ed : Ed25519) (value : Value) (detached : DetachedSignature) :
    Except ContractError Unit :=
  if detached.algorithm ≠ "ed25519" then .error (.unsupportedAlgorithm detached.algorithm)
  else if detached.canonicalization ≠ "oath-json-v1" then
    .error (.unsupportedCanonicalization detached.canonicalization)
  else verifyDecoded ed value detached

/-- What the scheme promises of a key pair: its signatures verify. -/
structure SigningKey.Verifies (key : SigningKey) (ed : Ed25519) : Prop where
  publicKey : ∃ bytes, Base64.decode key.publicKey = some bytes ∧ bytes.length = 32 ∧
    ed.isKey bytes ∧ ∀ message, ∃ signature, Base64.decode (key.sign message) = some signature ∧
      signature.length = 64 ∧ ed.verifies bytes message signature

theorem decodeExact_ok {size : ℕ} {error : ContractError} {text : String} {bytes : List UInt8}
    (h : Base64.decode text = some bytes) (hsize : bytes.length = size) :
    decodeExact size error text = .ok bytes := by
  rw [decodeExact, h]
  exact if_pos hsize

theorem verifyJson_signJson {ed : Ed25519} {key : SigningKey} (h : key.Verifies ed)
    (value : Value) : verifyJson ed value (signJson value key) = .ok () := by
  obtain ⟨bytes, hdecode, hsize, hkey, hsigns⟩ := h.publicKey
  obtain ⟨signature, hsignature, hlength, hverifies⟩ := hsigns (canonicalJsonBytes value)
  have hpublic : decodeExact 32 .invalidPublicKey (signJson value key).publicKey = .ok bytes :=
    decodeExact_ok hdecode hsize
  have hsigned : decodeExact 64 .invalidSignature (signJson value key).signature = .ok signature :=
    decodeExact_ok hsignature hlength
  have hverified : verifyDecoded ed value (signJson value key) = .ok () := by
    unfold verifyDecoded
    refine Except.bind_eq_ok.mpr ⟨bytes, hpublic, ?_⟩
    refine Except.bind_eq_ok.mpr ⟨signature, hsigned, ?_⟩
    rw [hkey, hverifies]
    rfl
  exact hverified

end Oath.Contracts

namespace Oath.Contracts
open Value

/-! ## Exec assessments -/

structure VersionDiff where
  previousVersion : String
  previousIntegrity : Option String
  publisherChanged : Option Bool
  lifecycleHooksChanged : Bool
deriving DecidableEq, Repr

def VersionDiff.toValue (diff : VersionDiff) : Value := json [
  ("previous_version", .string diff.previousVersion),
  ("previous_integrity", optString diff.previousIntegrity),
  ("publisher_changed", ofOption bool diff.publisherChanged),
  ("lifecycle_hooks_changed", .bool diff.lifecycleHooksChanged)]

def VersionDiff.ofValue? (value : Value) : Option VersionDiff := do
  let value ← value.record? ["previous_version", "previous_integrity", "publisher_changed",
    "lifecycle_hooks_changed"] 4
  let previousVersion ← value.field? "previous_version" asStr?
  let previousIntegrity ← value.fieldOr "previous_integrity" (option? asStr?) none
  let publisherChanged ← value.fieldOr "publisher_changed" (option? asBool?) none
  let lifecycleHooksChanged ← value.field? "lifecycle_hooks_changed" asBool?
  some ⟨previousVersion, previousIntegrity, publisherChanged, lifecycleHooksChanged⟩

structure PackageEvidence where
  unpackedBytes : UInt64
  dependencyCount : UInt64
  readableSource : Bool
  obfuscated : Bool
  nativeCode : Bool
  lifecycleHooks : Bool
  capabilities : List String
  findings : List String
  limitations : List String
  versionDiff : Option VersionDiff
deriving DecidableEq, Repr

def PackageEvidence.toValue (e : PackageEvidence) : Value := json [
  ("unpacked_bytes", .int e.unpackedBytes.toNat),
  ("dependency_count", .int e.dependencyCount.toNat),
  ("readable_source", .bool e.readableSource),
  ("obfuscated", .bool e.obfuscated),
  ("native_code", .bool e.nativeCode),
  ("lifecycle_hooks", .bool e.lifecycleHooks),
  ("capabilities", strings e.capabilities),
  ("findings", strings e.findings),
  ("limitations", strings e.limitations),
  ("version_diff", ofOption VersionDiff.toValue e.versionDiff)]

def PackageEvidence.ofValue? (value : Value) : Option PackageEvidence := do
  let value ← value.record? ["unpacked_bytes", "dependency_count", "readable_source",
    "obfuscated", "native_code", "lifecycle_hooks", "capabilities", "findings", "limitations",
    "version_diff"] 10
  let unpackedBytes ← value.field? "unpacked_bytes" asU64?
  let dependencyCount ← value.field? "dependency_count" asU64?
  let readableSource ← value.field? "readable_source" asBool?
  let obfuscated ← value.field? "obfuscated" asBool?
  let nativeCode ← value.field? "native_code" asBool?
  let lifecycleHooks ← value.field? "lifecycle_hooks" asBool?
  let capabilities ← value.field? "capabilities" strings?
  let findings ← value.field? "findings" strings?
  let limitations ← value.field? "limitations" strings?
  let versionDiff ← value.fieldOr "version_diff" (option? VersionDiff.ofValue?) none
  some ⟨unpackedBytes, dependencyCount, readableSource, obfuscated, nativeCode, lifecycleHooks,
    capabilities, findings, limitations, versionDiff⟩

structure PolicyDecision where
  decision : Decision
  reasonCode : ReasonCode
  grade : String
  score : UInt8
deriving DecidableEq, Repr

def PolicyDecision.toValue (p : PolicyDecision) : Value := json [
  ("decision", .string p.decision.asStr),
  ("reason_code", .string p.reasonCode.asStr),
  ("grade", .string p.grade),
  ("score", .int p.score.toNat)]

def PolicyDecision.ofValue? (value : Value) : Option PolicyDecision := do
  let value ← value.record? ["decision", "reason_code", "grade", "score"] 4
  let decision ← value.field? "decision" Decision.ofValue?
  let reasonCode ← value.field? "reason_code" ReasonCode.ofValue?
  let grade ← value.field? "grade" asStr?
  let score ← value.field? "score" asU8?
  some ⟨decision, reasonCode, grade, score⟩

structure SandboxEvidence where
  backend : String
  available : Bool
  filesystemIsolation : Bool
  networkIsolation : Bool
  processIsolation : Bool
  resourceLimits : Bool
  degradedReason : Option String
deriving DecidableEq, Repr

def SandboxEvidence.toValue (s : SandboxEvidence) : Value := json [
  ("backend", .string s.backend),
  ("available", .bool s.available),
  ("filesystem_isolation", .bool s.filesystemIsolation),
  ("network_isolation", .bool s.networkIsolation),
  ("process_isolation", .bool s.processIsolation),
  ("resource_limits", .bool s.resourceLimits),
  ("degraded_reason", optString s.degradedReason)]

def SandboxEvidence.ofValue? (value : Value) : Option SandboxEvidence := do
  let value ← value.record? ["backend", "available", "filesystem_isolation", "network_isolation",
    "process_isolation", "resource_limits", "degraded_reason"] 7
  let backend ← value.field? "backend" asStr?
  let available ← value.field? "available" asBool?
  let filesystemIsolation ← value.field? "filesystem_isolation" asBool?
  let networkIsolation ← value.field? "network_isolation" asBool?
  let processIsolation ← value.field? "process_isolation" asBool?
  let resourceLimits ← value.field? "resource_limits" asBool?
  let degradedReason ← value.fieldOr "degraded_reason" (option? asStr?) none
  some ⟨backend, available, filesystemIsolation, networkIsolation, processIsolation,
    resourceLimits, degradedReason⟩

def PackageIdentity.ofValue? (value : Value) : Option PackageIdentity := do
  let value ← value.record? ["name", "version", "registry", "integrity", "publisher",
    "publish_age_days", "repository"] 7
  let name ← value.field? "name" asStr?
  let version ← value.field? "version" asStr?
  let registry ← value.field? "registry" asStr?
  let integrity ← value.fieldOr "integrity" (option? asStr?) none
  let publisher ← value.fieldOr "publisher" (option? asStr?) none
  let publishAgeDays ← value.fieldOr "publish_age_days" (option? asU64?) none
  let repository ← value.fieldOr "repository" (option? asStr?) none
  some ⟨name, version, registry, integrity, publisher, publishAgeDays.map UInt64.toNat, repository⟩

structure ExecAssessmentV3 where
  schemaVersion : UInt32
  generatedAt : UInt64
  expiresAt : UInt64
  identity : PackageIdentity
  evidence : PackageEvidence
  policy : PolicyDecision
  sandbox : SandboxEvidence
  policyDigest : String
  evidenceDigest : String
  ruleBundleVersion : String
  signature : Option DetachedSignature
deriving DecidableEq, Repr

def ExecAssessmentV3.toValue (a : ExecAssessmentV3) : Value := json [
  ("schema_version", .int a.schemaVersion.toNat),
  ("generated_at", .int a.generatedAt.toNat),
  ("expires_at", .int a.expiresAt.toNat),
  ("identity", a.identity.toValue),
  ("evidence", a.evidence.toValue),
  ("policy", a.policy.toValue),
  ("sandbox", a.sandbox.toValue),
  ("policy_digest", .string a.policyDigest),
  ("evidence_digest", .string a.evidenceDigest),
  ("rule_bundle_version", .string a.ruleBundleVersion),
  ("signature", ofOption DetachedSignature.toValue a.signature)]

def ExecAssessmentV3.names : List String :=
  ["schema_version", "generated_at", "expires_at", "identity", "evidence", "policy", "sandbox",
    "policy_digest", "evidence_digest", "rule_bundle_version", "signature"]

def ExecAssessmentV3.ofValue? (value : Value) : Option ExecAssessmentV3 := do
  let value ← value.record? names 11
  let schemaVersion ← value.field? "schema_version" asU32?
  let generatedAt ← value.field? "generated_at" asU64?
  let expiresAt ← value.field? "expires_at" asU64?
  let identity ← value.field? "identity" PackageIdentity.ofValue?
  let evidence ← value.field? "evidence" PackageEvidence.ofValue?
  let policy ← value.field? "policy" PolicyDecision.ofValue?
  let sandbox ← value.field? "sandbox" SandboxEvidence.ofValue?
  let policyDigest ← value.field? "policy_digest" asStr?
  let evidenceDigest ← value.field? "evidence_digest" asStr?
  let ruleBundleVersion ← value.field? "rule_bundle_version" asStr?
  let signature ← value.fieldOr "signature" (option? DetachedSignature.ofValue?) none
  some ⟨schemaVersion, generatedAt, expiresAt, identity, evidence, policy, sandbox, policyDigest,
    evidenceDigest, ruleBundleVersion, signature⟩

/-! ## Registry verdicts -/

def RegistryVerdictV1.ofValue? (value : Value) : Option RegistryVerdictV1 := do
  let value ← value.record? ["schema_version", "generated_at", "expires_at", "package",
    "decision", "reason_code", "risk_score", "package_digest", "assessment_digest",
    "policy_digest", "rule_bundle_version", "limitations", "signature"] 13
  let schemaVersion ← value.field? "schema_version" asU32?
  let generatedAt ← value.field? "generated_at" asU64?
  let expiresAt ← value.field? "expires_at" asU64?
  let package ← value.field? "package" PackageIdentity.ofValue?
  let decision ← value.field? "decision" Decision.ofValue?
  let reasonCode ← value.field? "reason_code" ReasonCode.ofValue?
  let riskScore ← value.field? "risk_score" asU8?
  let packageDigest ← value.field? "package_digest" asStr?
  let assessmentDigest ← value.field? "assessment_digest" asStr?
  let policyDigest ← value.field? "policy_digest" asStr?
  let ruleBundleVersion ← value.field? "rule_bundle_version" asStr?
  let limitations ← value.field? "limitations" strings?
  let signature ← value.fieldOr "signature" (option? DetachedSignature.ofValue?) none
  some ⟨schemaVersion.toNat, generatedAt.toNat, expiresAt.toNat, package, decision, reasonCode,
    riskScore.toNat, packageDigest, assessmentDigest, policyDigest, ruleBundleVersion, limitations,
    signature⟩

/-! ## Verification -/

/-- The signature is one of the record without it. -/
def verifySigned (ed : Ed25519) (signature : Option DetachedSignature) (unsigned : Value) :
    Except ContractError Unit :=
  match signature with
  | none => .error .invalidSignature
  | some signature => verifyJson ed unsigned signature

def verifyExecAssessment (ed : Ed25519) (a : ExecAssessmentV3) : Except ContractError Unit :=
  verifySigned ed a.signature { a with signature := none }.toValue

def verifyPublishAssessment (ed : Ed25519) (a : PublishAssessmentV2) :
    Except ContractError Unit :=
  verifySigned ed a.signature { a with signature := none }.toValue

def verifyRegistryVerdict (ed : Ed25519) (v : RegistryVerdictV1) : Except ContractError Unit :=
  verifySigned ed v.signature { v with signature := none }.toValue

inductive SignedRecord
  | exec (assessment : ExecAssessmentV3)
  | publish (assessment : PublishAssessmentV2)
  | verdict (verdict : RegistryVerdictV1)

namespace SignedRecord

def signature : SignedRecord → Option DetachedSignature
  | exec a => a.signature
  | publish a => a.signature
  | verdict v => v.signature

/-- The JSON value of the record without its signature. -/
def unsigned : SignedRecord → Value
  | exec a => { a with signature := none }.toValue
  | publish a => { a with signature := none }.toValue
  | verdict v => { v with signature := none }.toValue

def verify (ed : Ed25519) : SignedRecord → Except ContractError Unit
  | exec a => verifyExecAssessment ed a
  | publish a => verifyPublishAssessment ed a
  | verdict v => verifyRegistryVerdict ed v

theorem verify_eq (ed : Ed25519) (record : SignedRecord) :
    record.verify ed = verifySigned ed record.signature record.unsigned := by
  cases record with
  | exec a => rfl
  | publish a => rfl
  | verdict v => rfl

/-- The document deserializes as a record of one of the kinds. -/
def ReadFrom (document : Value) : SignedRecord → Prop
  | exec a => ExecAssessmentV3.ofValue? document = some a
  | publish a => PublishAssessmentV2.ofValue? document = some a
  | verdict v => RegistryVerdictV1.ofValue? document = some v

theorem of_bind {α β : Type} {x : Option α} {f : α → Option β} {b : β}
    (h : (x >>= f) = some b) : ∃ a, f a = some b := by
  obtain ⟨a, -, ha⟩ := Option.bind_eq_some_iff.mp h
  exact ⟨a, ha⟩

/-- Of an object, the record has the signature that stands there: it is the last field that is
read. -/
theorem ReadFrom.signature {fields : List (String × Value)} {record : SignedRecord}
    (h : record.ReadFrom (.object fields)) :
    (Value.object fields).fieldOr "signature" (option? DetachedSignature.ofValue?) none =
      some record.signature := by
  cases record with
  | exec a =>
    obtain ⟨_, -, h⟩ := Option.bind_eq_some_iff.mp h
    iterate 9 obtain ⟨_, h⟩ := of_bind h
    obtain ⟨signature, hsignature, hrecord⟩ := Option.bind_eq_some_iff.mp h
    obtain rfl := Option.some.inj hrecord
    exact hsignature
  | publish a =>
    obtain ⟨_, -, h⟩ := Option.bind_eq_some_iff.mp h
    iterate 21 obtain ⟨_, h⟩ := of_bind h
    obtain ⟨signature, hsignature, hrecord⟩ := Option.bind_eq_some_iff.mp h
    obtain rfl := Option.some.inj hrecord
    exact hsignature
  | verdict v =>
    obtain ⟨_, -, h⟩ := Option.bind_eq_some_iff.mp h
    iterate 11 obtain ⟨_, h⟩ := of_bind h
    obtain ⟨signature, hsignature, hrecord⟩ := Option.bind_eq_some_iff.mp h
    obtain rfl := Option.some.inj hrecord
    exact hsignature

end SignedRecord

end Oath.Contracts
