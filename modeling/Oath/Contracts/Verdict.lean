import Oath.Contracts.Json

/-! The registry's verdict on a package and the form it is stored and signed in. -/

namespace Oath.Contracts

inductive Decision
  | allow
  | deny
  | review
  | unknown
deriving DecidableEq, Repr

def Decision.asStr : Decision → String
  | allow => "allow"
  | deny => "deny"
  | review => "review"
  | unknown => "unknown"

theorem Decision.asStr_eq_deny {d : Decision} : d.asStr = "deny" ↔ d = deny := by
  cases d <;> decide

inductive ReasonCode
  | execAllowed
  | execGradeBelowRequired
  | execReleaseTooNew
  | publishAllowed
  | publishSecretDetected
  | registryAllowed
  | registryCriticalBehavior
  | registryReviewRequired
  | registrySecretDetected
  | registryUnknown
deriving DecidableEq, Repr

def ReasonCode.asStr : ReasonCode → String
  | execAllowed => "OATH_EXEC_ALLOWED"
  | execGradeBelowRequired => "OATH_EXEC_GRADE_BELOW_REQUIRED"
  | execReleaseTooNew => "OATH_EXEC_RELEASE_TOO_NEW"
  | publishAllowed => "OATH_PUBLISH_ALLOWED"
  | publishSecretDetected => "OATH_PUBLISH_SECRET_DETECTED"
  | registryAllowed => "OATH_REGISTRY_ALLOWED"
  | registryCriticalBehavior => "OATH_REGISTRY_CRITICAL_BEHAVIOR"
  | registryReviewRequired => "OATH_REGISTRY_REVIEW_REQUIRED"
  | registrySecretDetected => "OATH_REGISTRY_SECRET_DETECTED"
  | registryUnknown => "OATH_REGISTRY_UNKNOWN"

structure DetachedSignature where
  algorithm : String
  canonicalization : String
  publicKey : String
  signature : String
deriving DecidableEq, Repr

structure PackageIdentity where
  name : String
  version : String
  registry : String
  integrity : Option String
  publisher : Option String
  publishAgeDays : Option ℕ
  repository : Option String
deriving DecidableEq, Repr

def registryVerdictVersion : ℕ := 1

structure RegistryVerdictV1 where
  schemaVersion : ℕ
  generatedAt : ℕ
  expiresAt : ℕ
  package : PackageIdentity
  decision : Decision
  reasonCode : ReasonCode
  riskScore : ℕ
  packageDigest : String
  assessmentDigest : String
  policyDigest : String
  ruleBundleVersion : String
  limitations : List String
  signature : Option DetachedSignature
deriving DecidableEq, Repr

open Value

def DetachedSignature.toValue (s : DetachedSignature) : Value := json [
  ("algorithm", .string s.algorithm),
  ("canonicalization", .string s.canonicalization),
  ("public_key", .string s.publicKey),
  ("signature", .string s.signature)]

def PackageIdentity.toValue (p : PackageIdentity) : Value := json [
  ("name", .string p.name),
  ("version", .string p.version),
  ("registry", .string p.registry),
  ("integrity", optString p.integrity),
  ("publisher", optString p.publisher),
  ("publish_age_days", (p.publishAgeDays.map fun n => Value.int n).getD null),
  ("repository", optString p.repository)]

def RegistryVerdictV1.toValue (v : RegistryVerdictV1) : Value := json [
  ("schema_version", .int v.schemaVersion),
  ("generated_at", .int v.generatedAt),
  ("expires_at", .int v.expiresAt),
  ("package", v.package.toValue),
  ("decision", .string v.decision.asStr),
  ("reason_code", .string v.reasonCode.asStr),
  ("risk_score", .int v.riskScore),
  ("package_digest", .string v.packageDigest),
  ("assessment_digest", .string v.assessmentDigest),
  ("policy_digest", .string v.policyDigest),
  ("rule_bundle_version", .string v.ruleBundleVersion),
  ("limitations", strings v.limitations),
  ("signature", (v.signature.map DetachedSignature.toValue).getD null)]

theorem RegistryVerdictV1.get?_decision (v : RegistryVerdictV1) :
    v.toValue.get? "decision" = some (.string v.decision.asStr) := by
  simp [toValue, json, get?, lookup_insertField]

/-- An Ed25519 key pair as the services use it: a signature and its key as Base64 text. -/
structure SigningKey where
  publicKey : String
  sign : List UInt8 → String

def signJson (value : Value) (key : SigningKey) : DetachedSignature where
  algorithm := "ed25519"
  canonicalization := "oath-json-v1"
  publicKey := key.publicKey
  signature := key.sign (canonicalJsonBytes value)

end Oath.Contracts
