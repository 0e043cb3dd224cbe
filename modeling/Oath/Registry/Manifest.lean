import Oath.Analyze.Scanner
import Oath.Contracts.Verdict
import Oath.Registry.Archive

/-! What the registry's handlers are asked and what they answer, and the manifest the server stores
with a stage: `package/package.json` as it stands in the tarball. -/

namespace Oath.Registry
open Contracts

structure ApiError where
  status : ℕ
  message : String
deriving DecidableEq, Repr

namespace ApiError

def bad (message : String) : ApiError := ⟨400, message⟩
def unauthorized : ApiError := ⟨401, "invalid or missing bearer token"⟩
def forbidden (message : String) : ApiError := ⟨403, message⟩
def conflict (message : String) : ApiError := ⟨409, message⟩
def tooManyRequests (message : String) : ApiError := ⟨429, message⟩
def notFound (message : String) : ApiError := ⟨404, message⟩
def internal (message : String) : ApiError := ⟨500, message⟩

end ApiError

structure Principal where
  organization : String
  role : String
  kind : String
deriving DecidableEq, Repr

structure StageRequest where
  name : String
  version : String
  tag : String
  tarballBase64 : String
  assessment : Value
  isPrivate : Bool

structure StageRecord where
  id : String
  organization : String
  name : String
  version : String
  tag : String
  digest : String
  status : String
  isPrivate : Bool
  manifest : Value
  publisherAssessment : Value
  assessment : Value
  serverEvidence : Value
  sbom : Value
  provenance : Value
  createdAt : ℕ

structure RevokeRequest where
  reason : String
  quarantine : Bool
deriving DecidableEq, Repr

structure PackageRoleRequest where
  principalOrg : String
  role : String
deriving DecidableEq, Repr

end Oath.Registry

/-! ## The manifest of a stage -/

namespace Oath.Registry
open Unix Contracts Analyze

def maxManifestBytes : ℕ := 1024 * 1024
def maxManifestEntries : ℕ := 200_000

def manifestPath : List Component :=
  [.normal (asBytes "package"), .normal packageJson]

/-- The data of an entry at the manifest's path, parsed. -/
def readManifest (parseJson : List UInt8 → Except String Value) (e : TarEntry) :
    Except ApiError Value :=
  match e.data.readAtMost (maxManifestBytes + 1) with
  | .error error => .error (.bad ("cannot read package manifest: " ++ error))
  | .ok bytes =>
    if maxManifestBytes < bytes.length then .error (.bad "package manifest exceeds 1 MiB")
    else match parseJson bytes with
      | .error error => .error (.bad ("invalid package manifest: " ++ error))
      | .ok manifest => .ok manifest

def manifestLoop (parseJson : List UInt8 → Except String Value) :
    List (Except String TarEntry) → ℕ → Option Value → Except ApiError (Option Value)
  | [], _, manifest => .ok manifest
  | entry :: rest, index, manifest =>
    if maxManifestEntries ≤ index then .error (.bad "npm tarball has too many entries")
    else match entry with
      | .error error => .error (.bad ("invalid npm tarball entry: " ++ error))
      | .ok e =>
        if components e.path ≠ manifestPath then manifestLoop parseJson rest (index + 1) manifest
        else if manifest.isSome then
          .error (.bad "npm tarball contains multiple package manifests")
        else match readManifest parseJson e with
          | .error error => .error error
          | .ok value => manifestLoop parseJson rest (index + 1) (some value)

def fieldIs (manifest : Value) (field expected : String) : Bool :=
  (manifest.get? field).bind Value.asStr? == some expected

def manifestFromTarball (decode : DecodeTarball) (parseJson : List UInt8 → Except String Value)
    (tarball : List UInt8) (expectedName expectedVersion : String) : Except ApiError Value := do
  match decode tarball with
  | .error error => .error (.bad ("invalid npm tarball: " ++ error))
  | .ok entries =>
    match ← manifestLoop parseJson entries 0 none with
    | none => .error (.bad "npm tarball has no package.json")
    | some manifest =>
      if manifest.asObject?.isNone then .error (.bad "package manifest must be a JSON object")
      else if !fieldIs manifest "name" expectedName then
        .error (.bad "package manifest name does not match stage request")
      else if !fieldIs manifest "version" expectedVersion then
        .error (.bad "package manifest version does not match stage request")
      else .ok manifest

end Oath.Registry
