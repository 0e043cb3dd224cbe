import Mathlib.Data.List.Basic
import Mathlib.Data.String.Basic

/-! The policy of `oath-policy.toml`, and the comparison of names and answers that it and
the prompts use. -/

namespace Oath.Core

def eqIgnoreAsciiCase (a b : String) : Bool := a.toList.map Char.toLower = b.toList.map Char.toLower

/-- White space in the sense of Unicode. -/
def isWhitespace (c : Char) : Bool :=
  let n := c.toNat
  (9 ≤ n && n ≤ 13) || n = 32 || n = 0x85 || n = 0xa0 || n = 0x1680 ||
    (0x2000 ≤ n && n ≤ 0x200a) || n = 0x2028 || n = 0x2029 || n = 0x202f || n = 0x205f || n = 0x3000

/-- `str::trim`. -/
def trim (s : String) : String :=
  String.ofList ((s.toList.dropWhile isWhitespace).reverse.dropWhile isWhitespace).reverse

/-- A layer of the policy as it stands in a file. -/
structure RawPolicy where
  bannedPackages : List String
  bannedLicenses : List String
  requireApproval : List String
  allowInstallScripts : List String
  blockInstallScripts : Option Bool
  maxRiskLevel : Option String
deriving DecidableEq, Repr

structure OathPolicy where
  bannedPackages : List String
  bannedLicenses : List String
  requireApproval : List String
  allowInstallScripts : List String
  blockInstallScripts : Bool
  maxRiskLevel : String
deriving DecidableEq, Repr

namespace OathPolicy

inductive RiskLevel
  | clean
  | info
  | low
  | medium
  | high
  | critical
deriving DecidableEq, Repr

def RiskLevel.rank : RiskLevel → ℕ
  | clean => 0
  | info => 1
  | low => 2
  | medium => 3
  | high => 4
  | critical => 5

def default : OathPolicy := ⟨[], [], [], [], false, "critical"⟩

def extend (own more : List String) : List String :=
  more.foldl (fun list entry => if list.contains entry then list else list ++ [entry]) own

/-- Lists grow; a scalar is replaced where the layer sets it. -/
def merge (policy : OathPolicy) (raw : RawPolicy) : OathPolicy where
  bannedPackages := extend policy.bannedPackages raw.bannedPackages
  bannedLicenses := extend policy.bannedLicenses raw.bannedLicenses
  requireApproval := extend policy.requireApproval raw.requireApproval
  allowInstallScripts := extend policy.allowInstallScripts raw.allowInstallScripts
  blockInstallScripts := raw.blockInstallScripts.getD policy.blockInstallScripts
  maxRiskLevel := raw.maxRiskLevel.getD policy.maxRiskLevel

/-- The global policy and the one of the project, as far as there are any. -/
def load (globalPolicy localPolicy : Option RawPolicy) : OathPolicy :=
  (globalPolicy.toList ++ localPolicy.toList).foldl merge default

def isPackageBanned (policy : OathPolicy) (name : String) : Bool :=
  policy.bannedPackages.any fun banned => eqIgnoreAsciiCase banned name

def inScriptAllowlist (policy : OathPolicy) (name : String) : Bool :=
  policy.allowInstallScripts.any fun allowed => eqIgnoreAsciiCase allowed name

/-- All packages pass when scripts are not blocked. -/
def allowsInstallScript (policy : OathPolicy) (name : String) : Bool :=
  if policy.inScriptAllowlist name then true else !policy.blockInstallScripts

def isLicenseBanned (policy : OathPolicy) (license : String) : Bool :=
  policy.bannedLicenses.any fun banned => eqIgnoreAsciiCase banned license

/-- A level that is none counts as critical. -/
def maxRisk (policy : OathPolicy) : RiskLevel :=
  let level := policy.maxRiskLevel.toList.map Char.toLower
  if level = "clean".toList then .clean
  else if level = "info".toList then .info
  else if level = "low".toList then .low
  else if level = "medium".toList then .medium
  else if level = "high".toList then .high
  else .critical

end OathPolicy

end Oath.Core
