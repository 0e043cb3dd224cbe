import Oath.Contracts.CompactRead
import Oath.Contracts.Decode
import Oath.Core.Policy

/-! The transparency log of installs: a line of JSON for every install, with the hash of the
entry before it. -/

namespace Oath.Transparency
open Contracts Contracts.Value Registry Replace

def genesisHash : String := "GENESIS"

/-! ## Entries -/

structure PackageEntry where
  name : String
  version : String
  integrity : Option String
deriving DecidableEq, Repr

structure TransparencyEntry where
  ts : UInt64
  project : String
  pkgCount : UInt64
  packages : List PackageEntry
  durationMs : UInt64
  previousHash : Option String
  entryHash : Option String
deriving DecidableEq, Repr

structure HashPayload where
  ts : UInt64
  project : String
  pkgCount : UInt64
  packages : List PackageEntry
  durationMs : UInt64
deriving DecidableEq, Repr

structure TransparencyCheckpoint where
  version : ℕ
  entryCount : ℕ
  merkleRoot : String
  latestEntryHash : Option String
deriving DecidableEq, Repr

/-- A text that is left out when there is none. -/
def someField (key : String) (text : Option String) : List (String × Value) :=
  fieldUnless text.isNone key (optString text)

def PackageEntry.toValue (e : PackageEntry) : Value :=
  object ([("name", string e.name), ("version", string e.version)] ++
    someField "integrity" e.integrity)

def HashPayload.fields (p : HashPayload) : List (String × Value) :=
  [("ts", int p.ts.toNat), ("project", string p.project), ("pkg_count", int p.pkgCount.toNat),
    ("packages", array (p.packages.map PackageEntry.toValue)),
    ("duration_ms", int p.durationMs.toNat)]

def HashPayload.toValue (p : HashPayload) : Value := object p.fields

def TransparencyEntry.payload (e : TransparencyEntry) : HashPayload :=
  ⟨e.ts, e.project, e.pkgCount, e.packages, e.durationMs⟩

def TransparencyEntry.toValue (e : TransparencyEntry) : Value :=
  object (e.payload.fields ++ someField "previous_hash" e.previousHash ++
    someField "entry_hash" e.entryHash)

/-- `serde_json::to_string` of an entry. -/
def TransparencyEntry.line (e : TransparencyEntry) : String := String.ofList (compact e.toValue)

/-! ## Hashes -/

section Hashes
variable (sha : Sha256)

/-- What is hashed for an entry. -/
def entryInput (previous : String) (payload : HashPayload) : List UInt8 :=
  asBytes previous ++ encode (compact payload.toValue)

def hashEntry (previous : String) (payload : HashPayload) : String :=
  hexSha256 sha (entryInput previous payload)

/-- What is hashed for a pair of hashes. -/
def pairInput (pair : String × String) : List UInt8 := asBytes pair.1 ++ asBytes pair.2

/-- `chunks(2)` of an even number of hashes. -/
def chunks : List String → List (String × String)
  | a :: b :: rest => (a, b) :: chunks rest
  | _ => []

/-- The pairs of a level, where the last hash of an odd number is taken twice. -/
def levelPairs (hashes : List String) : List (String × String) :=
  chunks (if hashes.length % 2 = 1 then hashes ++ hashes.getLast?.toList else hashes)

/-- The loop over the levels; there are fewer of them than hashes. -/
def merkleLevels : ℕ → List String → List String
  | 0, hashes => hashes
  | fuel + 1, hashes =>
    if hashes.length > 1 then
      merkleLevels fuel ((levelPairs hashes).map fun pair => hexSha256 sha (pairInput pair))
    else hashes

def merkleRoot (hashes : List String) : String :=
  if hashes.isEmpty then hexSha256 sha []
  else (merkleLevels sha hashes.length hashes).headD ""

end Hashes

/-! ## The file -/

inductive LogError
  | invalidUtf8
  | previousHashMismatch
  | entryHashMismatch
deriving DecidableEq, Repr

/-- `read_to_string`. -/
def readToString (bytes : List UInt8) : Except LogError String :=
  match String.fromUTF8? ⟨bytes.toArray⟩ with
  | some content => .ok content
  | none => .error .invalidUtf8

/-- A line without the carriage return before its end. -/
def stripReturn (line : List Char) : List Char :=
  if line.getLast? = some '\r' then line.dropLast else line

/-- `str::lines`, with what stands already on the first line. -/
def linesFrom (front : List Char) : List Char → List (List Char)
  | [] => if front = [] then [] else [front]
  | c :: rest =>
    if c = '\n' then stripReturn front :: linesFrom [] rest else linesFrom (front ++ [c]) rest

def lines (content : String) : List String :=
  (linesFrom [] content.toList).map String.ofList

section Log
variable (sha : Sha256)
-- `serde_json::from_str` for entries.
variable (fromStr : String → Option TransparencyEntry)

/-- The lines that are entries; others are passed over. -/
def entriesOf (content : String) : List TransparencyEntry :=
  ((lines content).filter fun line => !(Core.trim line).isEmpty).filterMap fromStr

def readAll (file : Option (List UInt8)) : Except LogError (List TransparencyEntry) :=
  match file with
  | none => .ok []
  | some bytes => (readToString bytes).map (entriesOf fromStr)

/-- The hash of the last entry that has one. -/
def lastHash (entries : List TransparencyEntry) : String :=
  (entries.reverse.findSome? TransparencyEntry.entryHash).getD genesisHash

/-- What an install logs, with the time it does. -/
structure Install where
  ts : UInt64
  project : String
  packages : List (String × String × Option String)
  durationMs : UInt64
deriving DecidableEq, Repr

def Install.payload (install : Install) : HashPayload where
  ts := install.ts
  project := install.project
  pkgCount := UInt64.ofNat install.packages.length
  packages := install.packages.map fun (name, version, integrity) => ⟨name, version, integrity⟩
  durationMs := install.durationMs

/-- The new entry after one with this hash. -/
def entryAfter (previous : String) (payload : HashPayload) : TransparencyEntry where
  ts := payload.ts
  project := payload.project
  pkgCount := payload.pkgCount
  packages := payload.packages
  durationMs := payload.durationMs
  previousHash := some previous
  entryHash := some (hashEntry sha previous payload)

/-- The line of an entry at the end of the file, which is created if there is none. -/
def appendEntry (entry : TransparencyEntry) (file : Option (List UInt8)) : List UInt8 :=
  file.getD [] ++ asBytes (entry.line ++ "\n")

/-- `TransparencyLogger::log`. -/
def log (install : Install) (file : Option (List UInt8)) : Except LogError (List UInt8) := do
  let existing ← readAll fromStr file
  .ok (appendEntry (entryAfter sha (lastHash existing) install.payload) file)

/-- One entry of the chain after the one with this hash. -/
def verifyEntry (previous : String) (entry : TransparencyEntry) : Except LogError String :=
  if entry.previousHash ≠ some previous then .error .previousHashMismatch
  else
    let expected := hashEntry sha previous entry.payload
    if entry.entryHash ≠ some expected then .error .entryHashMismatch else .ok expected

/-- The entries that count for the chain. -/
def hashedEntries (entries : List TransparencyEntry) : List TransparencyEntry :=
  entries.filter fun entry => entry.entryHash.isSome

def verifyEntries (entries : List TransparencyEntry) : Except LogError String :=
  (hashedEntries entries).foldlM (verifyEntry sha) genesisHash

def verifyChain (file : Option (List UInt8)) : Except LogError Unit := do
  let entries ← readAll fromStr file
  let _ ← verifyEntries sha entries
  .ok ()

def checkpoint (file : Option (List UInt8)) : Except LogError TransparencyCheckpoint := do
  verifyChain sha fromStr file
  let entries ← readAll fromStr file
  let hashes := entries.filterMap TransparencyEntry.entryHash
  .ok {
    version := 1
    entryCount := hashes.length
    merkleRoot := merkleRoot sha hashes
    latestEntryHash := hashes.getLast? }

end Log

/-! ## The text of the file -/

theorem fromUTF8_eq_some {bytes : List UInt8} {content : String} :
    String.fromUTF8? ⟨bytes.toArray⟩ = some content ↔ asBytes content = bytes := by
  unfold String.fromUTF8?
  constructor
  · intro h
    split_ifs at h with hvalid
    rw [← Option.some.inj h]
    rfl
  · intro h
    have hbytes : (⟨bytes.toArray⟩ : ByteArray) = content.toByteArray := by
      rw [← h]
      exact ByteArray.ext (Array.toArray_toList ..)
    have hvalid : ByteArray.IsValidUTF8 ⟨bytes.toArray⟩ := by
      rw [hbytes]
      exact content.isValidUTF8
    rw [dif_pos hvalid]
    exact congrArg some (String.toByteArray_inj.mp hbytes)

theorem readToString_asBytes (content : String) : readToString (asBytes content) = .ok content := by
  rw [readToString, fromUTF8_eq_some.mpr rfl]

theorem readToString_eq_ok {bytes : List UInt8} {content : String}
    (h : readToString bytes = .ok content) : asBytes content = bytes := by
  unfold readToString at h
  split at h
  · next hcontent =>
    rw [Except.ok.inj h] at hcontent
    exact fromUTF8_eq_some.mp hcontent
  · cases h

end Oath.Transparency
