import Mathlib.Data.List.Chain
import Oath.Registry.MerkleConsistency
import Oath.Registry.PostgresApi

/-! The registry's audit log: every event is hashed together with the hash of the one
before it, and no two events have the same key. -/

namespace Oath.Registry
open Contracts

/-- The rows of `registry_events` are kept in the order of their sequence numbers. -/
structure RegistryEvent where
  eventKey : String
  eventJson : String
  previousHash : String
  eventHash : String
  signature : String
  createdAt : ℕ
deriving DecidableEq, Repr

/-- The text of `serde_json::to_string`, whose maps are in the order of their keys. -/
def eventText (event : Value) : String := event.canonical

def latestHash (events : List RegistryEvent) : String :=
  (events.getLast?.map RegistryEvent.eventHash).getD "GENESIS"

def hasKey (events : List RegistryEvent) (eventKey : String) : Bool :=
  events.any fun row => row.eventKey = eventKey

def linkHash (sha : Sha256) (previous eventJson : String) : String :=
  hexSha256 sha (asBytes (previous ++ eventJson))

def linkedEvent (registry : PostgresRegistry) (eventKey : String) (event : Value)
    (previous : String) (createdAt : ℕ) : RegistryEvent :=
  let eventJson := eventText event
  let eventHash := linkHash registry.assess.sha previous eventJson
  { eventKey
    eventJson
    previousHash := previous
    eventHash
    signature := registry.signingKey.sign (asBytes eventHash)
    createdAt }

def insertEvent (events : List RegistryEvent) (row : RegistryEvent) :
    Except String (List RegistryEvent) :=
  if events.any fun other => other.eventHash = row.eventHash then
    .error (duplicateKey "registry_events_event_hash_key")
  else if hasKey events row.eventKey then
    .error (duplicateKey "registry_events_event_key_unique")
  else .ok (events ++ [row])

/-- The transaction as a whole: it holds the log's lock from its first statement on. -/
def appendEventKeyed (registry : PostgresRegistry) (eventKey : String) (event : Value)
    (createdAt : ℕ) (events : List RegistryEvent) : Except String (List RegistryEvent) :=
  if hasKey events eventKey then .ok events
  else insertEvent events
    (linkedEvent registry eventKey event (latestHash events) createdAt)

def directKey (sha : Sha256) (event : Value) : String :=
  "direct:" ++ hexSha256 sha (asBytes (eventText event))

def appendEvent (registry : PostgresRegistry) (event : Value) (createdAt : ℕ)
    (events : List RegistryEvent) : Except String (List RegistryEvent) :=
  appendEventKeyed registry (directKey registry.assess.sha event) event createdAt events

/-- What the checkpoints and proofs are made of. -/
def eventHashes (events : List RegistryEvent) : List String := events.map RegistryEvent.eventHash

/-! ## The chain -/

/-- A single chain of hashes from the root. -/
structure HashChain (sha : Sha256) (events : List RegistryEvent) : Prop where
  root : ∀ row ∈ events.head?, row.previousHash = "GENESIS"
  linked : events.IsChain fun row next => next.previousHash = row.eventHash
  hashed : ∀ row ∈ events, row.eventHash = linkHash sha row.previousHash row.eventJson

theorem hasKey_iff {events : List RegistryEvent} {eventKey : String} :
    hasKey events eventKey = true ↔ ∃ row ∈ events, row.eventKey = eventKey := by
  simp [hasKey]

theorem hasKey_append {events more : List RegistryEvent} {eventKey : String} :
    hasKey (events ++ more) eventKey = (hasKey events eventKey || hasKey more eventKey) :=
  List.any_append

theorem HashChain.nil (sha : Sha256) : HashChain sha [] where
  root := nofun
  linked := .nil
  hashed := nofun

theorem HashChain.append {sha : Sha256} {events : List RegistryEvent} {row : RegistryEvent}
    (h : HashChain sha events) (hprevious : row.previousHash = latestHash events)
    (hhash : row.eventHash = linkHash sha row.previousHash row.eventJson) :
    HashChain sha (events ++ [row]) where
  root := by
    intro first hfirst
    cases events with
    | nil =>
      obtain rfl := Option.some.inj hfirst
      exact hprevious
    | cons other rest => exact h.root first hfirst
  linked := by
    apply List.isChain_append.mpr
    refine ⟨h.linked, .singleton row, fun last hlast next hnext => ?_⟩
    obtain rfl := Option.some.inj hnext
    rw [Option.mem_def] at hlast
    rw [hprevious, latestHash, hlast]
    rfl
  hashed := by
    intro other hmem
    rcases List.mem_append.mp hmem with hold | hnew
    · exact h.hashed other hold
    · rw [List.mem_singleton.mp hnew]
      exact hhash

/-- An event is added only with a key and a hash that the log does not have. -/
theorem insertEvent_ok {events events' : List RegistryEvent} {row : RegistryEvent} :
    insertEvent events row = .ok events' ↔
      (∀ other ∈ events, other.eventHash ≠ row.eventHash) ∧
        hasKey events row.eventKey = false ∧ events' = events ++ [row] := by
  unfold insertEvent
  split_ifs with hhash hkey
  · simp only [List.any_eq_true, decide_eq_true_eq] at hhash
    obtain ⟨other, hmem, hsame⟩ := hhash
    constructor
    · intro hok
      cases hok
    · intro hboth
      exact absurd hsame (hboth.1 other hmem)
  · simp [hkey]
  · have hnew : ∀ other ∈ events, other.eventHash ≠ row.eventHash := by simpa using hhash
    have hfree : hasKey events row.eventKey = false := by simpa using hkey
    simp only [hfree, true_and, Except.ok.injEq]
    exact ⟨fun hsame => ⟨hnew, hsame.symm⟩, fun hboth => hboth.2.symm⟩

/-! ## What has been served before -/

/-- A log that has only grown is consistent with every checkpoint it has served. -/
theorem consistent_of_extends (sha : Sha256) {earlier later : List String} (h : earlier <+: later)
    (hfits : later.length ≤ usizeMax) :
    ∃ proof, merkleConsistencyProof sha later earlier.length = some proof ∧
      verifyMerkleConsistency sha proof (merkleRoot sha earlier) (merkleRoot sha later) = true := by
  obtain ⟨proof, hproof, hverified⟩ :=
    verifyMerkleConsistency_complete sha later hfits earlier.length h.length_le
  rw [← List.prefix_iff_eq_take.mp h] at hverified
  exact ⟨proof, hproof, hverified⟩

end Oath.Registry
