import Oath.Contracts.CanonicalUnique
import Oath.Contracts.SignedRecords
import Oath.Library.Base64

/-! The verifying clients of the other languages. They take a document as it stands: its
signature is set to `null`, and the rest is written in canonical form and verified. -/

namespace Oath.Contracts
open Registry

/-- What a signature is verified over. -/
structure Opened where
  key : List UInt8
  message : List UInt8
  signature : List UInt8
deriving DecidableEq, Repr

def Ed25519.accepts (ed : Ed25519) (opened : Opened) : Bool :=
  ed.isKey opened.key && ed.verifies opened.key opened.message opened.signature

/-- How a client decodes Base64 of so many bytes and how it writes a value. -/
structure Client where
  decode : ℕ → String → Option (List UInt8)
  writer : Writer

def ofSize (size : ℕ) (bytes : Option (List UInt8)) : Option (List UInt8) :=
  bytes.filter fun bytes => bytes.length = size

/-- A member of a signature, if it is a string. -/
def member? (detached : Value) (key : String) : Option String := (detached.get? key).bind Value.asStr?

/-- The document with `null` for its signature. -/
def payload : Value → Value
  | .object fields =>
    .object (fields.map fun field => if field.1 = "signature" then (field.1, .null) else field)
  | value => value

namespace Client
variable (client : Client)

def opens (document : Value) : Option Opened := do
  let detached ← document.get? "signature"
  let _ ← detached.asObject?
  if member? detached "algorithm" = some "ed25519" ∧
      member? detached "canonicalization" = some "oath-json-v1" then
    let key ← (member? detached "public_key").bind (client.decode 32)
    let signature ← (member? detached "signature").bind (client.decode 64)
    let message ← (client.writer.write (payload document)).toOption
    some ⟨key, message, signature⟩
  else none

/-- An error counts as a document that is not accepted. -/
def verifySignedDocument (ed : Ed25519) (document : Value) : Bool :=
  match client.opens document with
  | some opened => ed.accepts opened
  | none => false

end Client

/-! ## The clients -/

/-- `base64.StdEncoding` passes over the ends of lines. -/
def goClient : Client where
  decode size text :=
    ofSize size (Base64.decodeLoose ((asBytes text).filter fun byte => byte ≠ 10 ∧ byte ≠ 13))
  writer := go

/-- `Buffer.from` with Base64 takes any text; it reads back what `toString` has written. -/
structure NodeBuffer where
  fromBase64 : String → List UInt8
  fromBase64_encode (bytes : List UInt8) : fromBase64 (Base64.encode bytes) = bytes

def decodeBase64 (node : NodeBuffer) (expectedBytes : ℕ) (value : String) : Option (List UInt8) :=
  let decoded := node.fromBase64 value
  if decoded.length ≠ expectedBytes ∨ Base64.encode decoded ≠ value then none else some decoded

def javascriptClient (node : NodeBuffer) (safeInteger : SafeInteger) : Client where
  decode := decodeBase64 node
  writer := javascript safeInteger

/-- `b64decode` with `validate`. -/
def pythonClient : Client where
  decode size text := ofSize size (Base64.decodeLoose (asBytes text))
  writer := python

/-! ## What the Rust library verifies -/

def SignedRecord.opens (record : SignedRecord) : Option Opened := do
  let detached ← record.signature
  if detached.algorithm = "ed25519" ∧ detached.canonicalization = "oath-json-v1" then
    let key ← ofSize 32 (Base64.decode detached.publicKey)
    let signature ← ofSize 64 (Base64.decode detached.signature)
    some ⟨key, canonicalJsonBytes record.unsigned, signature⟩
  else none

theorem decodeExact_eq_ok {size : ℕ} {error : ContractError} {text : String} {bytes : List UInt8} :
    decodeExact size error text = .ok bytes ↔ ofSize size (Base64.decode text) = some bytes := by
  unfold decodeExact ofSize
  cases Base64.decode text with
  | none => simp
  | some decoded =>
    dsimp only
    by_cases hsize : decoded.length = size
    · simp [hsize, Option.filter]
    · simp [hsize, Option.filter]

theorem verifyDecoded_eq_ok {ed : Ed25519} {value : Value} {detached : DetachedSignature} :
    verifyDecoded ed value detached = .ok () ↔
      ∃ key signature, ofSize 32 (Base64.decode detached.publicKey) = some key ∧
        ofSize 64 (Base64.decode detached.signature) = some signature ∧
          ed.accepts ⟨key, canonicalJsonBytes value, signature⟩ := by
  unfold verifyDecoded Ed25519.accepts
  rw [Except.bind_eq_ok]
  apply exists_congr
  intro key
  rw [decodeExact_eq_ok, Except.bind_eq_ok, ← exists_and_left]
  apply exists_congr
  intro signature
  rw [decodeExact_eq_ok]
  cases ed.isKey key <;> cases ed.verifies key (canonicalJsonBytes value) signature <;> simp

theorem SignedRecord.verify_eq_ok {ed : Ed25519} {record : SignedRecord} :
    record.verify ed = .ok () ↔ ∃ opened, record.opens = some opened ∧ ed.accepts opened := by
  rw [verify_eq, opens]
  cases record.signature with
  | none => simp [verifySigned]
  | some detached =>
    rw [Option.bind_eq_bind, Option.bind_some]
    show verifyJson ed record.unsigned detached = .ok () ↔ _
    unfold verifyJson
    by_cases halgorithm : detached.algorithm = "ed25519"
    · by_cases hcanonical : detached.canonicalization = "oath-json-v1"
      · rw [if_neg (not_not.mpr halgorithm), if_neg (not_not.mpr hcanonical),
          if_pos ⟨halgorithm, hcanonical⟩, verifyDecoded_eq_ok]
        simp only [Option.bind_eq_bind, Option.bind_eq_some_iff, Option.some.injEq]
        constructor
        · rintro ⟨key, signature, hkey, hsignature, haccepts⟩
          exact ⟨_, ⟨key, hkey, signature, hsignature, rfl⟩, haccepts⟩
        · rintro ⟨_, ⟨key, hkey, signature, hsignature, rfl⟩, haccepts⟩
          exact ⟨key, signature, hkey, hsignature, haccepts⟩
      · simp [halgorithm, hcanonical]
    · simp [halgorithm]

end Oath.Contracts
