import Oath.Contracts.Clients
import Oath.Contracts.JsonReader

/-! When the four clients agree on a document. -/

namespace Oath.Contracts
open Registry Value

/-- A document as the parsers read it. The integer zero has one text, and strings are made of
characters. -/
structure Document where
  value : Value
  ordered : value.isOrdered

/-- All clients accept the document, or none does, whatever signatures the scheme verifies. -/
def ClientsAgree (node : NodeBuffer) (safeInteger : SafeInteger) (record : SignedRecord)
    (document : Document) : Prop :=
  ∀ ed : Ed25519, ∀ client ∈ [goClient, javascriptClient node safeInteger, pythonClient],
    record.verify ed = .ok () ↔ client.verifySignedDocument ed document.value

/-- Standard Base64 of so many bytes. -/
def IsBase64 (size : ℕ) (text : String) : Prop :=
  ∃ bytes : List UInt8, bytes.length = size ∧ text = Base64.encode bytes

def Client.Decodes (client : Client) (detached : DetachedSignature) : Prop :=
  (client.decode 32 detached.publicKey).isSome ∧ (client.decode 64 detached.signature).isSome

def fits64 (n : ℤ) : Bool := -2 ^ 63 ≤ n ∧ n < 2 ^ 63

/-- The signature of the document is an object. -/
def HasSignatureObject (document : Value) : Prop :=
  ∃ fields, document.get? "signature" = some (.object fields)

/-- When a signature that is to be verified is read alike: it is proper Base64, and the
document is just the record with safe integers and without the texts of escapes; or it is not,
and neither of the loose decoders makes a difference. -/
structure ReadAlike (record : SignedRecord) (document : Value) (detached : DetachedSignature) :
    Prop where
  proper : IsBase64 32 detached.publicKey ∧ IsBase64 64 detached.signature →
    HasSignatureObject document ∧ payload document = record.unsigned ∧
      (payload document).numbersAre isSafeInteger (fun _ => false) ∧
        ∀ s ∈ (payload document).texts, NoEscapeText s.toList
  improper : ¬(IsBase64 32 detached.publicKey ∧ IsBase64 64 detached.signature) →
    HasSignatureObject document →
      ¬(goClient.Decodes detached ∧ (payload document).numbersAre fits64 fun _ => false) ∧
        ¬(pythonClient.Decodes detached ∧ (payload document).isIntegral)

/-! ## What the clients open -/

theorem verifySignedDocument_iff {client : Client} {ed : Ed25519} {document : Value} :
    client.verifySignedDocument ed document ↔
      ∃ opened, client.opens document = some opened ∧ ed.accepts opened := by
  unfold Client.verifySignedDocument
  cases client.opens document with
  | none => simp
  | some opened => simp

/-- The scheme that verifies this signature alone. -/
def onlyScheme (opened : Opened) : Ed25519 where
  isKey _ := true
  verifies key message signature := decide ((⟨key, message, signature⟩ : Opened) = opened)

theorem onlyScheme_accepts {opened other : Opened} :
    (onlyScheme opened).accepts other ↔ other = opened := by
  simp [Ed25519.accepts, onlyScheme]

/-- Two clients agree for every scheme where they open the same. -/
theorem opens_eq_iff {x y : Option Opened} :
    (∀ ed : Ed25519, (∃ opened, x = some opened ∧ ed.accepts opened) ↔
      ∃ opened, y = some opened ∧ ed.accepts opened) ↔ x = y := by
  constructor
  · intro h
    cases x with
    | none =>
      cases y with
      | none => rfl
      | some opened =>
        obtain ⟨_, hnone, -⟩ := (h (onlyScheme opened)).mpr
          ⟨opened, rfl, onlyScheme_accepts.mpr rfl⟩
        cases hnone
    | some opened =>
      obtain ⟨other, hother, haccepts⟩ := (h (onlyScheme opened)).mp
        ⟨opened, rfl, onlyScheme_accepts.mpr rfl⟩
      rw [hother, onlyScheme_accepts.mp haccepts]
  · intro h ed
    rw [h]

theorem client_agrees_iff {client : Client} {record : SignedRecord} {document : Value} :
    (∀ ed, record.verify ed = .ok () ↔ client.verifySignedDocument ed document) ↔
      client.opens document = record.opens := by
  simp only [SignedRecord.verify_eq_ok, verifySignedDocument_iff]
  rw [opens_eq_iff]
  exact eq_comm

theorem clientsAgree_iff {node : NodeBuffer} {safeInteger : SafeInteger} {record : SignedRecord}
    {document : Document} : ClientsAgree node safeInteger record document ↔
      ∀ client ∈ [goClient, javascriptClient node safeInteger, pythonClient],
        client.opens document.value = record.opens := by
  constructor
  · intro h client hclient
    exact client_agrees_iff.mp fun ed => h ed client hclient
  · intro h ed client hclient
    exact client_agrees_iff.mpr (h client hclient) ed

/-! ## Documents and their records -/

theorem object_of_get? {document value : Value} {key : String} (h : document.get? key = some value) :
    ∃ fields, document = .object fields := by
  cases document with
  | object fields => exact ⟨fields, rfl⟩
  | _ => cases h

/-- The members of a signature as the record has it. -/
theorem detached_members {fields : List (String × Value)} {detached : DetachedSignature}
    (h : DetachedSignature.ofValue? (.object fields) = some detached) :
    member? (.object fields) "algorithm" = some detached.algorithm ∧
      member? (.object fields) "canonicalization" = some detached.canonicalization ∧
        member? (.object fields) "public_key" = some detached.publicKey ∧
          member? (.object fields) "signature" = some detached.signature := by
  obtain ⟨algorithm, halgorithm, h1⟩ := Option.bind_eq_some_iff.mp h
  obtain ⟨canonicalization, hcanonicalization, h2⟩ := Option.bind_eq_some_iff.mp h1
  obtain ⟨publicKey, hpublicKey, h3⟩ := Option.bind_eq_some_iff.mp h2
  obtain ⟨signature, hsignature, h4⟩ := Option.bind_eq_some_iff.mp h3
  obtain rfl := Option.some.inj h4
  exact ⟨halgorithm, hcanonicalization, hpublicKey, hsignature⟩

theorem record_signature {document : Value} {record : SignedRecord} {fields : List (String × Value)}
    (hread : record.ReadFrom document)
    (hget : document.get? "signature" = some (.object fields)) :
    ∃ detached, record.signature = some detached ∧
      DetachedSignature.ofValue? (.object fields) = some detached := by
  obtain ⟨members, rfl⟩ := object_of_get? hget
  have hsignature := hread.signature
  rw [Value.fieldOr_of_get? _ _ hget] at hsignature
  obtain ⟨detached, hdetached, hsome⟩ := Option.map_eq_some_iff.mp hsignature
  exact ⟨detached, hsome.symm, hdetached⟩

def Supported (detached : DetachedSignature) : Prop :=
  detached.algorithm = "ed25519" ∧ detached.canonicalization = "oath-json-v1"

theorem opens_of_object {client : Client} {document : Value} {record : SignedRecord}
    {detached : DetachedSignature} (hread : record.ReadFrom document)
    (hobject : HasSignatureObject document) (hsignature : record.signature = some detached)
    (hsupported : Supported detached) :
    client.opens document = (do
      let key ← client.decode 32 detached.publicKey
      let signature ← client.decode 64 detached.signature
      let message ← (client.writer.write (payload document)).toOption
      some ⟨key, message, signature⟩) := by
  obtain ⟨fields, hget⟩ := hobject
  obtain ⟨found, hfound, hvalue⟩ := record_signature hread hget
  obtain rfl := Option.some.inj (hsignature.symm.trans hfound)
  obtain ⟨halgorithm, hcanonicalization, hpublicKey, hsigned⟩ := detached_members hvalue
  unfold Client.opens
  rw [hget]
  simp only [Option.bind_eq_bind, Option.bind_some, asObject?, halgorithm, hcanonicalization,
    hpublicKey, hsigned, hsupported.1, hsupported.2]
  rfl

theorem opens_none_of_not_object {client : Client} {document : Value}
    (h : ¬HasSignatureObject document) : client.opens document = none := by
  unfold Client.opens
  cases hget : document.get? "signature" with
  | none => rfl
  | some value =>
    cases value with
    | object fields => exact absurd ⟨fields, hget⟩ h
    | _ => rfl

/-- No client takes a signature that the record does not have or that is of another scheme. -/
theorem opens_none_of_unsupported {client : Client} {document : Value} {record : SignedRecord}
    (hread : record.ReadFrom document)
    (h : ∀ detached, record.signature = some detached → ¬Supported detached) :
    client.opens document = none := by
  by_cases hobject : HasSignatureObject document
  · obtain ⟨fields, hget⟩ := hobject
    obtain ⟨detached, hsignature, hvalue⟩ := record_signature hread hget
    obtain ⟨halgorithm, hcanonicalization, -⟩ := detached_members hvalue
    have hunsupported := h detached hsignature
    unfold Client.opens
    rw [hget]
    simp only [Option.bind_eq_bind, Option.bind_some, asObject?, halgorithm, hcanonicalization,
      Option.some.injEq]
    exact if_neg hunsupported
  · exact opens_none_of_not_object hobject

theorem record_opens_none {record : SignedRecord}
    (h : ∀ detached, record.signature = some detached → ¬Supported detached) :
    record.opens = none := by
  unfold SignedRecord.opens
  cases hsignature : record.signature with
  | none => rfl
  | some detached => exact if_neg (h detached hsignature)

theorem record_opens {record : SignedRecord} {detached : DetachedSignature}
    (hsignature : record.signature = some detached) (hsupported : Supported detached) :
    record.opens = (do
      let key ← ofSize 32 (Base64.decode detached.publicKey)
      let signature ← ofSize 64 (Base64.decode detached.signature)
      some ⟨key, canonicalJsonBytes record.unsigned, signature⟩) := by
  unfold SignedRecord.opens
  rw [hsignature]
  exact if_pos hsupported

/-! ## Base64 -/

theorem ofSize_decode {size : ℕ} {text : String} {bytes : List UInt8} :
    ofSize size (Base64.decode text) = some bytes ↔
      bytes.length = size ∧ text = Base64.encode bytes := by
  unfold ofSize
  rw [Option.filter_eq_some_iff, Base64.decode_eq_some, decide_eq_true_eq]
  exact and_comm

theorem isBase64_iff {size : ℕ} {text : String} :
    IsBase64 size text ↔ (ofSize size (Base64.decode text)).isSome := by
  rw [Option.isSome_iff_exists]
  exact exists_congr fun bytes => ofSize_decode.symm

/-- The client decodes what is proper Base64 as it should. -/
def Client.Proper (client : Client) : Prop :=
  ∀ (size : ℕ) (text : String) (bytes : List UInt8),
    ofSize size (Base64.decode text) = some bytes → client.decode size text = some bytes

theorem ofSize_some (bytes : List UInt8) : ofSize bytes.length (some bytes) = some bytes := by
  simp [ofSize, Option.filter]

/-- Node decodes as the Rust library does: what it reads has to be written as it was. -/
theorem javascript_decode {node : NodeBuffer} {size : ℕ} {text : String} :
    decodeBase64 node size text = ofSize size (Base64.decode text) := by
  apply Option.ext
  intro bytes
  rw [ofSize_decode]
  unfold decodeBase64
  dsimp only
  constructor
  · intro h
    split_ifs at h with hrefused
    obtain ⟨hsize, htext⟩ := not_or.mp hrefused
    rw [← Option.some.inj h]
    exact ⟨not_not.mp hsize, (not_not.mp htext).symm⟩
  · intro h
    rw [h.2, node.fromBase64_encode, if_neg]
    have hsize := h.1
    simp [hsize]

theorem javascript_proper (node : NodeBuffer) (safeInteger : SafeInteger) :
    (javascriptClient node safeInteger).Proper := by
  intro size text bytes h
  exact javascript_decode.trans h

theorem python_proper : pythonClient.Proper := by
  intro size text bytes h
  obtain ⟨hsize, htext⟩ := ofSize_decode.mp h
  show ofSize size (Base64.decodeLoose (asBytes text)) = some bytes
  rw [htext, asBytes, Base64.decodeLoose_encode, ← hsize, ofSize_some]

/-- There is no end of a line in what was encoded. -/
theorem filter_encode (bytes : List UInt8) :
    ((asBytes (Base64.encode bytes)).filter fun byte => byte ≠ 10 ∧ byte ≠ 13) =
      asBytes (Base64.encode bytes) := by
  apply List.filter_eq_self.mpr
  intro byte hbyte
  rw [asBytes, Base64.bytes_encode] at hbyte
  have habove := Base64.le_textBytes bytes byte hbyte
  have hline : ∀ line : UInt8, ¬43 ≤ line → byte ≠ line := by
    intro line hbelow heq
    exact hbelow (heq ▸ habove)
  rw [decide_eq_true_eq]
  exact ⟨hline 10 (by decide), hline 13 (by decide)⟩

theorem go_proper : goClient.Proper := by
  intro size text bytes h
  obtain ⟨hsize, htext⟩ := ofSize_decode.mp h
  show ofSize size (Base64.decodeLoose ((asBytes text).filter _)) = some bytes
  rw [htext, filter_encode, asBytes, Base64.decodeLoose_encode, ← hsize, ofSize_some]

/-! ## The record without its signature -/

@[simp] theorem isCanonical_ofOption {α : Type} {write : α → Value}
    (h : ∀ a, IsCanonical (write a)) (value : Option α) : IsCanonical (ofOption write value) := by
  cases value with
  | none => exact isCanonical_null
  | some a => exact h a

/-! Every field of a record is canonical, so the record is. -/

@[simp] theorem isCanonical_identity (identity : PackageIdentity) :
    IsCanonical identity.toValue := by
  obtain ⟨_, _, _, _, _, publishAgeDays, _⟩ := identity
  apply isCanonical_json
  cases publishAgeDays with
  | none => simp
  | some age => simp

@[simp] theorem isCanonical_versionDiff (diff : VersionDiff) : IsCanonical diff.toValue := by
  apply isCanonical_json
  simp

@[simp] theorem isCanonical_evidence (evidence : PackageEvidence) :
    IsCanonical evidence.toValue := by
  apply isCanonical_json
  simp

@[simp] theorem isCanonical_policy (policy : PolicyDecision) : IsCanonical policy.toValue := by
  apply isCanonical_json
  simp

@[simp] theorem isCanonical_sandbox (sandbox : SandboxEvidence) :
    IsCanonical sandbox.toValue := by
  apply isCanonical_json
  simp

@[simp] theorem isCanonical_file (file : PublishFile) : IsCanonical file.toValue := by
  apply isCanonical_json
  simp [PublishFile.fields]

@[simp] theorem isCanonical_diff (diff : PublishDiff) : IsCanonical diff.toValue := by
  apply isCanonical_json
  simp [PublishDiff.fields]

@[simp] theorem isCanonical_signature (detached : DetachedSignature) :
    IsCanonical detached.toValue := by
  apply isCanonical_json
  simp

theorem isCanonical_files (files : List PublishFile) :
    IsCanonical (array (files.map PublishFile.toValue)) := by
  apply isCanonical_array
  intro value hvalue
  obtain ⟨file, -, hfile⟩ := List.mem_map.mp hvalue
  rw [← hfile]
  exact isCanonical_file file

theorem isCanonical_unsigned (record : SignedRecord) : IsCanonical record.unsigned := by
  cases record with
  | exec a =>
    apply isCanonical_json
    simp
  | publish a =>
    apply isCanonical_json
    simp [PublishAssessmentV2.fields, isCanonical_files]
  | verdict v =>
    apply isCanonical_json
    simp

/-- Setting the signature to `null` leaves a document in order. -/
theorem isOrdered_payload {document : Value} (h : document.isOrdered) :
    (payload document).isOrdered := by
  cases document with
  | object fields =>
    obtain ⟨hkeys, hfields⟩ := isOrdered_object.mp h
    have hsame : (fields.map fun field =>
        if field.1 = "signature" then (field.1, null) else field).map Prod.fst =
          fields.map Prod.fst := by
      rw [List.map_map]
      apply List.map_congr_left
      intro field _
      dsimp only [Function.comp]
      split_ifs <;> rfl
    refine isOrdered_object.mpr ⟨hsame ▸ hkeys, ?_⟩
    clear hsame hkeys h
    induction fields with
    | nil => rfl
    | cons field rest ih =>
      rw [isOrderedFields, Bool.and_eq_true] at hfields
      rw [List.map_cons, isOrderedFields, Bool.and_eq_true]
      refine ⟨?_, ih hfields.2⟩
      split_ifs
      · rfl
      · exact hfields.1
  | _ => exact h

/-! ## What the writers take -/

theorem go_int_isOk (n : ℤ) : (go.int n).isOk = fits64 n := by
  unfold fits64
  by_cases h : -2 ^ 63 ≤ n ∧ n < 2 ^ 63
  · rw [decide_eq_true h]
    exact congrArg Except.isOk (if_pos h)
  · rw [decide_eq_false h]
    exact congrArg Except.isOk (if_neg h)

theorem javascript_int_isOk (safeInteger : SafeInteger) (n : ℤ) :
    ((javascript safeInteger).int n).isOk = isSafeInteger n := by
  unfold isSafeInteger
  by_cases h : -maxSafeInteger ≤ n ∧ n ≤ maxSafeInteger
  · rw [decide_eq_true h]
    exact congrArg Except.isOk (if_pos h)
  · rw [decide_eq_false h]
    exact congrArg Except.isOk (if_neg h)

theorem go_isOk {value : Value} :
    (go.write value).isOk ↔ value.numbersAre fits64 fun _ => false := by
  rw [Writer.isOk_write, funext go_int_isOk]
  rfl

theorem python_isOk {value : Value} : (python.write value).isOk ↔ value.isIntegral :=
  Writer.isOk_write python value

/-- Python takes no number but integers, and JavaScript no integer that is not safe. -/
theorem numbersAre_of_isOk {safeInteger : SafeInteger} {value : Value}
    (hjavascript : ((javascript safeInteger).write value).isOk) (hpython : (python.write value).isOk) :
    value.numbersAre isSafeInteger fun _ => false := by
  rw [Writer.isOk_write, funext (javascript_int_isOk safeInteger)] at hjavascript
  rw [python_isOk] at hpython
  refine numbersAre_imp ?_ ?_ value hjavascript hpython
  · exact fun n hsafe _ => hsafe
  · exact fun text _ hfloat => hfloat

/-- The three write the bytes that the Rust library writes of its record where the payload is
that record, in safe integers and without the texts of escapes. -/
theorem writers_agree_iff (safeInteger : SafeInteger) {value unsigned : Value}
    (hvalue : value.isOrdered) (hunsigned : unsigned.IsCanonical) :
    (go.write value = .ok (canonicalJsonBytes unsigned) ∧
      (javascript safeInteger).write value = .ok (canonicalJsonBytes unsigned) ∧
        python.write value = .ok (canonicalJsonBytes unsigned)) ↔
    value = unsigned ∧ value.numbersAre isSafeInteger (fun _ => false) ∧
      ∀ s ∈ value.texts, NoEscapeText s.toList := by
  constructor
  · intro h
    obtain ⟨hgo, hjavascript, hpython⟩ := h
    have hnumbers := numbersAre_of_isOk (isOk_iff.mpr ⟨_, hjavascript⟩) (isOk_iff.mpr ⟨_, hpython⟩)
    have hsafe := isSafe_of_ordered value hvalue hnumbers
    have hintegral := python_isOk.mp (isOk_iff.mpr ⟨_, hpython⟩)
    have hbytes := Except.ok.inj ((write_quote python_writes hsafe).symm.trans hpython)
    have hsame := canonicalJsonBytes_injective ⟨hintegral, hvalue⟩ hunsigned hbytes
    rw [← hsame] at hgo
    exact ⟨hsame, hnumbers, (write_go_iff hsafe).mp hgo⟩
  · intro h
    obtain ⟨hsame, hnumbers, hclean⟩ := h
    have hsafe := isSafe_of_ordered value hvalue hnumbers
    rw [← hsame]
    exact ⟨(write_go_iff hsafe).mpr hclean, write_quote (javascript_writes safeInteger) hsafe,
      write_quote python_writes hsafe⟩

/-! ## One signature -/

section Signature
variable {client : Client} {document : Value} {record : SignedRecord}
  {detached : DetachedSignature}

/-- A client opens something where it decodes the texts and writes the payload. -/
theorem opens_isSome_iff (hread : record.ReadFrom document)
    (hsignature : record.signature = some detached) (hsupported : Supported detached) :
    (client.opens document).isSome ↔ HasSignatureObject document ∧ client.Decodes detached ∧
      (client.writer.write (payload document)).isOk := by
  by_cases hobject : HasSignatureObject document
  · rw [opens_of_object hread hobject hsignature hsupported]
    unfold Client.Decodes
    cases client.decode 32 detached.publicKey <;> cases client.decode 64 detached.signature <;>
      cases client.writer.write (payload document) <;>
        simp [hobject, Except.isOk, Except.toBool, Except.toOption]
  · rw [opens_none_of_not_object hobject]
    simp [hobject]

/-- Of proper Base64, a client opens what the Rust library opens where it writes the payload as
the Rust library writes the record. -/
theorem opens_proper_iff (hread : record.ReadFrom document)
    (hsignature : record.signature = some detached) (hsupported : Supported detached)
    (hclient : client.Proper)
    (hproper : IsBase64 32 detached.publicKey ∧ IsBase64 64 detached.signature) :
    client.opens document = record.opens ↔ HasSignatureObject document ∧
      client.writer.write (payload document) = .ok (canonicalJsonBytes record.unsigned) := by
  obtain ⟨key, hkey⟩ := Option.isSome_iff_exists.mp (isBase64_iff.mp hproper.1)
  obtain ⟨signature, hsigned⟩ := Option.isSome_iff_exists.mp (isBase64_iff.mp hproper.2)
  have hopens : record.opens = some ⟨key, canonicalJsonBytes record.unsigned, signature⟩ := by
    rw [record_opens hsignature hsupported, hkey, hsigned]
    rfl
  rw [hopens]
  by_cases hobject : HasSignatureObject document
  · rw [opens_of_object hread hobject hsignature hsupported, hclient _ _ _ hkey,
      hclient _ _ _ hsigned]
    cases client.writer.write (payload document) with
    | error message => simp [Except.toOption]
    | ok bytes => simp [Except.toOption, hobject]
  · rw [opens_none_of_not_object hobject]
    simp [hobject]

theorem record_opens_improper (hsignature : record.signature = some detached)
    (hsupported : Supported detached)
    (himproper : ¬(IsBase64 32 detached.publicKey ∧ IsBase64 64 detached.signature)) :
    record.opens = none := by
  rw [isBase64_iff, isBase64_iff] at himproper
  rw [record_opens hsignature hsupported]
  cases hkey : ofSize 32 (Base64.decode detached.publicKey) with
  | none => rfl
  | some key =>
    cases hsigned : ofSize 64 (Base64.decode detached.signature) with
    | none => rfl
    | some signature => exact absurd (by simp [hkey, hsigned]) himproper

theorem javascript_decodes_iff {node : NodeBuffer} {safeInteger : SafeInteger} :
    (javascriptClient node safeInteger).Decodes detached ↔
      IsBase64 32 detached.publicKey ∧ IsBase64 64 detached.signature := by
  have hdecode (size : ℕ) (text : String) :=
    congrArg Option.isSome (javascript_decode : decodeBase64 node size text = _)
  rw [isBase64_iff, isBase64_iff, ← hdecode, ← hdecode]
  exact Iff.rfl

/-- The clients open the same where the signature is read alike. -/
theorem opens_agree_iff {node : NodeBuffer} {safeInteger : SafeInteger}
    (hread : record.ReadFrom document) (hordered : document.isOrdered)
    (hsignature : record.signature = some detached) (hsupported : Supported detached) :
    (∀ client ∈ [goClient, javascriptClient node safeInteger, pythonClient],
      client.opens document = record.opens) ↔ ReadAlike record document detached := by
  rw [List.forall_mem_cons, List.forall_mem_cons, List.forall_mem_singleton]
  by_cases hproper : IsBase64 32 detached.publicKey ∧ IsBase64 64 detached.signature
  · have hclient {client : Client} (hdecode : client.Proper) :=
      opens_proper_iff hread hsignature hsupported hdecode hproper
    have hwriters := writers_agree_iff safeInteger (isOrdered_payload hordered)
      (isCanonical_unsigned record)
    rw [hclient go_proper, hclient (javascript_proper node safeInteger), hclient python_proper]
    constructor
    · intro h
      obtain ⟨⟨hobject, hgo⟩, ⟨-, hjavascript⟩, -, hpython⟩ := h
      have hpayload := hwriters.mp ⟨hgo, hjavascript, hpython⟩
      exact ⟨fun _ => ⟨hobject, hpayload⟩, fun himproper => absurd hproper himproper⟩
    · intro h
      obtain ⟨hobject, hpayload⟩ := h.proper hproper
      obtain ⟨hgo, hjavascript, hpython⟩ := hwriters.mpr hpayload
      exact ⟨⟨hobject, hgo⟩, ⟨hobject, hjavascript⟩, hobject, hpython⟩
  · have hnone (client : Client) : client.opens document = none ↔
        (HasSignatureObject document → ¬(client.Decodes detached ∧
          (client.writer.write (payload document)).isOk)) := by
      rw [← Option.not_isSome_iff_eq_none, opens_isSome_iff hread hsignature hsupported, not_and]
    have hjavascript : (javascriptClient node safeInteger).opens document = none := by
      rw [hnone]
      exact fun _ hopens => hproper (javascript_decodes_iff.mp hopens.1)
    rw [record_opens_improper hsignature hsupported hproper, hnone goClient, hnone pythonClient]
    constructor
    · intro h
      obtain ⟨hgo, -, hpython⟩ := h
      refine ⟨fun hother => absurd hother hproper, fun _ hobject => ⟨?_, ?_⟩⟩
      · exact fun hopens => hgo hobject ⟨hopens.1, go_isOk.mpr hopens.2⟩
      · exact fun hopens => hpython hobject ⟨hopens.1, python_isOk.mpr hopens.2⟩
    · intro h
      have himproper := h.improper hproper
      refine ⟨fun hobject hopens => ?_, hjavascript, fun hobject hopens => ?_⟩
      · exact (himproper hobject).1 ⟨hopens.1, go_isOk.mp hopens.2⟩
      · exact (himproper hobject).2 ⟨hopens.1, python_isOk.mp hopens.2⟩

end Signature

/-- The four clients agree on a document exactly where a signature that is to be verified is
read alike. -/
theorem clients_agree_iff (node : NodeBuffer) (safeInteger : SafeInteger) (record : SignedRecord)
    (document : Document) (hread : record.ReadFrom document.value) :
    ClientsAgree node safeInteger record document ↔
      ∀ detached, record.signature = some detached → Supported detached →
        ReadAlike record document.value detached := by
  rw [clientsAgree_iff]
  by_cases hsigned : ∃ detached, record.signature = some detached ∧ Supported detached
  · obtain ⟨detached, hsignature, hsupported⟩ := hsigned
    rw [opens_agree_iff hread document.ordered hsignature hsupported]
    constructor
    · intro h other hother _
      rw [← Option.some.inj (hsignature.symm.trans hother)]
      exact h
    · intro h
      exact h detached hsignature hsupported
  · have hunsupported : ∀ detached, record.signature = some detached → ¬Supported detached := by
      intro detached hsignature hsupported
      exact hsigned ⟨detached, hsignature, hsupported⟩
    constructor
    · intro _ detached hsignature hsupported
      exact absurd hsupported (hunsupported detached hsignature)
    · intro _ client _
      rw [opens_none_of_unsupported hread hunsupported, record_opens_none hunsupported]

/-! ## A verdict, and the same verdict with a note -/

def plainSignature : DetachedSignature where
  algorithm := "ed25519"
  canonicalization := "oath-json-v1"
  publicKey := Base64.encode (List.replicate 32 0)
  signature := Base64.encode (List.replicate 64 0)

def plainVerdict : RegistryVerdictV1 where
  schemaVersion := 1
  generatedAt := 1
  expiresAt := 2
  package := ⟨"left-pad", "1.3.0", "https://registry.npmjs.org", none, none, none, none⟩
  decision := .allow
  reasonCode := .registryAllowed
  riskScore := 0
  packageDigest := "sha256:p"
  assessmentDigest := "sha256:a"
  policyDigest := "sha256:d"
  ruleBundleVersion := "1"
  limitations := []
  signature := some plainSignature

theorem plain_ordered : plainVerdict.toValue.isOrdered := by decide

def plainDocument : Document where
  value := plainVerdict.toValue
  ordered := plain_ordered

/-- The library has no field for the note. -/
def notedValue : Value :=
  .object (insertField "note" (.string "reviewed") (plainVerdict.toValue.asObject?.getD []))

theorem noted_ordered : notedValue.isOrdered := by decide

def notedDocument : Document where
  value := notedValue
  ordered := noted_ordered

/-- Node's decoder on the texts that are strict. -/
def strictBuffer : NodeBuffer where
  fromBase64 text := (Base64.decode text).getD []
  fromBase64_encode bytes := by rw [Base64.decode_eq_some.mpr rfl, Option.getD_some]

theorem plain_proper :
    IsBase64 32 plainSignature.publicKey ∧ IsBase64 64 plainSignature.signature :=
  ⟨⟨_, List.length_replicate, rfl⟩, _, List.length_replicate, rfl⟩

theorem plain_read : (SignedRecord.verdict plainVerdict).ReadFrom plainDocument.value := by
  show RegistryVerdictV1.ofValue? plainDocument.value = some plainVerdict
  decide

theorem noted_read : (SignedRecord.verdict plainVerdict).ReadFrom notedDocument.value := by
  show RegistryVerdictV1.ofValue? notedDocument.value = some plainVerdict
  decide

theorem plain_payload :
    payload plainDocument.value = (SignedRecord.verdict plainVerdict).unsigned := rfl

theorem plain_readAlike : ReadAlike (.verdict plainVerdict) plainDocument.value plainSignature where
  proper _ := by
    have hobject : HasSignatureObject plainDocument.value := ⟨_, rfl⟩
    have hsafe : (payload plainDocument.value).numbersAre isSafeInteger fun _ => false := by
      decide
    have hclean : ∀ s ∈ (payload plainDocument.value).texts, NoEscapeText s.toList := by
      decide
    exact ⟨hobject, plain_payload, hsafe, hclean⟩
  improper h := absurd plain_proper h

theorem clients_agree_plain :
    ClientsAgree strictBuffer (fun _ => none) (.verdict plainVerdict) plainDocument := by
  refine (clients_agree_iff _ _ _ _ plain_read).mpr ?_
  intro detached hsignature _
  rw [← Option.some.inj hsignature]
  exact plain_readAlike

/-- What the Rust library opens of both documents. -/
def plainOpened : Opened where
  key := List.replicate 32 0
  message := canonicalJsonBytes (SignedRecord.verdict plainVerdict).unsigned
  signature := List.replicate 64 0

theorem plain_opens : (SignedRecord.verdict plainVerdict).opens = some plainOpened := by
  have hkey : ofSize 32 (Base64.decode plainSignature.publicKey) = some (List.replicate 32 0) :=
    ofSize_decode.mpr ⟨List.length_replicate, rfl⟩
  have hsigned : ofSize 64 (Base64.decode plainSignature.signature) = some (List.replicate 64 0) :=
    ofSize_decode.mpr ⟨List.length_replicate, rfl⟩
  have hsignature : (SignedRecord.verdict plainVerdict).signature = some plainSignature := rfl
  rw [record_opens hsignature ⟨rfl, rfl⟩, hkey, hsigned]
  rfl

/-- Where the scheme verifies the signature of the verdict and no other, the Rust library accepts
the verdict with the note, and the others refuse it. -/
theorem clients_disagree_noted :
    (SignedRecord.verdict plainVerdict).ReadFrom notedDocument.value ∧
      verifyRegistryVerdict (onlyScheme plainOpened) plainVerdict = .ok () ∧
        ∀ client ∈ [goClient, javascriptClient strictBuffer (fun _ => none), pythonClient],
          ¬client.verifySignedDocument (onlyScheme plainOpened) notedDocument.value := by
  have hverified : (SignedRecord.verdict plainVerdict).verify (onlyScheme plainOpened) = .ok () :=
    SignedRecord.verify_eq_ok.mpr ⟨plainOpened, plain_opens, onlyScheme_accepts.mpr rfl⟩
  have hsafe : (payload notedDocument.value).isSafe := by decide
  have hclean : ∀ s ∈ (payload notedDocument.value).texts, NoEscapeText s.toList := by
    decide
  have hcanonical : (payload notedDocument.value).IsCanonical :=
    ⟨by decide, isOrdered_payload notedDocument.ordered⟩
  -- The payload has a member that the record has not.
  have hbytes : canonicalJsonBytes (payload notedDocument.value) ≠
      canonicalJsonBytes (SignedRecord.verdict plainVerdict).unsigned := by
    intro heq
    have hsame := canonicalJsonBytes_injective hcanonical (isCanonical_unsigned _) heq
    exact absurd (congrArg (fun value => (value.get? "note").isSome) hsame) (by decide)
  have hrefused : ∀ client : Client, client.Proper →
      client.writer.write (payload notedDocument.value) =
        .ok (canonicalJsonBytes (payload notedDocument.value)) →
      ¬client.verifySignedDocument (onlyScheme plainOpened) notedDocument.value := by
    intro client hproper hwrite hverifies
    obtain ⟨opened, hopened, haccepts⟩ := verifySignedDocument_iff.mp hverifies
    rw [onlyScheme_accepts.mp haccepts, ← plain_opens] at hopened
    have hsignature : (SignedRecord.verdict plainVerdict).signature = some plainSignature := rfl
    have hwritten := (opens_proper_iff noted_read hsignature ⟨rfl, rfl⟩ hproper
      plain_proper).mp hopened
    exact hbytes (Except.ok.inj (hwrite.symm.trans hwritten.2))
  refine ⟨noted_read, hverified, ?_⟩
  rw [List.forall_mem_cons, List.forall_mem_cons, List.forall_mem_singleton]
  exact ⟨hrefused _ go_proper ((write_go_iff hsafe).mpr hclean),
    hrefused _ (javascript_proper _ _) (write_quote (javascript_writes fun _ => none) hsafe),
    hrefused _ python_proper (write_quote python_writes hsafe)⟩

end Oath.Contracts
