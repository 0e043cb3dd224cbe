import Oath.Contracts.CanonicalRead
import Oath.Contracts.ClientAgreement

/-! Signatures of JSON documents: what was signed verifies, and nothing else does that is not the
same JSON value. -/

namespace Oath.Contracts
open Registry Value

/-- The signature of these bytes verifies the other ones only when they are the same. -/
def SigningKey.SignsOnly (key : SigningKey) (ed : Ed25519) (signed other : List UInt8) : Prop :=
  ∀ bytes signature, Base64.decode key.publicKey = some bytes →
    Base64.decode (key.sign signed) = some signature → ed.verifies bytes other signature →
      other = signed

/-! ## A document and its detached signature -/

theorem verifies_of_verifyJson {ed : Ed25519} {value : Value} {detached : DetachedSignature}
    (h : verifyJson ed value detached = .ok ()) :
    ∃ bytes signature, Base64.decode detached.publicKey = some bytes ∧
      Base64.decode detached.signature = some signature ∧
      ed.verifies bytes (canonicalJsonBytes value) signature := by
  unfold verifyJson at h
  split_ifs at h
  unfold verifyDecoded at h
  obtain ⟨bytes, hkey, h⟩ := Except.bind_eq_ok.mp h
  obtain ⟨signature, hsignature, h⟩ := Except.bind_eq_ok.mp h
  refine ⟨bytes, signature, (Option.filter_eq_some_iff.mp (decodeExact_eq_ok.mp hkey)).1,
    (Option.filter_eq_some_iff.mp (decodeExact_eq_ok.mp hsignature)).1, ?_⟩
  by_contra hnot
  rw [if_neg hnot] at h
  split_ifs at h

/-- A signature of one value verifies another one exactly when their canonical bytes are the
same. -/
theorem verifyJson_signJson_iff {ed : Ed25519} {key : SigningKey} (hkey : key.Verifies ed)
    {a b : Value} (hexact : key.SignsOnly ed (canonicalJsonBytes a) (canonicalJsonBytes b)) :
    verifyJson ed b (signJson a key) = .ok () ↔ canonicalJsonBytes b = canonicalJsonBytes a := by
  constructor
  · intro h
    obtain ⟨bytes, signature, hpublic, hsignature, hverifies⟩ := verifies_of_verifyJson h
    exact hexact bytes signature hpublic hsignature hverifies
  · intro h
    have hsame : signJson a key = signJson b key := by
      unfold signJson
      rw [h]
    rw [hsame]
    exact verifyJson_signJson hkey b

/-! ## A record with its signature in it -/

/-- An object with a field set. -/
def Value.put (value : Value) (key : String) (field : Value) : Value :=
  match value with
  | object fields => object (insertField key field fields)
  | value => value

theorem insertField_insertField (key : String) (value other : Value)
    (fields : List (String × Value)) :
    insertField key value (insertField key other fields) = insertField key value fields := by
  induction fields with
  | nil => rw [insertField, insertField, insertField, if_pos rfl]
  | cons field rest ih =>
    obtain ⟨first, kept⟩ := field
    by_cases hsame : key = first
    · rw [insertField, if_pos hsame, insertField, if_pos rfl, insertField, if_pos hsame]
    · by_cases hless : key < first
      · rw [insertField, if_neg hsame, if_pos hless, insertField, if_pos rfl, insertField,
          if_neg hsame, if_pos hless]
      · rw [insertField, if_neg hsame, if_neg hless, insertField, if_neg hsame, if_neg hless, ih,
          insertField, if_neg hsame, if_neg hless]

theorem json_append_put (front : List (String × Value)) (key : String) (value other : Value) :
    json (front ++ [(key, value)]) = (json (front ++ [(key, other)])).put key value := by
  rw [json, json, List.foldl_append, List.foldl_append]
  exact congrArg object (insertField_insertField key value other _).symm

/-- The last field of a record, set over what stood there. -/
theorem json_eq_put {fields others : List (String × Value)} {key : String} {value other : Value}
    (h : fields = others.dropLast ++ [(key, value)])
    (h' : others = others.dropLast ++ [(key, other)]) :
    json fields = (json others).put key value := by
  have hput := json_append_put others.dropLast key value other
  rwa [← h, ← h'] at hput

namespace SignedRecord

def toValue : SignedRecord → Value
  | exec a => a.toValue
  | publish a => a.toValue
  | verdict v => v.toValue

/-- The record is signed without its signature, and carries the new one. -/
def sign (key : SigningKey) (record : SignedRecord) : SignedRecord :=
  let signature := some (signJson record.unsigned key)
  match record with
  | exec a => exec { a with signature }
  | publish a => publish { a with signature }
  | verdict v => verdict { v with signature }

theorem sign_signature (key : SigningKey) (record : SignedRecord) :
    (record.sign key).signature = some (signJson record.unsigned key) := by
  cases record with
  | exec a => rfl
  | publish a => rfl
  | verdict v => rfl

theorem sign_unsigned (key : SigningKey) (record : SignedRecord) :
    (record.sign key).unsigned = record.unsigned := by
  cases record with
  | exec a => rfl
  | publish a => rfl
  | verdict v => rfl

/-- The document of a record is the one that was signed, with the signature put in. -/
theorem toValue_eq (record : SignedRecord) :
    record.toValue =
      record.unsigned.put "signature" (ofOption DetachedSignature.toValue record.signature) := by
  cases record with
  | exec a => exact json_eq_put rfl rfl
  | publish a => exact json_eq_put rfl rfl
  | verdict v =>
    obtain ⟨_, _, _, _, _, _, _, _, _, _, _, _, signature⟩ := v
    cases signature with
    | none => exact json_eq_put rfl rfl
    | some signature => exact json_eq_put rfl rfl

theorem verify_sign {ed : Ed25519} {key : SigningKey} (hkey : key.Verifies ed)
    (record : SignedRecord) : (record.sign key).verify ed = .ok () := by
  rw [verify_eq, sign_signature, sign_unsigned]
  exact verifyJson_signJson hkey record.unsigned

/-- A record that verifies with the signature of another one is the same document. -/
theorem eq_of_verify {ed : Ed25519} {key : SigningKey} (hkey : key.Verifies ed)
    {record other : SignedRecord} (hsignature : other.signature = (record.sign key).signature)
    (hexact : key.SignsOnly ed (canonicalJsonBytes record.unsigned)
      (canonicalJsonBytes other.unsigned))
    (h : other.verify ed = .ok ()) : other.toValue = (record.sign key).toValue := by
  have hverified : verifyJson ed other.unsigned (signJson record.unsigned key) = .ok () := by
    rw [verify_eq, hsignature, sign_signature] at h
    exact h
  have hbytes := (verifyJson_signJson_iff hkey hexact).mp hverified
  have hunsigned : other.unsigned = record.unsigned :=
    canonicalJsonBytes_injective (isCanonical_unsigned other) (isCanonical_unsigned record) hbytes
  rw [toValue_eq, toValue_eq (record.sign key), hsignature, hunsigned, sign_unsigned]

end SignedRecord

/-- For values with distinct keys in every object and serde_json's integers as their numbers: the
canonical bytes are the same exactly for values that are equal up to the order of fields; they
are read back as such a value, with the same bytes, unless it is opened deeper than the reader
goes; and a signature verifies exactly such values. -/
theorem signed_documents {ed : Ed25519} {key : SigningKey} (hkey : key.Verifies ed)
    (readFloat : List Char → Option String) {a b : Value} (ha : a.distinctKeys)
    (hb : b.distinctKeys) (hamachine : a.isMachineIntegral) (hbmachine : b.isMachineIntegral)
    (hexact : key.SignsOnly ed (canonicalJsonBytes a) (canonicalJsonBytes b)) :
    (canonicalJsonBytes a = canonicalJsonBytes b ↔ Same a b) ∧
    (∀ limit, fromSlice readFloat limit (canonicalJsonBytes a) =
      if a.depth ≤ limit then some a.ordered else none) ∧
    (Same a a.ordered ∧ canonicalJsonBytes a.ordered = canonicalJsonBytes a) ∧
    verifyJson ed a (signJson a key) = .ok () ∧
    (verifyJson ed b (signJson a key) = .ok () ↔ Same a b) ∧
    (∀ record : SignedRecord, (record.sign key).verify ed = .ok ()) ∧
    ∀ record other : SignedRecord, other.signature = (record.sign key).signature →
      key.SignsOnly ed (canonicalJsonBytes record.unsigned) (canonicalJsonBytes other.unsigned) →
      other.verify ed = .ok () → other.toValue = (record.sign key).toValue := by
  have hiff : canonicalJsonBytes a = canonicalJsonBytes b ↔ Same a b :=
    canonicalJsonBytes_eq_iff ha hb (isIntegral_of_isMachineIntegral hamachine)
      (isIntegral_of_isMachineIntegral hbmachine)
  have hordered : canonicalJsonBytes a.ordered = canonicalJsonBytes a :=
    canonicalJsonBytes_ordered ha
  have hread : ∀ limit, fromSlice readFloat limit (canonicalJsonBytes a) =
      if a.depth ≤ limit then some a.ordered else none :=
    fromSlice_canonicalJsonBytes readFloat ha hamachine
  have hverify : verifyJson ed b (signJson a key) = .ok () ↔ Same a b := by
    rw [verifyJson_signJson_iff hkey hexact, ← hiff]
    exact eq_comm
  have hsame : Same a a.ordered := by
    have hintegral := isIntegral_of_isMachineIntegral hamachine
    have hcanonical := isCanonical_ordered a hintegral
    exact (canonicalJsonBytes_eq_iff ha (distinctKeys_of_isOrdered a.ordered hcanonical.2) hintegral
      hcanonical.1).mp hordered.symm
  exact ⟨hiff, hread, ⟨hsame, hordered⟩, verifyJson_signJson hkey a, hverify,
    SignedRecord.verify_sign hkey, fun record other => SignedRecord.eq_of_verify hkey⟩

/-! ## A document with its fields in another order -/

def orderedDocument : Value := object [("a", string "x"), ("b", int 1)]

def unorderedDocument : Value := object [("b", int 1), ("a", string "x")]

def changedDocument : Value := object [("a", string "x"), ("b", int 2)]

def orderedSignature : String :=
  "bgzCuJIbRTkdJBvADsQHp8gui+yOmiBpg6FgAWN28YHvLAMEdRM3Gn8wc+8/guX0E9W+F85UMVWGdW6ReNNdBw=="

def changedSignature : String :=
  "Msr7fs4h2FqAlGqTcqbvCo1rc8FJFJ7RkDrpslraNmXCoqrfWPRK0+6i9PSKW5xI+S13lIymLVkEDmd1QRApAA=="

/-- A test key of the scheme, and its signatures of the documents. -/
def documentKey : SigningKey where
  publicKey := "11qYAYKxCrfVS/7TyWQHOg7hcvPapiMlrwIaaPcHURo="
  sign message :=
    if message = canonicalJsonBytes orderedDocument then orderedSignature else changedSignature

/-- The signatures of this key alone. -/
def documentEd25519 : Ed25519 where
  isKey key := some key = Base64.decode documentKey.publicKey
  verifies key message signature :=
    some key = Base64.decode documentKey.publicKey ∧
      some signature = Base64.decode (documentKey.sign message)

theorem documentKey_verifies : documentKey.Verifies documentEd25519 := by
  have hpublic : (Base64.decode documentKey.publicKey).map List.length = some 32 := by
    decide
  have hsigned : ∀ text ∈ [orderedSignature, changedSignature],
      (Base64.decode text).map List.length = some 64 := by decide
  obtain ⟨key, hkey, hlength⟩ := Option.map_eq_some_iff.mp hpublic
  refine ⟨key, hkey, hlength, ?_, fun message => ?_⟩
  · simp [documentEd25519, hkey]
  · have hmem : documentKey.sign message ∈ [orderedSignature, changedSignature] := by
      simp only [documentKey]
      split_ifs
      · exact List.mem_cons_self
      · exact List.mem_cons_of_mem _ List.mem_cons_self
    obtain ⟨signature, hsignature, hsize⟩ := Option.map_eq_some_iff.mp (hsigned _ hmem)
    exact ⟨signature, hsignature, hsize, by simp [documentEd25519, hkey, hsignature]⟩

/-- The signature of one document does not verify another one. -/
theorem documentKey_signsOnly (other : List UInt8) :
    documentKey.SignsOnly documentEd25519 (canonicalJsonBytes orderedDocument) other := by
  intro bytes signature _ hsigned hverifies
  by_contra hother
  have hdistinct : Base64.decode orderedSignature ≠ Base64.decode changedSignature := by
    decide
  have hsign : documentKey.sign (canonicalJsonBytes orderedDocument) = orderedSignature :=
    if_pos rfl
  have hchanged : documentKey.sign other = changedSignature := if_neg hother
  have hboth : some signature = Base64.decode (documentKey.sign other) :=
    (of_decide_eq_true hverifies).2
  rw [hsign] at hsigned
  rw [hchanged] at hboth
  exact hdistinct (hsigned.trans hboth)

theorem signed_documents_changed :
    verifyJson documentEd25519 unorderedDocument (signJson orderedDocument documentKey) = .ok () ∧
    verifyJson documentEd25519 changedDocument (signJson orderedDocument documentKey) ≠ .ok () := by
  have hunordered := signed_documents documentKey_verifies (fun _ => none)
    (a := orderedDocument) (b := unorderedDocument) (by decide) (by decide)
    (by decide) (by decide) (documentKey_signsOnly _)
  have hchanged := signed_documents documentKey_verifies (fun _ => none)
    (a := orderedDocument) (b := changedDocument) (by decide) (by decide)
    (by decide) (by decide) (documentKey_signsOnly _)
  constructor
  · refine hunordered.2.2.2.2.1.mpr ?_
    simp [Same, SameFields, orderedDocument, unorderedDocument]
  · intro h
    have hsame := hchanged.2.2.2.2.1.mp h
    simp [Same, SameFields, orderedDocument, changedDocument] at hsame

end Oath.Contracts
