import Oath.Cli.TransferCapsule

/-! A capsule that was created is accepted: what the creation writes, the verification reads
back, every record and every file name included. -/

namespace Oath.Cli
open Contracts Registry Unix

/-! ## Names -/

theorem slash_notMem_pieces {path : List UInt8} {piece : Name} (h : piece ∈ pieces path) :
    slash ∉ piece := by
  induction path generalizing piece with
  | nil =>
    rw [pieces, List.mem_singleton] at h
    rw [h]
    exact List.not_mem_nil
  | cons b bs ih =>
    rw [pieces] at h
    split_ifs at h with hb
    · rcases List.mem_cons.mp h with rfl | hrest
      · exact List.not_mem_nil
      · exact ih hrest
    · cases hbs : pieces bs with
      | nil =>
        rw [hbs, List.mem_singleton] at h
        rw [h, List.mem_singleton]
        exact Ne.symm hb
      | cons first rest =>
        rw [hbs] at h ih
        rcases List.mem_cons.mp h with rfl | hrest
        · rw [List.mem_cons, not_or]
          exact ⟨Ne.symm hb, ih List.mem_cons_self⟩
        · exact ih (List.mem_cons_of_mem _ hrest)

/-- A name that a path has is one by itself. -/
theorem component?_of_mem {path : List UInt8} {name : Name}
    (h : Component.normal name ∈ components path) :
    slash ∉ name ∧ component? name = some (.normal name) := by
  have hbody : Component.normal name ∈ (pieces path).filterMap component? := by
    unfold components at h
    dsimp only at h
    split_ifs at h
    · exact (List.mem_cons.mp h).resolve_left (by simp)
    · exact (List.mem_cons.mp h).resolve_left (by simp)
    · exact h
  obtain ⟨piece, hpiece, hname⟩ := List.mem_filterMap.mp hbody
  have hsame : piece = name := by
    unfold component? at hname
    split_ifs at hname with _ hparent
    · cases hname
    · exact Component.normal.inj (Option.some.inj hname)
  subst hsame
  exact ⟨slash_notMem_pieces hpiece, hname⟩

/-- A file below a directory of the capsule. -/
theorem join_pair (loc : Location) {directory name : Name} (hdirectory : slash ∉ directory)
    (hname : slash ∉ name) (hnormal : component? directory = some (.normal directory))
    (hnormal' : component? name = some (.normal name)) :
    join loc (directory ++ slash :: name) = loc ++ [directory, name] := by
  have hpieces : pieces (directory ++ slash :: name) = [directory, name] := by
    rw [pieces_append_slash, pieces_name hdirectory, pieces_name hname]
    rfl
  have hhead : ∀ byte, directory.head? = some byte → byte ≠ slash := by
    intro byte hbyte heq
    rw [heq] at hbyte
    exact hdirectory (List.mem_of_mem_head? hbyte)
  have hne : directory ≠ [] := by
    intro hnil
    rw [hnil] at hnormal
    cases hnormal
  have hdot : directory ≠ [dot] := by
    intro hnil
    rw [hnil] at hnormal
    cases hnormal
  have hrelative : isAbsolute (directory ++ slash :: name) = false := by
    obtain ⟨byte, rest, rfl⟩ := List.exists_cons_of_ne_nil hne
    have hbyte := hhead byte rfl
    simp [isAbsolute, hbyte]
  have hcomponents : components (directory ++ slash :: name) =
      [.normal directory, .normal name] := by
    unfold components
    rw [hpieces, hrelative]
    simp [hnormal, hnormal', hdot]
  rw [join, hcomponents]
  exact resolve_normal loc [directory, name]

theorem fileName?_eq_some {path : List UInt8} {text : String} (h : fileName? path = some text) :
    slash ∉ asBytes text ∧ component? (asBytes text) = some (.normal (asBytes text)) := by
  unfold fileName? at h
  cases hlast : (components path).getLast? with
  | none =>
    rw [hlast] at h
    cases h
  | some component =>
    rw [hlast] at h
    cases component with
    | rootDir | curDir | parentDir => cases h
    | normal name =>
      have htext : asBytes text = name := by
        dsimp only [String.fromUTF8?] at h
        split_ifs at h
        rw [← Option.some.inj h]
        exact List.toList_toArray
      rw [htext]
      exact component?_of_mem (List.mem_of_getLast? hlast)

theorem evidence_path {filename : String} (h : filename ∈ evidenceFiles) (loc : Location) :
    join loc (asBytes ("evidence/" ++ filename)) =
      loc ++ [asBytes "evidence", asBytes filename] := by
  have hpath : asBytes "evidence/" = asBytes "evidence" ++ [slash] := by decide
  have hall : ∀ filename ∈ evidenceFiles, slash ∉ asBytes filename ∧
      component? (asBytes filename) = some (.normal (asBytes filename)) := by decide
  obtain ⟨hslash, hnormal⟩ := hall filename h
  rw [asBytes_append, hpath, List.append_assoc, List.singleton_append]
  exact join_pair loc (by decide) hslash (by decide) hnormal

theorem package_path {path : List UInt8} {name : String} (h : fileName? path = some name)
    (loc : Location) :
    join loc (asBytes ("package/" ++ name)) = loc ++ [asBytes "package", asBytes name] := by
  have hpath : asBytes "package/" = asBytes "package" ++ [slash] := by decide
  obtain ⟨hslash, hnormal⟩ := fileName?_eq_some h
  rw [asBytes_append, hpath, List.append_assoc, List.singleton_append]
  exact join_pair loc (by decide) hslash (by decide) hnormal

/-! ## The evidence -/

section Evidence
variable {env : TransferEnvironment}

theorem Disk.file?_remove {disk : Disk} {loc other : Location} (h : loc ≠ other) :
    (disk.remove loc).file? other = disk.file? other := by
  have hkeep : (disk.files.delete fun row => row.1 = loc).find? other =
      disk.files.find? other := by
    rw [Table.find?_delete]
    cases hrow : disk.files.find? other with
    | none => rfl
    | some row =>
      have hkey : row.1 = other := Table.key_of_find? hrow
      rw [Option.filter_some_pos]
      simp [hkey, Ne.symm h]
  rw [file?, remove, hkeep]
  rfl

theorem Disk.file?_remove_self (disk : Disk) (loc : Location) :
    (disk.remove loc).file? loc = none := by
  have hgone : (disk.files.delete fun row => row.1 = loc).find? loc = none := by
    rw [Table.find?_delete]
    cases hrow : disk.files.find? loc with
    | none => rfl
    | some row =>
      have hkey : row.1 = loc := Table.key_of_find? hrow
      rw [Option.filter_some_neg]
      simp [hkey]
  rw [file?, remove, hgone]
  rfl

theorem atomicJson_file? (disk : Disk) (directory : Location) (stem name : String)
    (value : Value) :
    (atomicJson env disk directory stem value).file? (directory ++ [asBytes name]) =
      if stem ++ ".json" = name then some (env.pretty value)
      else if stem ++ ".tmp" = name then none
      else disk.file? (directory ++ [asBytes name]) := by
  have hsame : ∀ other : String,
      directory ++ [asBytes other] = directory ++ [asBytes name] ↔ other = name := by
    intro other
    constructor
    · intro heq
      exact asBytes_injective (List.singleton_inj.mp (List.append_cancel_left heq))
    · exact fun heq => heq ▸ rfl
  rw [atomicJson, Disk.file?_write, ite_congr (propext (hsame _)) (fun _ => rfl) (fun _ => rfl)]
  split_ifs with hjson htemp
  · rfl
  · subst htemp
    rw [Disk.file?_remove_self]
  · have hne := mt (hsame _).mp htemp
    rw [Disk.file?_remove hne, Disk.file?_write, if_neg hne]

/-- What the evidence of an assessment holds. -/
structure Persisted (env : TransferEnvironment) (assessment : PublishAssessmentV2)
    (persisted : PersistedEvidence) (disk : Disk) : Prop where
  document : disk.file? (persisted.directory ++ [asBytes "assessment.json"]) =
    some (env.pretty assessment.toValue)
  signature : disk.file? (persisted.directory ++ [asBytes "signature.json"]) =
    some (env.pretty (signatureValue (signJson assessment.toValue env.signingKey)))
  present : ∀ filename ∈ evidenceFiles,
    ∃ bytes, disk.file? (persisted.directory ++ [asBytes filename]) = some bytes
  publicKey : persisted.signingPublicKey = env.signingKey.publicKey

theorem persistSigned_ok {root : Location} {assessment : PublishAssessmentV2} {package : Value}
    {persisted : PersistedEvidence} {disk disk' : Disk}
    (h : persistSigned env root assessment package disk = .ok (persisted, disk')) :
    Persisted env assessment persisted disk' := by
  obtain ⟨projectRoot, -, h1⟩ := Except.bind_eq_ok.mp h
  obtain ⟨rfl, rfl⟩ := Prod.mk.inj (Except.ok.inj h1)
  constructor
  · simp [atomicJson_file?]
  · simp [atomicJson_file?]
  · intro filename hfilename
    simp only [evidenceFiles, List.mem_cons, List.not_mem_nil, or_false] at hfilename
    rcases hfilename with rfl | rfl | rfl | rfl
    · exact ⟨env.pretty assessment.toValue, by simp [atomicJson_file?]⟩
    · exact ⟨_, by simp [atomicJson_file?]; rfl⟩
    · exact ⟨_, by simp [atomicJson_file?]; rfl⟩
    · exact ⟨_, by simp [atomicJson_file?]; rfl⟩
  · rfl

/-- The evidence directory is as it was left. -/
def EvidenceKept (persisted : PersistedEvidence) (before after : Disk) : Prop :=
  ∀ filename ∈ evidenceFiles, after.file? (persisted.directory ++ [asBytes filename]) =
    before.file? (persisted.directory ++ [asBytes filename])

theorem Persisted.kept {assessment : PublishAssessmentV2} {persisted : PersistedEvidence}
    {before after : Disk} (h : Persisted env assessment persisted before)
    (hkept : EvidenceKept persisted before after) : Persisted env assessment persisted after where
  document := (hkept "assessment.json" (by decide)).trans h.document
  signature := (hkept "signature.json" (by decide)).trans h.signature
  present filename hfilename := by
    obtain ⟨bytes, hbytes⟩ := h.present filename hfilename
    exact ⟨bytes, (hkept filename hfilename).trans hbytes⟩
  publicKey := h.publicKey

end Evidence

/-! ## What a capsule holds -/

section Capsules
variable {env : TransferEnvironment}

def assetOf (env : TransferEnvironment) (filename : String) (bytes : List UInt8) :
    TransferAsset := ⟨"evidence/" ++ filename, UInt64.ofNat bytes.length, sha256File env bytes⟩

/-- The files of the evidence are copied, and nothing else changes. -/
structure EvidenceCopied (env : TransferEnvironment) (evidenceRoot capsule : Location)
    (files : List String) (disk disk' : Disk) (assets : List TransferAsset)
    (contents : String → List UInt8) : Prop where
  source : ∀ filename ∈ files,
    disk.file? (evidenceRoot ++ [asBytes filename]) = some (contents filename)
  assets : assets = files.map fun filename => assetOf env filename (contents filename)
  copied : ∀ filename ∈ files, disk'.file? (capsule ++ [asBytes "evidence", asBytes filename]) =
    some (contents filename)
  other : ∀ loc, (∀ filename ∈ files, capsule ++ [asBytes "evidence", asBytes filename] ≠ loc) →
    disk'.file? loc = disk.file? loc

theorem copyEvidence_ok {evidenceRoot capsule : Location} {files : List String}
    {disk disk' : Disk} {assets : List TransferAsset} (hfiles : files ⊆ evidenceFiles)
    (houtside : ∀ filename ∈ files, ¬capsule <+: evidenceRoot ++ [asBytes filename])
    (h : copyEvidence env evidenceRoot capsule disk files = .ok (assets, disk')) :
    ∃ contents, EvidenceCopied env evidenceRoot capsule files disk disk' assets contents := by
  induction files generalizing disk assets with
  | nil =>
    obtain ⟨rfl, rfl⟩ := Prod.mk.inj (Except.ok.inj h)
    exact ⟨fun _ => [], by simp, rfl, by simp, fun _ _ => rfl⟩
  | cons filename rest ih =>
    obtain ⟨⟨asset, disk₁⟩, hcopy, h1⟩ := Except.bind_eq_ok.mp h
    obtain ⟨⟨more, disk₂⟩, hrest, h2⟩ := Except.bind_eq_ok.mp h1
    obtain ⟨rfl, rfl⟩ := Prod.mk.inj (Except.ok.inj h2)
    obtain ⟨bytes, hread, h3⟩ := Except.bind_eq_ok.mp hcopy
    obtain ⟨rfl, rfl⟩ := Prod.mk.inj (Except.ok.inj h3)
    rw [Disk.read_ok] at hread
    have hmem := hfiles List.mem_cons_self
    rw [evidence_path hmem] at hrest
    have hsub : rest ⊆ evidenceFiles := fun other hother =>
      hfiles (List.mem_cons_of_mem _ hother)
    have hout : ∀ other ∈ rest, ¬capsule <+: evidenceRoot ++ [asBytes other] :=
      fun other hother => houtside other (List.mem_cons_of_mem _ hother)
    obtain ⟨contents, hcopied⟩ := ih hsub hout hrest
    -- the sources do not stand in the capsule
    have hsource : ∀ other ∈ rest,
        disk.file? (evidenceRoot ++ [asBytes other]) = some (contents other) := by
      intro other hother
      have hkept := hcopied.source other hother
      rwa [Disk.file?_write, if_neg] at hkept
      intro heq
      exact hout other hother (heq ▸ List.prefix_append _ _)
    by_cases hagain : filename ∈ rest
    · have hbytes : contents filename = bytes :=
        Option.some.inj ((hsource filename hagain).symm.trans hread)
      refine ⟨contents, ?_, ?_, ?_, ?_⟩
      · rintro other hother
        rcases List.mem_cons.mp hother with rfl | hother
        · rw [hread, hbytes]
        · exact hsource other hother
      · rw [hcopied.assets, List.map_cons, hbytes]
        rfl
      · intro other hother
        rcases List.mem_cons.mp hother with rfl | hother
        · exact hcopied.copied other hagain
        · exact hcopied.copied other hother
      · intro loc hloc
        rw [hcopied.other loc fun other hother => hloc other (List.mem_cons_of_mem _ hother),
          Disk.file?_write, if_neg (hloc filename List.mem_cons_self)]
    · let all : String → List UInt8 := fun other =>
        if other = filename then bytes else contents other
      have hall : ∀ other ∈ rest, all other = contents other := by
        intro other hother
        have hne : other ≠ filename := fun heq => hagain (heq ▸ hother)
        exact if_neg hne
      have hself : all filename = bytes := if_pos rfl
      refine ⟨all, ?_, ?_, ?_, ?_⟩
      · intro other hother
        rcases List.mem_cons.mp hother with rfl | hother
        · rw [hread, hself]
        · rw [hsource other hother, hall other hother]
      · rw [hcopied.assets, List.map_cons, hself]
        congr 1
        apply List.map_congr_left
        intro other hother
        rw [hall other hother]
      · intro other hother
        rcases List.mem_cons.mp hother with rfl | hother
        · rw [hcopied.other, Disk.file?_write, if_pos rfl, hself]
          intro later hlater heq
          have hnames := (List.cons.inj (List.cons.inj (List.append_cancel_left heq)).2).1
          exact hagain (asBytes_injective hnames ▸ hlater)
        · rw [hcopied.copied other hother, hall other hother]
      · intro loc hloc
        rw [hcopied.other loc fun other hother => hloc other (List.mem_cons_of_mem _ hother),
          Disk.file?_write, if_neg (hloc filename List.mem_cons_self)]

/-- What a capsule is made of. -/
structure CapsuleParts where
  persisted : PersistedEvidence
  /-- The name that `npm pack` reports, and the last name in it. -/
  packed : List UInt8
  tarballName : String
  tarball : List UInt8
  contents : String → List UInt8

def CapsuleParts.manifest (parts : CapsuleParts) (env : TransferEnvironment)
    (assessment : PublishAssessmentV2) : TransferManifest :=
  transferManifest env assessment parts.persisted ("package/" ++ parts.tarballName) parts.tarball
    (evidenceFiles.map fun filename => assetOf env filename (parts.contents filename))

/-- The files of a capsule. -/
structure CapsuleHolds (env : TransferEnvironment) (assessment : PublishAssessmentV2)
    (parts : CapsuleParts) (disk : Disk) (capsule : Location) : Prop where
  manifestFile : disk.file? (capsule ++ [asBytes "transfer.json"]) =
    some (env.pretty (parts.manifest env assessment).toValue)
  signatureFile : disk.file? (capsule ++ [asBytes "transfer.signature.json"]) =
    some (env.pretty
      (signJson (parts.manifest env assessment).toValue env.signingKey).toValue)
  publicKey : parts.persisted.signingPublicKey = env.signingKey.publicKey
  named : fileName? parts.packed = some parts.tarballName
  tarball : disk.file? (capsule ++ [asBytes "package", asBytes parts.tarballName]) =
    some parts.tarball
  checked : verifyTarballMatchesAssessment env parts.tarball assessment = .ok ()
  evidence : ∀ filename ∈ evidenceFiles,
    disk.file? (capsule ++ [asBytes "evidence", asBytes filename]) =
      some (parts.contents filename)
  document : parts.contents "assessment.json" = env.pretty assessment.toValue
  signature : parts.contents "signature.json" =
    env.pretty (signatureValue (signJson assessment.toValue env.signingKey))

/-- The manifest and its signature stand apart from the other files. -/
theorem transferFiles_other (disk : Disk) (output : Location) (manifest : TransferManifest)
    (more : List Name) {name : Name} (hmanifest : name ≠ asBytes "transfer.json")
    (hsignature : name ≠ asBytes "transfer.signature.json") :
    (writeJson env (writeJson env disk (output ++ [asBytes "transfer.json"]) manifest.toValue)
      (output ++ [asBytes "transfer.signature.json"])
      (signJson manifest.toValue env.signingKey).toValue).file? (output ++ name :: more) =
      disk.file? (output ++ name :: more) := by
  rw [writeJson, writeJson, Disk.file?_write, if_neg, Disk.file?_write, if_neg]
  · intro heq
    exact hmanifest (List.cons.inj (List.append_cancel_left heq)).1.symm
  · intro heq
    exact hsignature (List.cons.inj (List.append_cancel_left heq)).1.symm

theorem createCapsule_holds {root output : Location} {assessment : PublishAssessmentV2}
    {persisted : PersistedEvidence} {disk disk' : Disk} {manifest : TransferManifest}
    (hpersisted : Persisted env assessment persisted disk)
    (h : createCapsule env root output assessment persisted disk = .ok (manifest, disk')) :
    ∃ parts : CapsuleParts, manifest = parts.manifest env assessment ∧
      CapsuleHolds env assessment parts disk' output := by
  unfold createCapsule at h
  split_ifs at h with hroot hexists
  rw [Bool.not_eq_true] at hexists
  obtain ⟨staged, -, h1⟩ := Except.bind_eq_ok.mp h
  obtain ⟨⟨packed, tarball⟩, -, h2⟩ := Except.bind_eq_ok.mp h1
  obtain ⟨_, htarball, h3⟩ := Except.bind_eq_ok.mp h2
  cases hname : fileName? packed with
  | none =>
    rw [hname] at h3
    cases h3
  | some tarballName =>
    rw [hname] at h3
    obtain ⟨⟨evidence, disk₁⟩, hcopy, h4⟩ := Except.bind_eq_ok.mp h3
    obtain ⟨rfl, rfl⟩ := Prod.mk.inj (Except.ok.inj h4)
    rw [package_path hname] at hcopy
    -- what is copied stood outside the new directory
    have houtside : ∀ filename ∈ evidenceFiles,
        ¬output <+: persisted.directory ++ [asBytes filename] := by
      intro filename hfilename
      obtain ⟨bytes, hbytes⟩ := hpersisted.present filename hfilename
      exact Disk.not_prefix_of_not_exists hexists hbytes
    obtain ⟨contents, hcopied⟩ := copyEvidence_ok (fun _ hmem => hmem) houtside hcopy
    have hsource : ∀ filename ∈ evidenceFiles,
        disk.file? (persisted.directory ++ [asBytes filename]) = some (contents filename) := by
      intro filename hfilename
      have hkept := hcopied.source filename hfilename
      rwa [Disk.file?_write, if_neg, Disk.file?_createDirAll] at hkept
      intro heq
      exact houtside filename hfilename (heq ▸ List.prefix_append _ _)
    have hnames : ∀ a b : List Name, a ≠ b → output ++ a ≠ output ++ b :=
      fun a b hne heq => hne (List.append_cancel_left heq)
    refine ⟨⟨persisted, packed, tarballName, tarball, contents⟩, ?_, ?_⟩
    · rw [hcopied.assets]
      rfl
    · have hevidence : ∀ filename ∈ evidenceFiles, ∀ last : Name,
          output ++ [asBytes "evidence", asBytes filename] ≠
            output ++ [asBytes "package", last] := by
        intro filename _ last
        apply hnames
        intro heq
        have hfirst := (List.cons.inj heq).1
        exact absurd hfirst (by decide)
      have htransfer := fun (name : Name) (more : List Name)
          (hne : name ≠ asBytes "transfer.json" ∧ name ≠ asBytes "transfer.signature.json") =>
        @transferFiles_other env disk₁ output
          (transferManifest env assessment persisted ("package/" ++ tarballName) tarball evidence)
          more name hne.1 hne.2
      have hevidenceName : asBytes "evidence" ≠ asBytes "transfer.json" ∧
          asBytes "evidence" ≠ asBytes "transfer.signature.json" := by decide
      have hpackageName : asBytes "package" ≠ asBytes "transfer.json" ∧
          asBytes "package" ≠ asBytes "transfer.signature.json" := by decide
      have htarballKept := hcopied.other (output ++ [asBytes "package", asBytes tarballName])
        fun filename hfilename => hevidence filename hfilename _
      rw [Disk.file?_write, if_pos rfl] at htarballKept
      rw [hcopied.assets] at htransfer ⊢
      constructor
      · rw [writeJson, Disk.file?_write, if_neg, writeJson, Disk.file?_write, if_pos rfl]
        · rfl
        · apply hnames
          decide
      · rw [writeJson, Disk.file?_write, if_pos rfl]
        rfl
      · exact hpersisted.publicKey
      · exact hname
      · rw [htransfer _ _ hpackageName, htarballKept]
      · exact htarball
      · intro filename hfilename
        rw [htransfer _ _ hevidenceName]
        exact hcopied.copied filename hfilename
      · have hdocument := hsource "assessment.json" (by decide)
        exact Option.some.inj (hdocument.symm.trans hpersisted.document)
      · have hsignature := hsource "signature.json" (by decide)
        exact Option.some.inj (hsignature.symm.trans hpersisted.signature)

/-- A capsule that is carried elsewhere holds the same. -/
theorem CapsuleHolds.carried {assessment : PublishAssessmentV2} {parts : CapsuleParts}
    {disk disk' : Disk} {capsule capsule' : Location}
    (h : CapsuleHolds env assessment parts disk capsule)
    (hsame : ∀ names, disk'.file? (capsule' ++ names) = disk.file? (capsule ++ names)) :
    CapsuleHolds env assessment parts disk' capsule' :=
  { h with
    manifestFile := (hsame _).trans h.manifestFile
    signatureFile := (hsame _).trans h.signatureFile
    tarball := (hsame _).trans h.tarball
    evidence := fun filename hfilename => (hsame _).trans (h.evidence filename hfilename) }

/-! ## The verification -/

/-- The documents of a capsule are read back from their texts. -/
structure ReadsBack (env : TransferEnvironment) (assessment : PublishAssessmentV2)
    (manifest : TransferManifest) : Prop where
  document : env.parse (env.pretty assessment.toValue) = .ok assessment.toValue
  signature : env.parse (env.pretty
      (signatureValue (signJson assessment.toValue env.signingKey))) =
    .ok (signatureValue (signJson assessment.toValue env.signingKey))
  transfer : env.parse (env.pretty manifest.toValue) = .ok manifest.toValue
  transferSignature : env.parse (env.pretty
      (signJson manifest.toValue env.signingKey).toValue) =
    .ok (signJson manifest.toValue env.signingKey).toValue

theorem bind_of_ok {α β : Type} {x : Except String α} {f : α → Except String β} {a : α}
    (h : x = .ok a) : (x >>= f) = f a := by
  rw [h]
  rfl

theorem ensure_bind {β : Type} {condition : Bool} {message : String} {f : Unit → Except String β}
    (h : condition) : (ensure condition message >>= f) = f () := bind_of_ok (if_pos h)

theorem readRecord_ok {α : Type} {disk : Disk} {loc : Location} {ofValue? : Value → Option α}
    {record : α} {value : Value} (hfile : disk.file? loc = some (env.pretty value))
    (hparse : env.parse (env.pretty value) = .ok value) (hrecord : ofValue? value = some record) :
    readRecord env disk loc ofValue? = .ok record := by
  unfold readRecord
  rw [bind_of_ok (Disk.read_ok.mpr hfile), bind_of_ok hparse, hrecord]

theorem verifyJsonSignature_signJson (hkey : env.signingKey.Verifies env.ed) (value : Value)
    (message : String) :
    verifyJsonSignature env value (signJson value env.signingKey) message = .ok () := by
  rw [verifyJsonSignature, verifyJson_signJson hkey]

theorem detachedOf_signatureValue (detached : DetachedSignature) :
    detachedOf (signatureValue detached) = detached := by
  simp [detachedOf, signatureValue, Value.index, Value.get?_json]

theorem verifyAssets_ok {disk : Disk} {capsule : Location} {contents : String → List UInt8}
    {files : List String} (hfiles : files ⊆ evidenceFiles)
    (hcopied : ∀ filename ∈ files,
      disk.file? (capsule ++ [asBytes "evidence", asBytes filename]) = some (contents filename)) :
    (files.map fun filename => assetOf env filename (contents filename)).forM
      (verifyAsset env disk capsule) = .ok () := by
  induction files with
  | nil => rfl
  | cons filename rest ih =>
    have hread : disk.read (join capsule (asBytes ("evidence/" ++ filename))) =
        .ok (contents filename) := by
      rw [evidence_path (hfiles List.mem_cons_self), Disk.read_ok]
      exact hcopied filename List.mem_cons_self
    have hasset : verifyAsset env disk capsule (assetOf env filename (contents filename)) =
        .ok () := by
      unfold verifyAsset assetOf
      rw [bind_of_ok hread, ensure_bind (by simp)]
      exact if_pos (by simp)
    rw [List.map_cons]
    refine (bind_of_ok hasset).trans ?_
    exact ih (fun other hother => hfiles (List.mem_cons_of_mem _ hother))
      fun other hother => hcopied other (List.mem_cons_of_mem _ hother)

theorem verifyCapsule_holds {assessment : PublishAssessmentV2} {parts : CapsuleParts}
    {disk : Disk} {capsule : Location} (hkey : env.signingKey.Verifies env.ed)
    (h : CapsuleHolds env assessment parts disk capsule)
    (hreads : ReadsBack env assessment (parts.manifest env assessment))
    (trustedPublicKey : Option String) :
    verifyCapsule env disk capsule trustedPublicKey =
      anchor (parts.manifest env assessment) trustedPublicKey := by
  have hmanifest : readRecord env disk (capsule ++ [asBytes "transfer.json"])
      TransferManifest.ofValue? = .ok (parts.manifest env assessment) :=
    readRecord_ok h.manifestFile hreads.transfer (TransferManifest.ofValue?_toValue _)
  have hsignature : readRecord env disk (capsule ++ [asBytes "transfer.signature.json"])
      DetachedSignature.ofValue? =
        .ok (signJson (parts.manifest env assessment).toValue env.signingKey) :=
    readRecord_ok h.signatureFile hreads.transferSignature (DetachedSignature.ofValue?_toValue _)
  have htarball : verifyTarballFile env disk capsule (parts.manifest env assessment).tarball =
      .ok parts.tarball := by
    have hread : disk.read (join capsule (asBytes ("package/" ++ parts.tarballName))) =
        .ok parts.tarball := by
      rw [package_path h.named, Disk.read_ok]
      exact h.tarball
    unfold verifyTarballFile
    refine (bind_of_ok hread).trans ?_
    rw [ensure_bind, ensure_bind, ensure_bind]
    · simp [CapsuleParts.manifest, transferManifest]
    · simp [CapsuleParts.manifest, transferManifest]
    · simp [CapsuleParts.manifest, transferManifest]
  have hassets : (parts.manifest env assessment).evidence.forM (verifyAsset env disk capsule) =
      .ok () := verifyAssets_ok (fun _ hmem => hmem) h.evidence
  have hdocument : readRecord env disk (join capsule (asBytes "evidence/assessment.json"))
      PublishAssessmentV2.ofValue? = .ok assessment := by
    have hfile := h.evidence "assessment.json" (by decide)
    rw [h.document, ← evidence_path (by decide)] at hfile
    exact readRecord_ok hfile hreads.document (PublishAssessmentV2.ofValue?_toValue _)
  have hdetached : (readRecord env disk (join capsule (asBytes "evidence/signature.json"))
      fun value => some (detachedOf value)) = .ok (signJson assessment.toValue env.signingKey) := by
    have hfile := h.evidence "signature.json" (by decide)
    rw [h.signature, ← evidence_path (by decide)] at hfile
    apply readRecord_ok hfile hreads.signature
    rw [detachedOf_signatureValue]
  unfold verifyCapsule
  rw [bind_of_ok hmanifest, ensure_bind (by rfl), bind_of_ok hsignature,
    bind_of_ok (verifyJsonSignature_signJson hkey _ _), ensure_bind, bind_of_ok htarball,
    bind_of_ok hassets, bind_of_ok hdocument, bind_of_ok h.checked, bind_of_ok hdetached,
    bind_of_ok (verifyJsonSignature_signJson hkey _ _), ensure_bind, ensure_bind]
  · simp [CapsuleParts.manifest, transferManifest]
  · simp [CapsuleParts.manifest, transferManifest, signJson, h.publicKey]
  · simp [CapsuleParts.manifest, transferManifest, signJson, h.publicKey]

/-- A capsule made from the evidence that was persisted, with the same key, is accepted
wherever it is carried, and with that key given as trusted it is reported as trusted. -/
theorem capsule_verifies {root output : Location} {assessment : PublishAssessmentV2}
    {package : Value} {persisted : PersistedEvidence} {manifest : TransferManifest}
    {disk disk₁ disk₂ disk₃ disk₄ : Disk} {capsule : Location}
    (hkey : env.signingKey.Verifies env.ed)
    (hpersist : persistSigned env root assessment package disk = .ok (persisted, disk₁))
    (hkept : EvidenceKept persisted disk₁ disk₂)
    (hcreate : createCapsule env root output assessment persisted disk₂ = .ok (manifest, disk₃))
    (hreads : ReadsBack env assessment manifest)
    (hcarried : ∀ names, disk₄.file? (capsule ++ names) = disk₃.file? (output ++ names)) :
    verifyCapsule env disk₄ capsule none = .ok (transferVerification manifest false) ∧
      verifyCapsule env disk₄ capsule (some env.signingKey.publicKey) =
        .ok (transferVerification manifest true) := by
  have hpersisted := (persistSigned_ok hpersist).kept hkept
  obtain ⟨parts, rfl, hholds⟩ := createCapsule_holds hpersisted hcreate
  have hcapsule := hholds.carried hcarried
  have hverify := verifyCapsule_holds hkey hcapsule hreads
  constructor
  · rw [hverify]
    rfl
  · rw [hverify]
    have hsame : env.signingKey.publicKey = (parts.manifest env assessment).signingPublicKey :=
      hholds.publicKey.symm
    exact if_pos hsame

end Capsules

/-! ## A small package -/

def indexSource : List UInt8 := asBytes "module.exports = 1\n"

/-- A gzip tarball with `package/index.js`. -/
def demoTarball : List UInt8 :=
  [31, 139, 8, 0, 0, 0, 0, 0, 2, 3, 43, 72, 76, 206, 78, 76, 79, 213, 207, 204, 75, 73, 173, 208,
   203, 42, 102, 160, 1, 48, 0, 2, 51, 19, 19, 48, 13, 4, 232, 180, 129, 129, 145, 49, 130, 13,
   18, 55, 52, 4, 81, 10, 6, 12, 116, 0, 165, 197, 37, 137, 69, 64, 235, 25, 70, 38, 200, 205, 79,
   41, 205, 73, 213, 75, 173, 40, 200, 47, 42, 41, 86, 176, 85, 48, 228, 98, 24, 5, 163, 96, 20,
   140, 130, 81, 48, 252, 1, 0, 64, 228, 1, 34, 0, 8, 0, 0]

def demoTarballSha512 : List UInt8 :=
  [63, 38, 140, 65, 235, 218, 225, 24, 23, 113, 5, 238, 106, 57, 86, 81, 102, 94, 49, 106, 175,
   154, 63, 57, 236, 237, 150, 5, 53, 39, 116, 118, 223, 90, 165, 225, 177, 87, 246, 243, 72, 215,
   155, 159, 52, 55, 244, 166, 229, 237, 218, 237, 231, 250, 207, 220, 84, 155, 155, 37, 117, 245,
   238, 7]

def demoAssessment : PublishAssessmentV2 where
  schemaVersion := 2
  generatedAt := 1700000000
  expiresAt := 1700086400
  name := "demo"
  version := "1.0.0"
  tag := "latest"
  access := none
  packageDigest := "sha256:ab12ab12ab12ab12ab12ab12ab12ab12ab12ab12ab12ab12ab12ab12ab12ab12"
  unpackedBytes := 19
  files := [⟨"index.js", 19, "6db33a852dd933203e30de8cde8712589d54e2b0bd871219fd79d7de44562b11"⟩]
  dependencyCount := 0
  lifecycleHooks := []
  capabilities := []
  sourceAvailable := true
  secretFindings := []
  decision := .allow
  reasonCode := .publishAllowed
  previousRelease := none
  policyDigest := ""
  evidenceDigest := ""
  ruleBundleVersion := "1"
  limitations := []
  signature := none

def assessmentSignature : String :=
  "J6Jw97HxoytZiTZdrhHIhChMKve4NVTJXakvqykCa27d0rnmpmE5rE//MNjrmX4/e7uKoR70JivKwEOdJm3lAA=="

def manifestSignature : String :=
  "KwaL9Ps9KUbotT7GxNy/xNGG96CQqcDRSOaXLGHxfwLYqIeJYKREnrsCIOR/AWmBIGUN1xXsO0ftNxezC9E3BQ=="

/-- A test key of the scheme, and its signatures of the assessment and of the manifest below. -/
def demoKey : SigningKey where
  publicKey := "11qYAYKxCrfVS/7TyWQHOg7hcvPapiMlrwIaaPcHURo="
  sign message :=
    if message = canonicalJsonBytes demoAssessment.toValue then assessmentSignature
    else manifestSignature

/-- The signatures of this key alone. -/
def demoEd25519 : Ed25519 where
  isKey key := some key = Base64.decode demoKey.publicKey
  verifies key message signature :=
    some key = Base64.decode demoKey.publicKey ∧
      some signature = Base64.decode (demoKey.sign message)

theorem demoKey_sign (message : List UInt8) :
    demoKey.sign message ∈ [assessmentSignature, manifestSignature] := by
  simp only [demoKey]
  split_ifs
  · exact List.mem_cons_self
  · exact List.mem_cons_of_mem _ List.mem_cons_self

theorem demoKey_verifies : demoKey.Verifies demoEd25519 := by
  have hpublic : (Base64.decode demoKey.publicKey).map List.length = some 32 := by decide
  have hsigned : ∀ text ∈ [assessmentSignature, manifestSignature],
      (Base64.decode text).map List.length = some 64 := by decide
  obtain ⟨key, hkey, hlength⟩ := Option.map_eq_some_iff.mp hpublic
  refine ⟨key, hkey, hlength, ?_, fun message => ?_⟩
  · simp [demoEd25519, hkey]
  · have hdecode := hsigned _ (demoKey_sign message)
    obtain ⟨signature, hsignature, hsize⟩ := Option.map_eq_some_iff.mp hdecode
    exact ⟨signature, hsignature, hsize, by simp [demoEd25519, hkey, hsignature]⟩

/-! JSON with two blanks for every level. -/

def prettyLine (indent : ℕ) (text : List Char) : List Char :=
  '\n' :: List.replicate (2 * indent) ' ' ++ text

mutual

def prettyText (indent : ℕ) : Value → List Char
  | .null => "null".toList
  | .bool value => (if value then "true" else "false").toList
  | .int value => (toString value).toList
  | .float text => text.toList
  | .string value => (Value.quote value).toList
  | .array [] => ['[', ']']
  | .array values =>
    '[' :: [','].intercalate (prettyItems (indent + 1) values) ++ prettyLine indent [']']
  | .object [] => ['\x7b', '\x7d']
  | .object fields =>
    '\x7b' :: [','].intercalate (prettyFields (indent + 1) fields) ++ prettyLine indent ['\x7d']

def prettyItems (indent : ℕ) : List Value → List (List Char)
  | [] => []
  | value :: rest => prettyLine indent (prettyText indent value) :: prettyItems indent rest

def prettyFields (indent : ℕ) : List (String × Value) → List (List Char)
  | [] => []
  | (key, value) :: rest =>
    prettyLine indent ((Value.quote key).toList ++ ':' :: ' ' :: prettyText indent value) ::
      prettyFields indent rest

end

def prettyBytes (value : Value) : List UInt8 :=
  (prettyText 0 value).flatMap String.utf8EncodeChar

def demoTarEntry : TarEntry where
  entryType := .regular
  path := asBytes "package/index.js"
  size := 19
  ustar := true
  mode := some 0o644
  data := ⟨indexSource, none⟩

def packingEnvironment : TransferEnvironment where
  sha := .fips180
  sha512 _ := demoTarballSha512
  parse _ := .error "expected value at line 1 column 1"
  pretty := prettyBytes
  decodeTarball bytes :=
    if bytes = demoTarball then .ok [.ok demoTarEntry] else .error "invalid gzip header"
  npmPack _ := .ok (asBytes "demo-1.0.0.tgz", demoTarball)
  ed := demoEd25519
  signingKey := demoKey
  home := some [asBytes "home"]
  packageVersion := "0.1.0"

def demoDisk : Disk :=
  (⟨.empty, []⟩ : Disk).write [asBytes "work", asBytes "index.js"] indexSource

def demoRun (env : TransferEnvironment) : Except String (TransferManifest × Disk) := do
  let (persisted, disk) ← persistSigned env [asBytes "work"] demoAssessment (.object []) demoDisk
  createCapsule env [asBytes "work"] [asBytes "out"] demoAssessment persisted disk

section Parse
variable (env : TransferEnvironment) (parse : List UInt8 → Except String Value)

theorem copyEvidence_parse (evidenceRoot capsule : Location) (disk : Disk) (files : List String) :
    copyEvidence { env with parse } evidenceRoot capsule disk files =
      copyEvidence env evidenceRoot capsule disk files := by
  induction files generalizing disk with
  | nil => rfl
  | cons filename rest ih =>
    simp only [copyEvidence, ih]
    rfl

theorem checkTarEntries_parse (expected : OrderedMap String PublishFile) (seen : List String)
    (items : List (Except String TarEntry)) :
    checkTarEntries { env with parse } expected seen items =
      checkTarEntries env expected seen items := by
  induction items generalizing seen with
  | nil => rfl
  | cons item rest ih =>
    simp only [checkTarEntries, ih]
    rfl

theorem createCapsule_parse (root output : Location) (assessment : PublishAssessmentV2)
    (persisted : PersistedEvidence) (disk : Disk) :
    createCapsule { env with parse } root output assessment persisted disk =
      createCapsule env root output assessment persisted disk := by
  simp only [createCapsule, verifyTarballMatchesAssessment, copyEvidence_parse,
    checkTarEntries_parse]
  rfl

/-- No document is read while a capsule is made. -/
theorem demoRun_parse : demoRun { env with parse } = demoRun env := by
  simp only [demoRun, createCapsule_parse]
  rfl

end Parse

/-! The texts of the four documents of this capsule are read back; no others are. -/

def signatureDocument : Value := signatureValue (signJson demoAssessment.toValue demoKey)

def capsuleDocuments (manifest : TransferManifest) : List Value :=
  [demoAssessment.toValue, signatureDocument, manifest.toValue,
    (signJson manifest.toValue demoKey).toValue]

def parseOneOf (documents : List Value) (bytes : List UInt8) : Except String Value :=
  match documents.find? fun value => prettyBytes value = bytes with
  | some value => .ok value
  | none => .error "expected value at line 1 column 1"

def capsuleManifest : Option TransferManifest :=
  (demoRun packingEnvironment).toOption.map Prod.fst

def capsuleEnvironment : TransferEnvironment :=
  { packingEnvironment with
    parse := parseOneOf ((capsuleManifest.map capsuleDocuments).getD []) }

theorem parseOneOf_ok {documents : List Value} {value : Value}
    (hdistinct : documents.Pairwise fun a b => prettyBytes a ≠ prettyBytes b)
    (h : value ∈ documents) : parseOneOf documents (prettyBytes value) = .ok value := by
  have hfind : (documents.find? fun other => prettyBytes other = prettyBytes value) =
      some value := by
    induction documents with
    | nil => cases h
    | cons other rest ih =>
      obtain ⟨hother, hrest⟩ := List.pairwise_cons.mp hdistinct
      cases List.mem_cons.mp h with
      | inl heq =>
        subst heq
        exact List.find?_cons_of_pos (by simp)
      | inr hmem =>
        rw [List.find?_cons_of_neg (by simpa using hother value hmem)]
        exact ih hrest hmem
  rw [parseOneOf, hfind]

theorem signatures_distinct : ∀ first ∈ [assessmentSignature, manifestSignature],
    ∀ second ∈ [assessmentSignature, manifestSignature],
      prettyBytes (signatureValue { signJson .null demoKey with signature := first }) ≠
        prettyBytes { signJson .null demoKey with signature := second }.toValue := by
  decide +kernel

/-- Two documents of the capsule are told apart by their texts. -/
theorem capsuleDocuments_distinct {manifest : TransferManifest} (h : capsuleManifest = some manifest) :
    (capsuleDocuments manifest).Pairwise fun a b => prettyBytes a ≠ prettyBytes b := by
  have hassessment : (capsuleManifest.map fun manifest => (capsuleDocuments manifest).tail.all fun other =>
      prettyBytes demoAssessment.toValue ≠ prettyBytes other) = some true := by decide +kernel
  have hmanifest : (capsuleManifest.map fun manifest =>
      decide (prettyBytes signatureDocument ≠ prettyBytes manifest.toValue ∧
        prettyBytes manifest.toValue ≠
          prettyBytes (signJson manifest.toValue demoKey).toValue)) = some true := by
    decide +kernel
  rw [h] at hassessment hmanifest
  have hfirst := List.all_eq_true.mp (Option.some.inj hassessment)
  obtain ⟨hsecond, hthird⟩ := of_decide_eq_true (Option.some.inj hmanifest)
  have hfourth := signatures_distinct _ (demoKey_sign (canonicalJsonBytes demoAssessment.toValue))
    _ (demoKey_sign (canonicalJsonBytes manifest.toValue))
  refine List.pairwise_cons.mpr ⟨fun other hother => of_decide_eq_true (hfirst other hother), ?_⟩
  refine List.pairwise_cons.mpr ⟨?_, List.pairwise_pair.mpr hthird⟩
  intro other hother
  rcases List.mem_pair.mp hother with heq | heq
  · rw [heq]
    exact hsecond
  · rw [heq]
    exact hfourth

theorem capsuleEnvironment_readsBack {manifest : TransferManifest}
    (h : capsuleManifest = some manifest) :
    ReadsBack capsuleEnvironment demoAssessment manifest := by
  have hparse : capsuleEnvironment.parse = parseOneOf (capsuleDocuments manifest) := by
    rw [capsuleEnvironment, h]
    rfl
  have hread : ∀ value ∈ capsuleDocuments manifest,
      capsuleEnvironment.parse (capsuleEnvironment.pretty value) = .ok value := by
    intro value hvalue
    rw [hparse]
    exact parseOneOf_ok (capsuleDocuments_distinct h) hvalue
  constructor
  · exact hread _ (by simp [capsuleDocuments])
  · exact hread signatureDocument (by simp [capsuleDocuments])
  · exact hread _ (by simp [capsuleDocuments])
  · exact hread _ (by simp [capsuleDocuments]; exact Or.inr (Or.inr (Or.inr rfl)))

theorem demoRun_succeeds : (demoRun packingEnvironment).toBool = true := by decide +kernel

/-- A small package, handed over and accepted. -/
theorem capsule_verifies_demo : ∃ manifest disk,
    demoRun capsuleEnvironment = .ok (manifest, disk) ∧
      verifyCapsule capsuleEnvironment disk [asBytes "out"] none =
        .ok (transferVerification manifest false) ∧
      verifyCapsule capsuleEnvironment disk [asBytes "out"] (some demoKey.publicKey) =
        .ok (transferVerification manifest true) := by
  have hsame : demoRun capsuleEnvironment = demoRun packingEnvironment :=
    demoRun_parse packingEnvironment _
  have hsucceeds := demoRun_succeeds
  cases hrun : demoRun packingEnvironment with
  | error message =>
    rw [hrun] at hsucceeds
    cases hsucceeds
  | ok result =>
    obtain ⟨manifest, disk⟩ := result
    have hmanifest : capsuleManifest = some manifest := by
      rw [capsuleManifest, hrun]
      rfl
    refine ⟨manifest, disk, hsame.trans hrun, ?_⟩
    obtain ⟨⟨persisted, disk₁⟩, hpersist, hcreate⟩ := Except.bind_eq_ok.mp (hsame.trans hrun)
    exact capsule_verifies demoKey_verifies hpersist (fun _ _ => rfl) hcreate
      (capsuleEnvironment_readsBack hmanifest) fun _ => rfl

end Oath.Cli
