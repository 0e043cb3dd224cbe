import Oath.Registry.Publication

/-! What the registry serves of a version: the bytes of a download and the metadata that
speaks of them. -/

namespace Oath.Registry
open Contracts Service Unix Database

/-! ## The metadata of one version -/

/-- Everything the metadata of a version says of its bytes is what the server made of
them. -/
structure Advertises (registry : PostgresRegistry) (metadata : Value) (name version : String)
    (bytes : List UInt8) (bundle : RegistryAssessmentBundle) : Prop where
  integrity : (metadata.index "dist").get? "integrity" =
    some (.string ("sha256-" ++ Base64.encode (registry.assess.sha.digest bytes)))
  assessment : (metadata.index "oath").get? "assessment" =
    some (signVerdict registry bundle.verdict).toValue
  serverEvidence : (metadata.index "oath").get? "server_evidence" = some bundle.evidence
  sbom : (metadata.index "oath").get? "sbom" = some bundle.sbom
  provenance : (metadata.index "oath").get? "provenance" = some bundle.provenance
  manifest : ∃ manifest,
    manifestFromTarball registry.assess.decode registry.assess.parseJson bytes name version =
      .ok manifest ∧
    ∀ field, field ≠ "dist" → field ≠ "oath" → metadata.get? field = manifest.get? field

theorem get?_of_fieldIs {manifest : Value} {field expected : String}
    (h : fieldIs manifest field expected) : manifest.get? field = some (.string expected) := by
  unfold fieldIs at h
  cases hget : manifest.get? field with
  | none => simp [hget] at h
  | some value =>
    rw [hget] at h
    cases value <;> simp_all [Value.asStr?]

theorem manifestFromTarball_fields {decode : DecodeTarball}
    {parseJson : List UInt8 → Except String Value} {tarball : List UInt8} {name version : String}
    {manifest : Value}
    (h : manifestFromTarball decode parseJson tarball name version = .ok manifest) :
    manifest.get? "name" = some (.string name) ∧
      manifest.get? "version" = some (.string version) := by
  unfold manifestFromTarball at h
  split at h
  · cases h
  · obtain ⟨result, -, h1⟩ := Except.bind_eq_ok.mp h
    split at h1
    · cases h1
    · split_ifs at h1 with _ hname hversion
      obtain rfl := Except.ok.inj h1
      exact ⟨get?_of_fieldIs (by simpa using hname), get?_of_fieldIs (by simpa using hversion)⟩

theorem lookup_json (fields : List (String × Value)) (key : String) :
    (Value.json fields).get? key =
      (fields.foldl (fun acc field => Value.insertField field.1 field.2 acc) []).lookup key := rfl

/-- The fields of the manifest with the registry's own on top. -/
theorem versionMetadata_ok {registry : PostgresRegistry} {name : String} {row : VersionRow}
    {time : ℕ} {metadata : Value} (h : versionMetadata registry name row time = .ok metadata) :
    ∃ digest tarball, hexDecode row.digest = .ok digest ∧ ∀ field, metadata.get? field =
      if field = "oath" then some (oathMetadata row time)
      else if field = "dist" then some (Value.json [
        ("integrity", .string ("sha256-" ++ Base64.encode digest)), ("tarball", .string tarball)])
      else if field = "version" then some (.string row.version)
      else if field = "name" then some (.string name)
      else row.manifest.get? field := by
  unfold versionMetadata at h
  split at h
  · cases h
  · next digest hdigest =>
    split_ifs at h
    split at h
    · cases h
    · next fields hfields =>
      obtain rfl := Except.ok.inj h
      refine ⟨digest, registry.publicUrl ++ "/-/oath/tarballs/" ++ urlEncode name ++ "/" ++
        urlEncode row.version, hdigest, fun field => ?_⟩
      cases hmanifest : row.manifest with
      | object fields' =>
        rw [hmanifest] at hfields
        obtain rfl := Option.some.inj hfields
        simp only [Value.get?, Value.lookup_insertField]
      | _ => simp [hmanifest, Value.asObject?] at hfields

theorem versionMetadata_advertises {registry : PostgresRegistry} {row : VersionRow}
    {stage : StageRecord} {bytes : List UInt8} {bundle : RegistryAssessmentBundle} {time : ℕ}
    {metadata : Value} (hfrom : PublishedFrom row stage)
    (hassessed : Assessed registry stage bytes bundle)
    (h : versionMetadata registry row.name row time = .ok metadata) :
    Advertises registry metadata row.name row.version bytes bundle := by
  obtain ⟨digest, tarball, hdigest, hfields⟩ := versionMetadata_ok h
  rw [hfrom.digest, hassessed.digest, hexSha256, hexDecode_hexEncode] at hdigest
  obtain rfl := Except.ok.inj hdigest
  have hoath : metadata.index "oath" = oathMetadata row time := by
    rw [Value.index, hfields, if_pos rfl, Option.getD_some]
  have hmanifest := hassessed.manifest
  rw [← hfrom.name, ← hfrom.version] at hmanifest
  refine ⟨?_, ?_, ?_, ?_, ?_, stage.manifest, hmanifest, fun field hdist hoath => ?_⟩
  · rw [Value.index, hfields]
    simp [lookup_json, Value.lookup_insertField]
  · rw [hoath, ← hassessed.assessment, ← hfrom.assessment]
    simp [oathMetadata, lookup_json, Value.lookup_insertField]
  · rw [hoath, ← hassessed.serverEvidence, ← hfrom.serverEvidence]
    simp [oathMetadata, lookup_json, Value.lookup_insertField]
  · rw [hoath, ← hassessed.sbom, ← hfrom.sbom]
    simp [oathMetadata, lookup_json, Value.lookup_insertField]
  · rw [hoath, ← hassessed.provenance, ← hfrom.provenance]
    simp [oathMetadata, lookup_json, Value.lookup_insertField]
  · obtain ⟨hname, hversion⟩ := manifestFromTarball_fields hmanifest
    rw [hfields, if_neg hoath, if_neg hdist, hfrom.manifest]
    split_ifs with hfield hfield
    · rw [hfield, hversion]
    · rw [hfield, hname]
    · rfl

/-! ## The metadata of a package -/

theorem mem_packageVersions {db : Database} {name : String} {row : VersionRow} :
    row ∈ db.packageVersions name ↔
      row ∈ db.versions.rows ∧ row.name = name ∧ row.status = "active" := by
  simp [packageVersions]

theorem packageVersions_nodup (db : Database) (name : String) :
    ((db.packageVersions name).map VersionRow.version).Nodup := by
  have hrows : db.versions.rows.Nodup := db.versions.nodup.of_map
  have hnodup : (db.packageVersions name).Nodup :=
    (List.mergeSort_perm _ _).nodup_iff.mpr (hrows.filter _)
  apply hnodup.map_on
  intro row hrow row' hrow' hversion
  obtain ⟨hmem, hname, -⟩ := mem_packageVersions.mp hrow
  obtain ⟨hmem', hname', -⟩ := mem_packageVersions.mp hrow'
  exact db.versions.key_inj hmem hmem' (Prod.ext (hname.trans hname'.symm) hversion)

/-- Every row's metadata is found under its version. -/
theorem metadataLoop_ok {registry : PostgresRegistry} {name : String} {rows : List VersionRow}
    {versions result : List (String × Value)} {w w' : World RegistryState}
    (h : metadataLoop registry name rows versions w = .ok result w')
    (hnodup : (rows.map VersionRow.version).Nodup) :
    (∀ row ∈ rows, ∃ time metadata, versionMetadata registry name row time = .ok metadata ∧
      result.lookup row.version = some metadata) ∧
    ∀ version ∉ rows.map VersionRow.version, result.lookup version = versions.lookup version := by
  induction rows generalizing versions w with
  | nil =>
    obtain ⟨rfl, -⟩ := EStateM.Result.ok.inj h
    exact ⟨fun row hrow => absurd hrow List.not_mem_nil, fun _ _ => rfl⟩
  | cons row rest ih =>
    obtain ⟨hnew, hrest⟩ := List.nodup_cons.mp hnodup
    obtain ⟨time, w₁, -, h1⟩ := EStateM.bind_eq_ok.mp h
    obtain ⟨metadata, w₂, hmetadata, h2⟩ := EStateM.bind_eq_ok.mp h1
    obtain ⟨hmetadata, -⟩ := ofResult_ok.mp hmetadata
    obtain ⟨hrows, hother⟩ := ih h2 hrest
    constructor
    · intro row' hrow'
      rcases List.mem_cons.mp hrow' with rfl | hmem
      · refine ⟨time, metadata, hmetadata, ?_⟩
        rw [hother _ hnew, Value.lookup_insertField, if_pos rfl]
      · exact hrows row' hmem
    · intro version hversion
      rw [List.map_cons, List.mem_cons, not_or] at hversion
      obtain ⟨hne, hnot⟩ := hversion
      rw [hother _ hnot, Value.lookup_insertField, if_neg hne]

/-- The metadata has every active version of the package. -/
theorem packageMetadata_ok {registry : PostgresRegistry} {caller : Caller} {name : String}
    {w w' : World RegistryState} {metadata : Value}
    (h : packageMetadata registry caller name w = .ok metadata w') {version : String}
    {row : VersionRow} (hrow : w.state.db.version name version = some row)
    (hactive : row.status = "active") :
    ∃ time entry, versionMetadata registry name row time = .ok entry ∧
      (metadata.index "versions").get? version = some entry := by
  obtain ⟨found, w₁, hfound, h1⟩ := EStateM.bind_eq_ok.mp h
  obtain ⟨-, hw₁⟩ := query_ok hfound
  obtain ⟨package, w₂, hpackage, h2⟩ := EStateM.bind_eq_ok.mp h1
  obtain ⟨-, rfl⟩ := found_ok.mp hpackage
  obtain ⟨_, w₃, hallowed, h3⟩ := EStateM.bind_eq_ok.mp h2
  obtain ⟨rows, w₄, hrows, h4⟩ := EStateM.bind_eq_ok.mp h3
  obtain ⟨versions, w₅, hloop, h5⟩ := EStateM.bind_eq_ok.mp h4
  obtain ⟨_, w₆, -, h6⟩ := EStateM.bind_eq_ok.mp h5
  obtain ⟨tags, w₇, -, h7⟩ := EStateM.bind_eq_ok.mp h6
  obtain ⟨rfl, -⟩ := EStateM.Result.ok.inj h7
  have hstill : w₃.state = w.state := by
    have hkept : Still (if package.isPrivate then authorizeReader caller name
        else discard (authenticateOptional caller)) := by
      split_ifs
      · exact authorizeReader_still caller name
      · exact still_bind (ofResult_still caller) fun _ => changes_pure ()
    have hsame := hkept w₂
    rw [hallowed] at hsame
    exact (show w₂.state = w₃.state from hsame).symm.trans hw₁
  obtain ⟨rfl, -⟩ := query_ok hrows
  rw [hstill] at hloop
  obtain ⟨hall, -⟩ := metadataLoop_ok hloop (packageVersions_nodup _ _)
  obtain ⟨hmem, hkey⟩ := Table.find?_eq_some _ |>.mp hrow
  obtain ⟨hname, rfl⟩ := Prod.mk.inj hkey
  obtain ⟨time, entry, hentry, hlookup⟩ := hall row (mem_packageVersions.mpr ⟨hmem, hname, hactive⟩)
  refine ⟨time, entry, hentry, ?_⟩
  rw [Value.index, lookup_json]
  simp only [List.foldl_cons, List.foldl_nil, Value.lookup_insertField]
  exact hlookup

/-! ## Downloads -/

theorem downloadVersion_ok {caller : Caller} {name version : String} {w w' : World RegistryState}
    {bytes : List UInt8} (h : downloadVersion caller name version w = .ok bytes w') :
    ∃ row, w.state.db.version name version = some row ∧ row.status = "active" ∧
      ∀ object, w.state.objects.primary.find? row.digest = some object → bytes = object.bytes := by
  obtain ⟨found, w₁, hfound, h1⟩ := EStateM.bind_eq_ok.mp h
  obtain ⟨rfl, hw₁⟩ := query_ok hfound
  obtain ⟨row, w₂, hsome, h2⟩ := EStateM.bind_eq_ok.mp h1
  obtain ⟨hrow, rfl⟩ := found_ok.mp hsome
  obtain ⟨_, w₃, hallowed, h3⟩ := EStateM.bind_eq_ok.mp h2
  obtain ⟨_, w₄, hstatus, h4⟩ := EStateM.bind_eq_ok.mp h3
  obtain ⟨hactive, rfl⟩ := reject_ok.mp hstatus
  obtain ⟨got, w₅, hget, h5⟩ := EStateM.bind_eq_ok.mp h4
  obtain ⟨_, w₆, -, h6⟩ := EStateM.bind_eq_ok.mp h5
  obtain ⟨rfl, -⟩ := EStateM.Result.ok.inj h6
  refine ⟨row, hrow, by simpa using hactive, fun object hobject => ?_⟩
  have hstill : w₄.state = w.state := by
    have hkept : Still (if row.isPrivate then authorizeReader caller name else pure ()) := by
      split_ifs
      · exact authorizeReader_still caller name
      · exact changes_pure ()
    have hsame := hkept w₂
    rw [hallowed] at hsame
    exact (show w₂.state = w₄.state from hsame).symm.trans hw₁
  obtain ⟨v, hv, -⟩ := onObjects_ok hget
  rw [← hstill] at hobject
  exact ArtifactStore.get_ok hv hobject

/-! ## Histories -/

theorem step_objects_kept {registry : PostgresRegistry} {s s' : RegistryState} {request : Request}
    (hstep : Effect registry s request s') : KeepsPrimary s.objects s'.objects := by
  cases hstep with
  | stored hkeeps => exact hkeeps
  | staged _ _ _ _ _ _ hkeeps _ => exact hkeeps
  | downloaded hkeeps => exact hkeeps
  | approved | rejected | revoked | granted => exact Std.Refl.refl _

theorem run_objects_kept (registry : PostgresRegistry) (calls : List Call) (s : RegistryState) :
    KeepsPrimary s.objects (run registry s calls).objects := by
  induction calls generalizing s with
  | nil => exact Std.Refl.refl _
  | cons call calls ih =>
    exact IsTrans.trans _ _ _ (step_objects_kept (serve_effect registry s call)) (ih _)

/-- What is downloaded are the bytes the server assessed for the stage whose approval made the
version, and the metadata of the same state speaks of these bytes. -/
theorem served_bytes {registry : PostgresRegistry} {replicas : ℕ} {calls : List Call}
    {caller : Caller} {name version : String} {faults : List Fault} {times : List ℕ}
    {bytes : List UInt8} {w : World RegistryState}
    (h : downloadVersion caller name version ⟨run registry (.empty replicas) calls, faults, times⟩ =
      .ok bytes w) :
    ∃ before call after principal stage bundle inserted,
      calls = before ++ call :: after ∧
      (run registry (.empty replicas) (before ++ [call])).db.version name version =
        some inserted ∧
      Approval registry (run registry (.empty replicas) before) call.request principal stage
        bytes bundle inserted ∧
      ∀ caller' faults' times' metadata w',
        packageMetadata registry caller' name
          ⟨run registry (.empty replicas) calls, faults', times'⟩ = .ok metadata w' →
        ∃ entry, (metadata.index "versions").get? version = some entry ∧
          Advertises registry entry name version bytes bundle := by
  obtain ⟨row, hrow, hactive, hobject⟩ := downloadVersion_ok h
  obtain ⟨before, call, after, principal, stage, tarball, bundle, inserted, rfl, hinserted,
    happroval, hkept⟩ := run_inserted registry replicas calls hrow
  have hfrom := hkept.publishedFrom happroval.from_
  have hstored : (run registry (.empty replicas) (before ++ call :: after)).objects.primary.find?
      row.digest = some { path := stage.digest, bytes := tarball } := by
    rw [run_append, hfrom.digest]
    exact run_objects_kept registry _ _ _ _ happroval.stored
  obtain rfl := hobject _ hstored
  refine ⟨before, call, after, principal, stage, bundle, inserted, rfl, hinserted, happroval,
    fun caller' faults' times' metadata w' hmetadata => ?_⟩
  obtain ⟨time, entry, hentry, hlookup⟩ := packageMetadata_ok hmetadata hrow hactive
  have hkey : row.key = (name, version) := Table.key_of_find? hrow
  obtain ⟨rfl, rfl⟩ := Prod.mk.inj hkey
  exact ⟨entry, hlookup, versionMetadata_advertises hfrom happroval.assessed hentry⟩

theorem served_bytes_demo : ∃ w metadata w',
    downloadVersion (.ok none) "demo" "1.0.0"
      ⟨run demoRegistry (.empty 1) demoCalls, [], []⟩ = .ok demoTarball w ∧
    packageMetadata demoRegistry (.ok none) "demo"
      ⟨run demoRegistry (.empty 1) demoCalls, [], []⟩ = .ok metadata w' ∧
    ∃ bundle entry, (metadata.index "versions").get? "1.0.0" = some entry ∧
      Advertises demoRegistry entry "demo" "1.0.0" demoTarball bundle := by
  have hserved : (downloadVersion (.ok none) "demo" "1.0.0"
        ⟨run demoRegistry (.empty 1) demoCalls, [], []⟩).answer.toOption = some demoTarball ∧
      (packageMetadata demoRegistry (.ok none) "demo"
        ⟨run demoRegistry (.empty 1) demoCalls, [], []⟩).answer.toOption.isSome = true := by
    decide +kernel
  obtain ⟨w, hdownload⟩ := EStateM.Result.toOption_answer.mp hserved.1
  obtain ⟨metadata, hsome⟩ := Option.isSome_iff_exists.mp hserved.2
  obtain ⟨w', hmetadata⟩ := EStateM.Result.toOption_answer.mp hsome
  obtain ⟨_, _, _, _, _, bundle, _, -, -, -, hadvertised⟩ := served_bytes hdownload
  obtain ⟨entry, hentry, hadvertises⟩ := hadvertised _ _ _ _ _ hmetadata
  exact ⟨w, metadata, w', hdownload, hmetadata, bundle, entry, hentry, hadvertises⟩

end Oath.Registry
