import Oath.Fetch.Downloads
import Oath.Registry.Served

/-! From the approval of a version to the bytes that a client accepts for it, whatever stands
between the registry and the client. -/

namespace Oath.Registry
open Contracts Service Fetch

/-! ## What the metadata lists -/

/-- Every version in the metadata is an active one. -/
theorem packageMetadata_listed {registry : PostgresRegistry} {caller : Caller} {name : String}
    {w w' : World RegistryState} {metadata : Value}
    (h : packageMetadata registry caller name w = .ok metadata w') {version : String}
    {entry : Value} (hentry : (metadata.index "versions").get? version = some entry) :
    ∃ row, w.state.db.version name version = some row ∧ row.status = "active" := by
  obtain ⟨found, w₁, hfound, h1⟩ := EStateM.bind_eq_ok.mp h
  obtain ⟨-, hw₁⟩ := query_ok hfound
  obtain ⟨package, w₂, hpackage, h2⟩ := EStateM.bind_eq_ok.mp h1
  obtain ⟨-, rfl⟩ := found_ok.mp hpackage
  obtain ⟨_, w₃, hallowed, h3⟩ := EStateM.bind_eq_ok.mp h2
  obtain ⟨rows, w₄, hrows, h4⟩ := EStateM.bind_eq_ok.mp h3
  obtain ⟨versions, w₅, hloop, h5⟩ := EStateM.bind_eq_ok.mp h4
  obtain ⟨_, w₆, -, h6⟩ := EStateM.bind_eq_ok.mp h5
  obtain ⟨tags, w₇, -, h7⟩ := EStateM.bind_eq_ok.mp h6
  obtain ⟨rfl, -⟩ := EStateM.Result.ok.inj h7
  have hstill : w₃.state = w.state := by
    have hkept : Still (if package.isPrivate then authorizeReader caller name
        else discard (authenticateOptional caller)) := by
      split_ifs
      · exact authorizeReader_still caller name
      · exact still_bind (ofResult_still caller) fun _ => changes_pure ()
    have hsame := hkept w₂
    rw [hallowed] at hsame
    exact (show w₂.state = w₃.state from hsame).symm.trans hw₁
  obtain ⟨rfl, -⟩ := query_ok hrows
  rw [hstill] at hloop
  obtain ⟨-, hothers⟩ := metadataLoop_ok hloop (packageVersions_nodup _ _)
  have hlookup : versions.lookup version = some entry := by
    rw [Value.index, lookup_json] at hentry
    simp only [List.foldl_cons, List.foldl_nil, Value.lookup_insertField] at hentry
    exact hentry
  by_cases hlisted : version ∈ (w.state.db.packageVersions name).map VersionRow.version
  · obtain ⟨row, hrow, rfl⟩ := List.mem_map.mp hlisted
    obtain ⟨hmem, hname, hactive⟩ := mem_packageVersions.mp hrow
    refine ⟨row, ?_, hactive⟩
    rw [← hname]
    exact Table.find?_key hmem
  · rw [hothers version hlisted] at hlookup
    cases hlookup

/-! ## From the approval to the client -/

/-- For every version in the metadata there is an approval. Its bytes are what the registry serves,
and what a client takes with the integrity from the metadata has their digest, whatever answers its
requests; it takes it as soon as a response brings it. -/
theorem approved_downloads {registry : PostgresRegistry} {replicas : ℕ} {calls : List Call}
    {caller : Caller} {name version : String} {faults : List Fault} {times : List ℕ}
    {metadata entry : Value} {w : World RegistryState}
    (hmetadata : packageMetadata registry caller name
      ⟨run registry (.empty replicas) calls, faults, times⟩ = .ok metadata w)
    (hentry : (metadata.index "versions").get? version = some entry) :
    ∃ before call after principal stage bytes bundle inserted sri,
      calls = before ++ call :: after ∧
      (run registry (.empty replicas) (before ++ [call])).db.version name version =
        some inserted ∧
      Approval registry (run registry (.empty replicas) before) call.request principal stage
        bytes bundle inserted ∧
      (∀ caller' faults' times' served w', downloadVersion caller' name version
        ⟨run registry (.empty replicas) calls, faults', times'⟩ = .ok served w' → served = bytes) ∧
      (entry.index "dist").get? "integrity" = some (.string sri) ∧
      ∀ hashes : Hashes, hashes.sha256 = registry.assess.sha.digest → ∀ limits attempts file,
        (fetchTarballToFile hashes limits (some sri) attempts = .ok file ↔
          ∃ failures retryStatus contentLength chunks rest,
            attempts = failures ++ .response retryStatus true contentLength chunks none :: rest ∧
            Received limits requestAttempts failures retryStatus contentLength chunks ∧
            chunks.flatten = file ∧
            registry.assess.sha.digest file = registry.assess.sha.digest bytes) := by
  obtain ⟨row, hrow, hactive⟩ := packageMetadata_listed hmetadata hentry
  obtain ⟨before, call, after, principal, stage, bytes, bundle, inserted, rfl, hinserted,
    happroval, hkept⟩ := run_inserted registry replicas calls hrow
  have hfrom := hkept.publishedFrom happroval.from_
  have hstored : (run registry (.empty replicas) (before ++ call :: after)).objects.primary.find?
      row.digest = some { path := stage.digest, bytes := bytes } := by
    rw [run_append, hfrom.digest]
    exact run_objects_kept registry _ _ _ _ happroval.stored
  obtain ⟨time, entry', hversion, hlookup⟩ := packageMetadata_ok hmetadata hrow hactive
  obtain rfl := Option.some.inj (hentry.symm.trans hlookup)
  have hkey : row.key = (name, version) := Table.key_of_find? hrow
  obtain ⟨rfl, rfl⟩ := Prod.mk.inj hkey
  have hadvertises := versionMetadata_advertises hfrom happroval.assessed hversion
  refine ⟨before, call, after, principal, stage, bytes, bundle, inserted, _, rfl, hinserted,
    happroval, ?_, hadvertises.integrity, fun hashes hsha limits attempts file => ?_⟩
  · intro caller' faults' times' served w' hserved
    obtain ⟨row', hrow', -, hobject⟩ := downloadVersion_ok hserved
    obtain rfl := Option.some.inj (hrow.symm.trans hrow')
    exact hobject _ hstored
  · have hdigest : registry.assess.sha.digest bytes ≠ [] := by
      intro hnil
      have hlength := registry.assess.sha.length_digest bytes
      rw [hnil] at hlength
      cases hlength
    unfold fetchTarballToFile
    rw [downloadLoop_eq_ok (new_sha256 hdigest)]
    simp only [matches_sha256 hdigest, hsha]

/-- The request fails, and then the tarball comes in two chunks. -/
def demoAttempts : List Attempt :=
  [.failed true, .response false true none [demoTarball.take 2, demoTarball.drop 2] none]

theorem approved_downloads_demo : ∃ metadata w entry sri,
    packageMetadata demoRegistry (.ok none) "demo"
      ⟨run demoRegistry (.empty 1) demoCalls, [], []⟩ = .ok metadata w ∧
    (metadata.index "versions").get? "1.0.0" = some entry ∧
    (entry.index "dist").get? "integrity" = some (.string sri) ∧
    fetchTarballToFile ⟨fun _ => [], demoRegistry.assess.sha.digest, fun _ => []⟩ {} (some sri)
      demoAttempts = .ok demoTarball := by
  have hserved : (downloadVersion (.ok none) "demo" "1.0.0"
        ⟨run demoRegistry (.empty 1) demoCalls, [], []⟩).answer.toOption = some demoTarball ∧
      ((packageMetadata demoRegistry (.ok none) "demo"
        ⟨run demoRegistry (.empty 1) demoCalls, [], []⟩).answer.toOption.bind fun metadata =>
          (metadata.index "versions").get? "1.0.0").isSome = true := by
    decide +kernel
  obtain ⟨w, hdownload⟩ := EStateM.Result.toOption_answer.mp hserved.1
  obtain ⟨entry, hsome⟩ := Option.isSome_iff_exists.mp hserved.2
  obtain ⟨metadata, hanswer, hentry⟩ := Option.bind_eq_some_iff.mp hsome
  obtain ⟨w', hmetadata⟩ := EStateM.Result.toOption_answer.mp hanswer
  obtain ⟨_, _, _, _, _, bytes, _, _, sri, -, -, -, hbytes, hsri, haccepts⟩ :=
    approved_downloads hmetadata hentry
  obtain rfl := hbytes _ _ _ _ _ hdownload
  refine ⟨metadata, w', entry, sri, hmetadata, hentry, hsri, ?_⟩
  have hchunks : [demoTarball.take 2, demoTarball.drop 2].flatten = demoTarball := by simp
  refine (haccepts _ rfl _ _ _).mpr ⟨[.failed true], false, none, _, [], rfl, ?_, hchunks, rfl⟩
  exact {
    transient := by
      intro attempt hattempt
      obtain rfl := List.mem_singleton.mp hattempt
      rfl
    made := by decide
    status := fun h => by cases h
    announced := Nat.zero_le _
    size := by
      rw [hchunks]
      decide +kernel }

end Oath.Registry
