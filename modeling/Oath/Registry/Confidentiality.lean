import Oath.Registry.Reads

/-! What a caller can tell of the packages that are hidden from it: two histories that differ
in nothing else answer alike, up to whether the version or the stage named by the request is
there. -/

namespace Oath.Registry
open Contracts Service Unix Database

/-! ## Artifacts -/

/-- Both stores hold the same under the digest. -/
def HoldSame (digest : String) (a b : ObjectStore) : Prop := a.find? digest = b.find? digest

theorem lookup_alike {digest : String} :
    Alike (HoldSame digest) (HoldSame digest) Eq
      (read fun store : ObjectStore => store.find? digest)
      (read fun store : ObjectStore => store.find? digest) :=
  alike_read fun _ _ hsame => hsame

theorem putOne_alike (object : StoredObject) :
    Alike (HoldSame object.path) (HoldSame object.path) Eq (putOne object) (putOne object) := by
  unfold putOne
  apply alike_bind_same
  · apply alike_call
    intro a b hsame
    left
    have hfind : a.find? object.path = b.find? object.path := hsame
    cases hold : b.find? object.path with
    | some existing =>
      rw [Table.insert?_of_some (hfind.trans hold), Table.insert?_of_some hold]
      exact ⟨false, a, false, b, rfl, rfl, rfl, hsame⟩
    | none =>
      have ha := Table.insert?_eq_some.mpr ⟨hfind.trans hold, rfl⟩
      have hb := Table.insert?_eq_some.mpr ⟨hold, rfl⟩
      rw [ha, hb]
      refine ⟨true, _, true, _, rfl, rfl, rfl, ?_⟩
      unfold HoldSame
      rw [Table.find?_insert? ha, Table.find?_insert? hb, if_pos rfl, if_pos rfl]
  · intro created
    cases created with
    | true => exact alike_pure rfl
    | false =>
      apply alike_bind_same lookup_alike
      intro existing
      cases existing with
      | none => exact alike_throw _
      | some existing =>
        dsimp only
        split_ifs
        · exact alike_pure rfl
        · exact alike_throw _

section Get
variable {digest : String}

theorem SameObject.replica {a b : ArtifactStore} (h : SameObject digest a b) (i : ℕ) :
    HoldSame digest (a.replicas.getD i .empty) (b.replicas.getD i .empty) := by
  have hat := congrArg (fun l => l.getD i none) h.replicas
  simp only [HoldSame, List.getD_eq_getElem?_getD, List.getElem?_map] at hat ⊢
  cases ha : a.replicas[i]? <;> cases hb : b.replicas[i]? <;>
    simp_all [Table.empty, Table.find?]

theorem onPrimary_alike {α : Type} {x : Service ObjectStore α}
    (h : Alike (HoldSame digest) (HoldSame digest) Eq x x) :
    Alike (SameObject digest) (SameObject digest) Eq (ArtifactStore.onPrimary x)
      (ArtifactStore.onPrimary x) := by
  apply alike_within h
  · intro a b hsame
    exact hsame.primary
  · intro a b a' b' hsame hprimary
    exact ⟨hprimary, hsame.replicas⟩

theorem replicaRead_alike (i : ℕ) :
    Alike (SameObject digest) (SameObject digest) Eq
      (ArtifactStore.onReplica i (read fun store => store.find? digest))
      (ArtifactStore.onReplica i (read fun store => store.find? digest)) := by
  apply alike_within lookup_alike
  · intro a b hsame
    exact hsame.replica i
  · intro a b a' b' hsame hreplica
    refine ⟨hsame.primary, ?_⟩
    change (a.replicas.set i a').map _ = (b.replicas.set i b').map _
    rw [List.map_set, List.map_set, hsame.replicas, hreplica]

theorem getReplicas_alike (indices : List ℕ) :
    Alike (SameObject digest) (SameObject digest) Eq (ArtifactStore.getReplicas digest indices)
      (ArtifactStore.getReplicas digest indices) := by
  induction indices with
  | nil => exact alike_throw _
  | cons i rest ih =>
    unfold ArtifactStore.getReplicas
    apply alike_bind_same (replicaRead_alike i)
    intro found
    cases found with
    | none => exact ih
    | some object =>
      have hput := putOne_alike { path := digest, bytes := object.bytes }
      apply alike_bind_same (onPrimary_alike hput)
      intro _
      exact alike_pure rfl

/-- Reading the object repairs the primary, so the stores go on holding the same. -/
theorem get_alike : Alike (SameObject digest) (SameObject digest) Eq (ArtifactStore.get digest)
    (ArtifactStore.get digest) := by
  unfold ArtifactStore.get
  apply alike_bind_same (onPrimary_alike lookup_alike)
  intro found
  cases found with
  | some object => exact alike_pure rfl
  | none =>
    have hindices : Alike (SameObject digest) (SameObject digest) Eq ArtifactStore.replicaIndices
        ArtifactStore.replicaIndices := by
      intro a b hsame faults times
      have hlength := congrArg List.length hsame.replicas
      rw [List.length_map, List.length_map] at hlength
      exact ⟨congrArg List.range hlength, hsame, rfl, rfl⟩
    apply alike_bind_same hindices
    exact getReplicas_alike

end Get

/-! ## Steps of a handler -/

section Steps
variable {s t : RegistryState}

theorem alike_query {α β : Type} {f : Database → α} {g : Database → β} :
    Alike (At s t) (At s t) (fun a b => a = f s.db ∧ b = g t.db) (query f) (query g) := by
  apply alike_mapError
  apply alike_read
  intro s' t' ⟨hs, ht⟩
  rw [hs, ht]
  exact ⟨rfl, rfl⟩

theorem alike_query_bind {α β γ δ : Type} {R : RegistryState → RegistryState → Prop}
    {T : γ → δ → Prop} {f : Database → α} {g : Database → β} {k : α → Handler γ}
    {k' : β → Handler δ} (h : Alike (At s t) R T (k (f s.db)) (k' (g t.db))) :
    Alike (At s t) R T (query f >>= k) (query g >>= k') := by
  apply alike_bind alike_query
  intro a b ⟨ha, hb⟩
  rw [ha, hb]
  exact h

variable {R : RegistryState → RegistryState → Prop}

theorem alike_reject (condition : Bool) (error : ApiError) :
    Alike R R Eq (reject condition error) (reject condition error) := by
  cases condition with
  | true => exact alike_throw error
  | false => exact alike_pure rfl

theorem alike_ofResult {α : Type} (x : Except ApiError α) :
    Alike R R Eq (ofResult x) (ofResult x) := by
  cases x with
  | error error => exact alike_throw error
  | ok a => exact alike_pure rfl

theorem alike_found {α : Type} (x : Option α) (error : ApiError) :
    Alike R R Eq (found x error) (found x error) := by
  cases x with
  | none => exact alike_throw error
  | some a => exact alike_pure rfl

theorem alike_found_bind {α β γ δ : Type} {R' : RegistryState → RegistryState → Prop}
    {T : γ → δ → Prop} {x : Option α} {y : Option β} {a : α} {b : β} {error : ApiError}
    {k : α → Handler γ} {k' : β → Handler δ} (hx : x = some a) (hy : y = some b)
    (h : Alike R R' T (k a) (k' b)) : Alike R R' T (found x error >>= k) (found y error >>= k') := by
  rw [hx, hy]
  exact h

theorem authorizeName_alike (hpackage : ∀ name, s.db.package name = t.db.package name)
    (hrole : ∀ name organization,
      s.db.packageRole name organization = t.db.packageRole name organization)
    (principal : Principal) (name : String) (write : Bool) :
    Alike (At s t) (At s t) Eq (authorizeName principal name write)
      (authorizeName principal name write) := by
  unfold authorizeName
  apply alike_query_bind
  rw [hpackage]
  cases t.db.package name with
  | none =>
    apply alike_bind_same (alike_reject _ _)
    intro _
    apply alike_bind_same (alike_reject _ _)
    intro _
    apply alike_bind_same (alike_reject _ _)
    intro _
    exact alike_pure rfl
  | some package =>
    dsimp only
    split_ifs
    · apply alike_bind_same (alike_reject _ _)
      intro _
      exact alike_pure rfl
    · apply alike_query_bind
      rw [hrole]
      apply alike_bind_same (alike_reject _ _)
      intro _
      exact alike_pure rfl

end Steps

/-! ## Rows that are not hidden -/

theorem filter_of_shown {Row : Type} {rows rows' : List Row} {shown shown' p p' : Row → Bool}
    (h : rows.filter shown = rows'.filter shown') (hsame : ∀ r, p r = p' r)
    (hp : ∀ r ∈ rows, p r = true → shown r = true)
    (hp' : ∀ r ∈ rows', p' r = true → shown' r = true) : rows.filter p = rows'.filter p' := by
  have hrows : (rows.filter shown).filter p = rows.filter p := by
    rw [List.filter_filter]
    apply List.filter_congr
    intro r hr
    cases hpr : p r with
    | false => rfl
    | true => exact hp r hr hpr
  have hrows' : (rows'.filter shown').filter p' = rows'.filter p' := by
    rw [List.filter_filter]
    apply List.filter_congr
    intro r hr
    cases hpr : p' r with
    | false => rfl
    | true => exact hp' r hr hpr
  rw [← hrows, ← hrows', h, funext hsame]

theorem shown_of_filter {Row : Type} {rows rows' : List Row} {hidden hidden' : Row → Bool}
    (h : rows.filter (fun r => !hidden r) = rows'.filter (fun r => !hidden' r)) {r : Row}
    (hr : r ∈ rows) (hshown : hidden r = false) : r ∈ rows' ∧ hidden' r = false := by
  have hmem : r ∈ rows.filter (fun r => !hidden r) :=
    List.mem_filter.mpr ⟨hr, by rw [hshown]; rfl⟩
  rw [h, List.mem_filter, Bool.not_eq_true'] at hmem
  exact hmem

theorem hides_iff {db : Database} {caller : Option Principal} {name : String} :
    db.hides caller name = true ↔ ∃ package, db.package name = some package ∧
      package.isPrivate = true ∧ ∀ principal, caller = some principal →
        package.organization ≠ principal.organization ∧
          db.packageRole name principal.organization = none := by
  unfold Database.hides
  cases db.package name with
  | none => simp
  | some package => cases caller <;> simp

section Rows
variable {caller : Option Principal} {s t : RegistryState}

theorem DifferInHidden.hides (h : DifferInHidden caller s t) (name : String) :
    s.db.hides caller name = t.db.hides caller name := by
  unfold Database.hides
  rw [h.package]
  simp only [h.packageRole]

theorem DifferInHidden.shown (h : DifferInHidden caller s t) {name : String}
    (hshown : s.db.hides caller name = false) : t.db.hides caller name = false :=
  (h.hides name).symm.trans hshown

theorem DifferInHidden.version (h : DifferInHidden caller s t) {name : String}
    (hshown : s.db.hides caller name = false) (version : String) :
    s.db.version name version = t.db.version name version := by
  apply Table.find?_of_shown h.versions
  · intro row hkey
    rw [← (Prod.mk.inj hkey).1] at hshown
    rw [hshown]
    rfl
  · intro row hkey
    rw [← (Prod.mk.inj hkey).1] at hshown
    rw [h.shown hshown]
    rfl

theorem DifferInHidden.tombstone (h : DifferInHidden caller s t) {name : String}
    (hshown : s.db.hides caller name = false) (version : String) :
    s.db.tombstones.find? (name, version) = t.db.tombstones.find? (name, version) := by
  apply Table.find?_of_shown h.tombstones
  · intro row hkey
    rw [← (Prod.mk.inj hkey).1] at hshown
    rw [hshown]
    rfl
  · intro row hkey
    rw [← (Prod.mk.inj hkey).1] at hshown
    rw [h.shown hshown]
    rfl

theorem DifferInHidden.packageVersions (h : DifferInHidden caller s t) {name : String}
    (hshown : s.db.hides caller name = false) :
    s.db.packageVersions name = t.db.packageVersions name := by
  unfold Database.packageVersions
  congr 1
  apply filter_of_shown h.versions (fun _ => rfl)
  · intro row _ hrow
    rw [(of_decide_eq_true hrow).1, hshown]
    rfl
  · intro row _ hrow
    rw [(of_decide_eq_true hrow).1, h.shown hshown]
    rfl

theorem DifferInHidden.distTagsOf (h : DifferInHidden caller s t) {name : String}
    (hshown : s.db.hides caller name = false) : s.db.distTagsOf name = t.db.distTagsOf name := by
  unfold Database.distTagsOf
  congr 1
  apply filter_of_shown h.distTags (fun _ => rfl)
  · intro row _ hrow
    rw [of_decide_eq_true hrow, hshown]
    rfl
  · intro row _ hrow
    rw [of_decide_eq_true hrow, h.shown hshown]
    rfl

/-- The join with the packages leaves the private ones out, hidden or not. -/
theorem DifferInHidden.publicQuarantines (h : DifferInHidden caller s t) :
    s.db.publicQuarantines = t.db.publicQuarantines := by
  have hshown (db : Database) (row : TombstoneRow) (hrow : (row.status = "quarantined" &&
      (db.package row.name).any fun package => !package.isPrivate) = true) :
      (!db.hides caller row.name) = true := by
    rw [Bool.not_eq_true']
    apply Bool.eq_false_of_not_eq_true
    intro hhidden
    obtain ⟨package, hpackage, hprivate, -⟩ := hides_iff.mp hhidden
    rw [hpackage] at hrow
    simp [hprivate] at hrow
  unfold Database.publicQuarantines
  congr 1
  apply filter_of_shown h.tombstones
  · intro row
    rw [h.package]
  · intro row _ hrow
    exact hshown s.db row hrow
  · intro row _ hrow
    exact hshown t.db row hrow

/-- The listing goes by the stage's own copy of the owner. -/
theorem DifferInHidden.listStages {principal : Principal}
    (h : DifferInHidden (some principal) s t) (hs : OwnershipAgrees s) (ht : OwnershipAgrees t) :
    s.db.listStages principal.organization = t.db.listStages principal.organization := by
  have hshown {u : RegistryState} (hu : OwnershipAgrees u) (row : StageRow)
      (hmem : row ∈ u.db.stages.rows) (hrow : (row.organization = principal.organization ||
        u.db.packageRoles.rows.any fun role =>
          role.name = row.name && role.principalOrg = principal.organization) = true) :
      (!u.db.hides (some principal) row.name) = true := by
    rw [Bool.not_eq_true']
    apply Bool.eq_false_of_not_eq_true
    intro hhidden
    obtain ⟨package, hpackage, -, hoff⟩ := hides_iff.mp hhidden
    obtain ⟨howner, hrole⟩ := hoff principal rfl
    obtain ⟨package', hpackage', hsame, -⟩ := hu.stages row hmem
    obtain rfl := Option.some.inj (hpackage.symm.trans hpackage')
    have hnone : ¬ ∃ role ∈ u.db.packageRoles.rows,
        role.name = row.name ∧ role.principalOrg = principal.organization := by
      rw [← packageRole_isSome_iff, hrole]
      simp
    rw [Bool.or_eq_true, List.any_eq_true] at hrow
    rcases hrow with hown | ⟨role, hmem, hboth⟩
    · exact howner (hsame.trans (of_decide_eq_true hown))
    · rw [Bool.and_eq_true, decide_eq_true_eq, decide_eq_true_eq] at hboth
      exact hnone ⟨role, hmem, hboth⟩
  unfold Database.listStages
  congr 2
  apply filter_of_shown h.stages
  · intro row
    congr 1
    rw [Bool.eq_iff_iff]
    have hrole := congrArg Option.isSome (h.packageRole row.name principal.organization)
    rw [Bool.eq_iff_iff, packageRole_isSome_iff, packageRole_isSome_iff] at hrole
    simpa [List.any_eq_true] using hrole
  · exact hshown hs
  · exact hshown ht

end Rows

/-! ## Handlers -/

section Refused
variable {caller : Option Principal} {s t : RegistryState}
  {R : RegistryState → RegistryState → Prop} {name name' : String}

theorem authorizeName_refused {principal : Principal}
    (hs : s.db.hides (some principal) name = true)
    (ht : t.db.hides (some principal) name' = true) :
    Alike (At s t) R (fun _ _ => False) (authorizeName principal name false)
      (authorizeName principal name' false) := by
  obtain ⟨package, hpackage, -, hoff⟩ := hides_iff.mp hs
  obtain ⟨howner, hrole⟩ := hoff principal rfl
  obtain ⟨package', hpackage', -, hoff'⟩ := hides_iff.mp ht
  obtain ⟨howner', hrole'⟩ := hoff' principal rfl
  unfold authorizeName
  apply alike_query_bind
  rw [hpackage, hpackage']
  dsimp only
  rw [if_neg howner, if_neg howner']
  apply alike_query_bind
  rw [hrole, hrole']
  exact alike_throw _

/-- Of a hidden package nothing is read. -/
theorem authorizeReader_refused (hs : s.db.hides caller name = true)
    (ht : t.db.hides caller name = true) :
    Alike (At s t) R (fun _ _ => False) (authorizeReader (.ok caller) name)
      (authorizeReader (.ok caller) name) := by
  cases caller with
  | none => exact alike_throw _
  | some principal =>
    change Alike _ _ _ (authorizeName principal name false >>= fun _ => pure ())
      (authorizeName principal name false >>= fun _ => pure ())
    exact alike_bind_failing (authorizeName_refused (R := At s t) hs ht)

/-- A private version sends the caller through the authorization. -/
theorem private_of_hidden (hs : OwnershipAgrees s) (hhidden : s.db.hides caller name = true)
    {version : String} {row : VersionRow} (hrow : s.db.version name version = some row) :
    row.isPrivate = true := by
  obtain ⟨package, hpackage, hprivate, -⟩ := hides_iff.mp hhidden
  have hkey := Table.key_of_find? hrow
  obtain ⟨package', hpackage', -, hsame⟩ := hs.versions row (Table.mem_of_find? hrow)
  rw [(Prod.mk.inj hkey).1, hpackage] at hpackage'
  obtain rfl := Option.some.inj hpackage'
  exact hsame.symm.trans hprivate

end Refused

section Handlers
variable {caller : Option Principal} {s t : RegistryState}

theorem authorizeReader_alike (h : DifferInHidden caller s t) (name : String) :
    Alike (At s t) (At s t) Eq (authorizeReader (.ok caller) name)
      (authorizeReader (.ok caller) name) := by
  cases caller with
  | none => exact alike_throw _
  | some principal =>
    change Alike _ _ _ (authorizeName principal name false >>= fun _ => pure ())
      (authorizeName principal name false >>= fun _ => pure ())
    apply alike_bind_same (authorizeName_alike h.package h.packageRole principal name false)
    intro _
    exact alike_pure rfl

theorem guard_alike (h : DifferInHidden caller s t) (name : String) (isPrivate : Bool)
    {other : Handler Unit} (hother : Alike (At s t) (At s t) Eq other other) :
    Alike (At s t) (At s t) Eq (if isPrivate then authorizeReader (.ok caller) name else other)
      (if isPrivate then authorizeReader (.ok caller) name else other) := by
  cases isPrivate with
  | true => exact authorizeReader_alike h name
  | false => exact hother

theorem metadataLoop_alike (registry : PostgresRegistry) (name : String) (rows : List VersionRow)
    (versions : List (String × Value)) :
    Alike (At s t) (At s t) Eq (metadataLoop registry name rows versions)
      (metadataLoop registry name rows versions) := by
  induction rows generalizing versions with
  | nil => exact alike_pure rfl
  | cons row rest ih =>
    unfold metadataLoop
    apply alike_bind_same alike_now
    intro time
    apply alike_bind_same (alike_ofResult _)
    intro metadata
    exact ih _

/-- The package's own flag is asked before its versions are looked at. -/
theorem packageMetadata_alike (h : DifferInHidden caller s t) (registry : PostgresRegistry)
    (name : String) :
    Alike (At s t) (At s t) Eq (packageMetadata registry (.ok caller) name)
      (packageMetadata registry (.ok caller) name) := by
  unfold packageMetadata
  apply alike_query_bind
  by_cases hhidden : s.db.hides caller name = true
  · obtain ⟨package, hpackage, hprivate, -⟩ := hides_iff.mp hhidden
    apply alike_found_bind hpackage ((h.package name).symm.trans hpackage)
    rw [if_pos hprivate]
    have ht := (h.hides name).symm.trans hhidden
    exact alike_bind_failing (authorizeReader_refused (R := At s t) hhidden ht)
  · have hshown := Bool.eq_false_of_not_eq_true hhidden
    rw [h.package]
    apply alike_bind_same (alike_found _ _)
    intro package
    have hpublic : Alike (At s t) (At s t) Eq
        (discard (authenticateOptional (.ok caller)) : Handler Unit)
        (discard (authenticateOptional (.ok caller)) : Handler Unit) := alike_pure rfl
    apply alike_bind_same (guard_alike h name package.isPrivate hpublic)
    intro _
    apply alike_query_bind
    rw [h.packageVersions hshown]
    apply alike_bind_same (metadataLoop_alike registry name _ [])
    intro versions
    apply alike_bind_same (alike_reject _ _)
    intro _
    apply alike_query_bind
    rw [h.distTagsOf hshown]
    exact alike_pure rfl

theorem alike_get {digest : String} (h : SameObject digest s.objects t.objects) :
    Alike (At s t) Anywhere Eq (onObjects (ArtifactStore.get digest))
      (onObjects (ArtifactStore.get digest)) := by
  apply alike_mapError
  apply alike_within get_alike
  · intro s' t' ⟨hs, ht⟩
    rw [hs, ht]
    exact h
  · intro _ _ _ _ _ _
    trivial

/-- A named version is missing, or hidden and therefore private, or the same on both sides. -/
theorem version_cases (h : DifferInHidden caller s t) (hs : OwnershipAgrees s)
    (ht : OwnershipAgrees t) {name version : String}
    (hfinds : (s.db.version name version).isSome = (t.db.version name version).isSome) :
    (s.db.version name version = none ∧ t.db.version name version = none) ∨
    (∃ row row', s.db.version name version = some row ∧ t.db.version name version = some row' ∧
      row.isPrivate = true ∧ row'.isPrivate = true ∧
      s.db.hides caller name = true ∧ t.db.hides caller name = true) ∨
    ∃ row ∈ s.db.versions.rows, s.db.version name version = some row ∧
      t.db.version name version = some row ∧ row.name = name ∧
      s.db.hides caller name = false := by
  cases hrow : s.db.version name version with
  | none =>
    rw [hrow, Option.isSome_none] at hfinds
    exact Or.inl ⟨rfl, Option.isSome_eq_false_iff.mp hfinds.symm |> Option.isNone_iff_eq_none.mp⟩
  | some row =>
    right
    rw [hrow, Option.isSome_some] at hfinds
    obtain ⟨row', hrow'⟩ := Option.isSome_iff_exists.mp hfinds.symm
    by_cases hhidden : s.db.hides caller name = true
    · have hhidden' := (h.hides name).symm.trans hhidden
      have hprivate := private_of_hidden hs hhidden hrow
      have hprivate' := private_of_hidden ht hhidden' hrow'
      exact Or.inl ⟨row, row', rfl, hrow', hprivate, hprivate', hhidden, hhidden'⟩
    · have hshown := Bool.eq_false_of_not_eq_true hhidden
      have hsame := (h.version hshown version).symm.trans hrow
      have hkey := Table.key_of_find? hrow
      exact Or.inr ⟨row, Table.mem_of_find? hrow, rfl, hsame, (Prod.mk.inj hkey).1, hshown⟩

theorem downloadVersion_alike (h : DifferInHidden caller s t) (hs : OwnershipAgrees s)
    (ht : OwnershipAgrees t) {name version : String}
    (hfinds : (s.db.version name version).isSome = (t.db.version name version).isSome) :
    Alike (At s t) Anywhere Eq (downloadVersion (.ok caller) name version)
      (downloadVersion (.ok caller) name version) := by
  unfold downloadVersion
  apply alike_query_bind
  rcases version_cases h hs ht hfinds with ⟨hrow, hrow'⟩ |
    ⟨row, row', hrow, hrow', hprivate, hprivate', hhidden, hhidden'⟩ |
    ⟨row, hmem, hrow, hrow', hname, hshown⟩
  · rw [hrow, hrow']
    exact alike_throw _
  · apply alike_found_bind hrow hrow'
    rw [if_pos hprivate, if_pos hprivate']
    exact alike_bind_failing (authorizeReader_refused (R := At s t) hhidden hhidden')
  · apply alike_found_bind hrow hrow'
    apply alike_bind_same (guard_alike h name row.isPrivate (alike_pure rfl))
    intro _
    apply alike_bind_same (alike_reject _ _)
    intro _
    have hsame : SameObject row.digest s.objects t.objects :=
      h.object row.digest (Or.inl ⟨row, hmem, by rw [hname, hshown], rfl⟩)
    apply alike_bind (alike_get hsame)
    intro bytes bytes' hbytes
    have hrecord : Alike Anywhere Anywhere Eq
        (execute fun db => .ok ((), db.recordDownload name version))
        (execute fun db => .ok ((), db.recordDownload name version)) := by
      apply alike_mapError
      apply alike_call
      intro s' t' _
      exact Or.inl ⟨(), _, (), _, rfl, rfl, rfl, trivial⟩
    apply alike_bind_same hrecord
    intro _
    exact alike_pure hbytes

/-! ### Verdict bundles -/

theorem filter_insertField (key : String) (value value' : Value) (fields : List (String × Value)) :
    (Value.insertField key value fields).filter (fun field => field.1 ≠ key) =
      (Value.insertField key value' fields).filter fun field => field.1 ≠ key := by
  induction fields with
  | nil => simp [Value.insertField]
  | cons field rest ih =>
    obtain ⟨k, v⟩ := field
    unfold Value.insertField
    split_ifs with hsame hless
    · simp
    · simp
    · rw [List.filter_cons, List.filter_cons, ih]

/-- The last field can be anything when it is left out again. -/
theorem withoutField_json_append (key : String) (value value' : Value)
    (fields : List (String × Value)) :
    withoutField key (Value.json (fields ++ [(key, value)])) =
      withoutField key (Value.json (fields ++ [(key, value')])) := by
  unfold Value.json withoutField
  simp only [List.foldl_append, List.foldl_cons, List.foldl_nil]
  rw [filter_insertField key value value']

theorem versionBundle_some {db : Database} {name version : String} {row : VersionRow}
    (h : db.version name version = some row) : db.versionBundle name version =
      some (row, (db.tombstones.find? (name, version)).map TombstoneRow.toJsonb) := by
  unfold Database.versionBundle
  rw [h, Option.map_some]

theorem verdictBundle_alike (h : DifferInHidden caller s t) (hs : OwnershipAgrees s)
    (ht : OwnershipAgrees t) (registry : PostgresRegistry) (hashes hashes' : List String)
    {name version : String}
    (hfinds : (s.db.version name version).isSome = (t.db.version name version).isSome) :
    Alike (At s t) (At s t)
      (fun value value' => withoutField "checkpoint" value = withoutField "checkpoint" value')
      (verdictBundle registry hashes (.ok caller) name version)
      (verdictBundle registry hashes' (.ok caller) name version) := by
  unfold verdictBundle
  apply alike_query_bind
  rcases version_cases h hs ht hfinds with ⟨hrow, hrow'⟩ |
    ⟨row, row', hrow, hrow', hprivate, hprivate', hhidden, hhidden'⟩ |
    ⟨row, hmem, hrow, hrow', hname, hshown⟩
  · unfold Database.versionBundle
    rw [hrow, hrow']
    exact alike_throw _
  · apply alike_found_bind (versionBundle_some hrow) (versionBundle_some hrow')
    rw [if_pos hprivate, if_pos hprivate']
    exact alike_bind_failing (authorizeReader_refused (R := At s t) hhidden hhidden')
  · apply alike_found_bind (versionBundle_some hrow) (versionBundle_some hrow')
    rw [h.tombstone hshown]
    apply alike_bind_same (guard_alike h name row.isPrivate (alike_pure rfl))
    intro _
    apply alike_query_bind
    apply alike_bind_same (alike_ofResult _)
    intro tombstone
    apply alike_pure
    exact withoutField_json_append "checkpoint" _ _ (bundleFields name version row tombstone)

/-! ### Stages -/

/-- A stage that is not hidden from one side is the other side's, too. -/
theorem DifferInHidden.stage (h : DifferInHidden caller s t) {id : String} {row row' : StageRow}
    (hrow : s.db.stages.find? id = some row) (hrow' : t.db.stages.find? id = some row')
    (hshown : s.db.hides caller row.name = false ∨ t.db.hides caller row'.name = false) :
    row = row' := by
  have hkey := Table.key_of_find? hrow
  have hkey' := Table.key_of_find? hrow'
  rcases hshown with hleft | hright
  · have hother := shown_of_filter h.stages (Table.mem_of_find? hrow) hleft
    exact t.db.stages.key_inj hother.1 (Table.mem_of_find? hrow') (hkey.trans hkey'.symm)
  · have hother := shown_of_filter h.stages.symm (Table.mem_of_find? hrow') hright
    exact s.db.stages.key_inj (Table.mem_of_find? hrow) hother.1 (hkey.trans hkey'.symm)

/-- A stage is missing, or hidden, or the same on both sides. -/
theorem stage_cases (h : DifferInHidden caller s t) {id : String}
    (hfinds : (s.db.readStage id).isSome = (t.db.readStage id).isSome) :
    (s.db.readStage id = none ∧ t.db.readStage id = none) ∨
    (∃ stage stage', s.db.readStage id = some stage ∧ t.db.readStage id = some stage' ∧
      s.db.hides caller stage.name = true ∧ t.db.hides caller stage'.name = true) ∨
    ∃ stage, s.db.readStage id = some stage ∧ t.db.readStage id = some stage ∧
      SameObject stage.digest s.objects t.objects := by
  unfold readStage at hfinds ⊢
  rw [Option.isSome_map, Option.isSome_map] at hfinds
  cases hrow : s.db.stages.find? id with
  | none =>
    rw [hrow, Option.isSome_none] at hfinds
    rw [Option.isSome_eq_false_iff.mp hfinds.symm |> Option.isNone_iff_eq_none.mp]
    exact Or.inl ⟨rfl, rfl⟩
  | some row =>
    right
    rw [hrow, Option.isSome_some] at hfinds
    obtain ⟨row', hrow'⟩ := Option.isSome_iff_exists.mp hfinds.symm
    rw [hrow']
    by_cases hshown : s.db.hides caller row.name = false ∨ t.db.hides caller row'.name = false
    · obtain rfl := h.stage hrow hrow' hshown
      have hleft : s.db.hides caller row.name = false := by
        rcases hshown with hleft | hright
        · exact hleft
        · exact (h.hides row.name).trans hright
      have hobject := h.object row.digest (Or.inr ⟨row, Table.mem_of_find? hrow, hleft, rfl⟩)
      exact Or.inr ⟨row.toStageRecord, rfl, rfl, hobject⟩
    · rw [not_or, Bool.not_eq_false, Bool.not_eq_false] at hshown
      exact Or.inl ⟨row.toStageRecord, row'.toStageRecord, rfl, rfl, hshown⟩

theorem viewStage_alike {principal : Principal} (h : DifferInHidden (some principal) s t)
    {id : String} (hfinds : (s.db.readStage id).isSome = (t.db.readStage id).isSome) :
    Alike (At s t) (At s t)
      (fun stage stage' => stage = stage' ∧ SameObject stage.digest s.objects t.objects)
      (viewStage (.ok (some principal)) id) (viewStage (.ok (some principal)) id) := by
  unfold viewStage
  change Alike _ _ _ (query _ >>= _) (query _ >>= _)
  apply alike_query_bind
  rcases stage_cases h hfinds with ⟨hstage, hstage'⟩ |
    ⟨stage, stage', hstage, hstage', hhidden, hhidden'⟩ | ⟨stage, hstage, hstage', hsame⟩
  · rw [hstage, hstage']
    exact alike_throw _
  · apply alike_found_bind hstage hstage'
    exact alike_bind_failing (authorizeName_refused (R := At s t) hhidden hhidden')
  · apply alike_found_bind hstage hstage'
    apply alike_bind_same
      (authorizeName_alike h.package h.packageRole principal stage.name false)
    intro _
    exact alike_pure ⟨rfl, hsame⟩

theorem downloadStage_alike {principal : Principal} (h : DifferInHidden (some principal) s t)
    {id : String} (hfinds : (s.db.readStage id).isSome = (t.db.readStage id).isSome) :
    Alike (At s t) Anywhere Eq (downloadStage (.ok (some principal)) id)
      (downloadStage (.ok (some principal)) id) := by
  unfold downloadStage
  apply alike_bind (viewStage_alike h hfinds)
  intro stage stage' ⟨hstage, hsame⟩
  rw [← hstage]
  exact alike_get hsame

theorem listStages_alike {principal : Principal} (h : DifferInHidden (some principal) s t)
    (hs : OwnershipAgrees s) (ht : OwnershipAgrees t) :
    Alike (At s t) (At s t) Eq (listStages (.ok (some principal)))
      (listStages (.ok (some principal))) := by
  change Alike _ _ _ (query (·.listStages principal.organization))
    (query (·.listStages principal.organization))
  apply alike_query.weaken (fun _ _ hat => hat)
  intro stages stages' ⟨hstages, hstages'⟩
  rw [hstages, hstages', h.listStages hs ht]

theorem osvFeed_alike (h : DifferInHidden caller s t) (registry : PostgresRegistry)
    (rfc3339 : ℤ → String) :
    Alike (At s t) (At s t) Eq (osvFeed registry rfc3339) (osvFeed registry rfc3339) := by
  unfold osvFeed
  apply alike_query_bind
  rw [h.publicQuarantines]
  exact alike_pure rfl

/-! ### Responses -/

theorem respond_alike {α β : Type} {R : RegistryState → RegistryState → Prop} {S : α → β → Prop}
    {x : Handler α} {y : Handler β} {f : α → Response} {g : β → Response}
    (h : Alike (At s t) R S x y) (hsame : ∀ a b, S a b → (f a).withoutLog = (g b).withoutLog) :
    Alike (At s t) Anywhere (fun r r' => r.withoutLog = r'.withoutLog)
      (x >>= fun a => pure (f a)) (y >>= fun b => pure (g b)) := by
  have hanywhere : Alike (At s t) Anywhere S x y := h.weaken (fun _ _ _ => trivial) fun _ _ hS => hS
  apply alike_bind hanywhere
  intro a b hS
  exact alike_pure (hsame a b hS)

theorem handle_alike (h : DifferInHidden caller s t) (hs : OwnershipAgrees s)
    (ht : OwnershipAgrees t) (registry : PostgresRegistry) (rfc3339 : ℤ → String)
    (hashes hashes' : List String) {request : ReadRequest}
    (hfinds : request.finds s.db caller = request.finds t.db caller) :
    Alike (At s t) Anywhere (fun r r' => r.withoutLog = r'.withoutLog)
      (request.handle registry rfc3339 hashes caller)
      (request.handle registry rfc3339 hashes' caller) := by
  cases request with
  | packageMetadata name =>
    apply respond_alike (packageMetadata_alike h registry name)
    intro value value' hsame
    rw [hsame]
  | downloadVersion name version =>
    apply respond_alike (downloadVersion_alike h hs ht hfinds)
    intro bytes bytes' hsame
    rw [hsame]
  | verdictBundle name version =>
    apply respond_alike (verdictBundle_alike h hs ht registry hashes hashes' hfinds)
    intro value value' hsame
    exact congrArg Response.bundle hsame
  | listStages =>
    cases caller with
    | none => exact alike_throw _
    | some principal =>
      apply respond_alike (listStages_alike h hs ht)
      intro stages stages' hsame
      rw [hsame]
  | viewStage id =>
    cases caller with
    | none => exact alike_throw _
    | some principal =>
      apply respond_alike (viewStage_alike h hfinds)
      intro stage stage' ⟨hsame, _⟩
      rw [hsame]
  | downloadStage id =>
    cases caller with
    | none => exact alike_throw _
    | some principal =>
      apply respond_alike (downloadStage_alike h hfinds)
      intro bytes bytes' hsame
      rw [hsame]
  | osvFeed =>
    apply respond_alike (osvFeed_alike h registry rfc3339)
    intro value value' hsame
    rw [hsame]

end Handlers

/-! ## What an absence tells -/

section Absence
variable {caller : Option Principal} {s t : RegistryState}

theorem DifferInHidden.symm (h : DifferInHidden caller s t) : DifferInHidden caller t s where
  package name := (h.package name).symm
  packageRole name organization := (h.packageRole name organization).symm
  stages := h.stages.symm
  versions := h.versions.symm
  distTags := h.distTags.symm
  tombstones := h.tombstones.symm
  object digest hdigest := by
    have hshown : Shown s.db caller digest := by
      rcases hdigest with ⟨row, hrow, hshown, hsame⟩ | ⟨row, hrow, hshown, hsame⟩
      · have hmem := shown_of_filter h.versions.symm hrow hshown
        exact Or.inl ⟨row, hmem.1, hmem.2, hsame⟩
      · have hmem := shown_of_filter h.stages.symm hrow hshown
        exact Or.inr ⟨row, hmem.1, hmem.2, hsame⟩
    have hobject := h.object digest hshown
    exact ⟨hobject.primary.symm, hobject.replicas.symm⟩

/-- How a caller is turned away from a package that is hidden from it. -/
def refusal : Option Principal → ApiError
  | none => .unauthorized
  | some _ => .forbidden "package belongs to another organization"

theorem authorizeName_hidden {principal : Principal} {name : String}
    (hhidden : s.db.hides (some principal) name = true) (times : List ℕ) :
    authorizeName principal name false ⟨s, [], times⟩ =
      .error (refusal (some principal)) ⟨s, [], times⟩ := by
  obtain ⟨package, hpackage, -, hoff⟩ := hides_iff.mp hhidden
  obtain ⟨howner, hrole⟩ := hoff principal rfl
  have hread : readAccess s.db principal.organization name = .error (refusal (some principal)) := by
    unfold readAccess
    rw [hpackage]
    simp only
    rw [if_neg (by simp [howner, hrole])]
    rfl
  rw [authorizeName_read, hread]
  rfl

theorem authorizeReader_hidden {name : String} (hhidden : s.db.hides caller name = true)
    (times : List ℕ) :
    authorizeReader (.ok caller) name ⟨s, [], times⟩ = .error (refusal caller) ⟨s, [], times⟩ := by
  cases caller with
  | none => rfl
  | some principal =>
    change (authorizeName principal name false >>= fun _ => pure ()) _ = _
    exact bind_failed (authorizeName_hidden hhidden times)

theorem downloadVersion_missing {name version : String} (h : s.db.version name version = none)
    (times : List ℕ) : downloadVersion (.ok caller) name version ⟨s, [], times⟩ =
      .error (.notFound "package version not found") ⟨s, [], times⟩ := by
  unfold downloadVersion
  rw [bind_available (query_available _), h]
  rfl

theorem downloadVersion_hidden (hs : OwnershipAgrees s) {name version : String}
    (hhidden : s.db.hides caller name = true) {row : VersionRow}
    (hrow : s.db.version name version = some row) (times : List ℕ) :
    downloadVersion (.ok caller) name version ⟨s, [], times⟩ =
      .error (refusal caller) ⟨s, [], times⟩ := by
  unfold downloadVersion
  rw [bind_available (query_available _), hrow]
  have haccess := authorizeReader_hidden hhidden times
  rw [bind_available (show found (some row) _ _ = .ok row _ from rfl),
    if_pos (private_of_hidden hs hhidden hrow), bind_failed haccess]

theorem verdictBundle_missing {name version : String} (h : s.db.version name version = none)
    (registry : PostgresRegistry) (hashes : List String) (times : List ℕ) :
    verdictBundle registry hashes (.ok caller) name version ⟨s, [], times⟩ =
      .error (.notFound "package version not found") ⟨s, [], times⟩ := by
  unfold verdictBundle versionBundle
  rw [bind_available (query_available _), h]
  rfl

theorem verdictBundle_hidden (hs : OwnershipAgrees s) {name version : String}
    (hhidden : s.db.hides caller name = true) {row : VersionRow}
    (hrow : s.db.version name version = some row) (registry : PostgresRegistry)
    (hashes : List String) (times : List ℕ) :
    verdictBundle registry hashes (.ok caller) name version ⟨s, [], times⟩ =
      .error (refusal caller) ⟨s, [], times⟩ := by
  unfold verdictBundle
  rw [bind_available (query_available _), versionBundle_some hrow]
  have haccess := authorizeReader_hidden hhidden times
  rw [bind_available (show found (some _) _ _ = .ok _ _ from rfl),
    if_pos (private_of_hidden hs hhidden hrow), bind_failed haccess]

theorem viewStage_missing {principal : Principal} {id : String} (h : s.db.readStage id = none)
    (times : List ℕ) : viewStage (.ok (some principal)) id ⟨s, [], times⟩ =
      .error (.notFound "stage not found") ⟨s, [], times⟩ := by
  unfold viewStage
  rw [bind_available (authenticate_available principal _),
    bind_available (query_available _), h]
  rfl

theorem viewStage_hidden {principal : Principal} {id : String} {stage : StageRecord}
    (hstage : s.db.readStage id = some stage)
    (hhidden : s.db.hides (some principal) stage.name = true) (times : List ℕ) :
    viewStage (.ok (some principal)) id ⟨s, [], times⟩ =
      .error (refusal (some principal)) ⟨s, [], times⟩ := by
  unfold viewStage
  rw [bind_available (authenticate_available principal _),
    bind_available (query_available _), hstage]
  have haccess := authorizeName_hidden hhidden times
  rw [bind_available (show found (some stage) _ _ = .ok stage _ from rfl), bind_failed haccess]

theorem hidden_of_version_missing (h : DifferInHidden caller s t) {name version : String}
    {row : VersionRow} (hrow : s.db.version name version = some row)
    (hmissing : t.db.version name version = none) : s.db.hides caller name = true := by
  by_contra hhidden
  have hshown := Bool.eq_false_of_not_eq_true hhidden
  rw [h.version hshown, hmissing] at hrow
  cases hrow

theorem hidden_of_stage_missing (h : DifferInHidden caller s t) {id : String}
    {stage : StageRecord} (hstage : s.db.readStage id = some stage)
    (hmissing : t.db.readStage id = none) : s.db.hides caller stage.name = true := by
  obtain ⟨row, hrow, hrecord⟩ := Option.map_eq_some_iff.mp hstage
  by_contra hhidden
  rw [← hrecord] at hhidden
  have hshown := Bool.eq_false_of_not_eq_true hhidden
  have hother := (shown_of_filter h.stages (Table.mem_of_find? hrow) hshown).1
  have hnone := Table.find?_eq_none _ |>.mp (Option.map_eq_none_iff.mp hmissing)
  exact hnone row hother (Table.key_of_find? hrow)

/-- Where only one of the states has what is named, the other one's answer is that it is not
there. -/
theorem absence_tells (h : DifferInHidden caller s t) (hs : OwnershipAgrees s)
    {request : ReadRequest} (hfound : request.finds s.db caller = true)
    (hmissing : request.finds t.db caller = false) (registry : PostgresRegistry)
    (rfc3339 : ℤ → String) (hashes hashes' : List String) (times : List ℕ) :
    request.response registry rfc3339 hashes caller ⟨s, [], times⟩ = .error (refusal caller) ∧
      ∃ message, request.response registry rfc3339 hashes' caller ⟨t, [], times⟩ =
        .error (.notFound message) := by
  cases request with
  | packageMetadata name => cases hmissing
  | listStages => cases hmissing
  | osvFeed => cases hmissing
  | downloadVersion name version =>
    obtain ⟨row, hrow⟩ := Option.isSome_iff_exists.mp hfound
    have hnone := Option.isNone_iff_eq_none.mp (Option.isSome_eq_false_iff.mp hmissing)
    have hhidden := hidden_of_version_missing h hrow hnone
    unfold ReadRequest.response ReadRequest.handle
    simp only
    rw [bind_failed (downloadVersion_hidden hs hhidden hrow times),
      bind_failed (downloadVersion_missing hnone times)]
    exact ⟨rfl, _, rfl⟩
  | verdictBundle name version =>
    obtain ⟨row, hrow⟩ := Option.isSome_iff_exists.mp hfound
    have hnone := Option.isNone_iff_eq_none.mp (Option.isSome_eq_false_iff.mp hmissing)
    have hhidden := hidden_of_version_missing h hrow hnone
    unfold ReadRequest.response ReadRequest.handle
    simp only
    rw [bind_failed (verdictBundle_hidden hs hhidden hrow registry hashes times),
      bind_failed (verdictBundle_missing hnone registry hashes' times)]
    exact ⟨rfl, _, rfl⟩
  | viewStage id =>
    cases caller with
    | none => cases hfound
    | some principal =>
      obtain ⟨stage, hstage⟩ := Option.isSome_iff_exists.mp hfound
      have hnone := Option.isNone_iff_eq_none.mp (Option.isSome_eq_false_iff.mp hmissing)
      have hhidden := hidden_of_stage_missing h hstage hnone
      unfold ReadRequest.response ReadRequest.handle
      simp only
      rw [bind_failed (viewStage_hidden hstage hhidden times),
        bind_failed (viewStage_missing hnone times)]
      exact ⟨rfl, _, rfl⟩
  | downloadStage id =>
    cases caller with
    | none => cases hfound
    | some principal =>
      obtain ⟨stage, hstage⟩ := Option.isSome_iff_exists.mp hfound
      have hnone := Option.isNone_iff_eq_none.mp (Option.isSome_eq_false_iff.mp hmissing)
      have hhidden := hidden_of_stage_missing h hstage hnone
      unfold ReadRequest.response ReadRequest.handle downloadStage
      simp only
      rw [bind_failed (bind_failed (viewStage_hidden hstage hhidden times)),
        bind_failed (bind_failed (viewStage_missing hnone times))]
      exact ⟨rfl, _, rfl⟩

end Absence

/-! ## Two histories -/

/-- After any two histories that differ in nothing but the packages hidden from the caller, a
request that reads is answered alike exactly when it finds what it names after both of them or
after neither. -/
theorem reads_agree_iff (registry : PostgresRegistry) (rfc3339 : ℤ → String)
    (replicas replicas' : ℕ) (calls calls' : List Call) (caller : Option Principal)
    (h : DifferInHidden caller (run registry (.empty replicas) calls)
      (run registry (.empty replicas') calls')) (request : ReadRequest) :
    (∀ faults times hashes hashes',
      request.response registry rfc3339 hashes caller
        ⟨run registry (.empty replicas) calls, faults, times⟩ =
      request.response registry rfc3339 hashes' caller
        ⟨run registry (.empty replicas') calls', faults, times⟩) ↔
      request.finds (run registry (.empty replicas) calls).db caller =
        request.finds (run registry (.empty replicas') calls').db caller := by
  have hs := run_ownership_agrees registry replicas calls
  have ht := run_ownership_agrees registry replicas' calls'
  have hdiffer (message : String) : refusal caller ≠ .notFound message := by
    cases caller <;> simp [refusal, ApiError.unauthorized, ApiError.forbidden, ApiError.notFound]
  constructor
  · intro hagree
    have hplain := hagree [] [] [] []
    cases hfound : request.finds (run registry (.empty replicas) calls).db caller with
    | true =>
      by_contra hmissing
      obtain ⟨hrefused, message, hnot⟩ := absence_tells h hs hfound
        (Bool.eq_false_of_not_eq_true (Ne.symm hmissing)) registry rfc3339 [] [] []
      rw [hrefused, hnot] at hplain
      exact hdiffer message (Except.error.inj hplain)
    | false =>
      by_contra hmissing
      obtain ⟨hrefused, message, hnot⟩ := absence_tells h.symm ht
        (Bool.eq_true_of_not_eq_false (Ne.symm hmissing)) hfound registry rfc3339 [] [] []
      rw [hrefused, hnot] at hplain
      exact hdiffer message (Except.error.inj hplain).symm
  · intro hfinds faults times hashes hashes'
    have halike := handle_alike h hs ht registry rfc3339 hashes hashes' hfinds
    exact halike.answer (fun _ _ hsame => hsame) ⟨rfl, rfl⟩ faults times

/-! ## A private demo package -/

def privateStaging : Call where
  request := .createStage (.ok (some demoAdmin)) emptyHost {
    name := "demo"
    version := "1.0.0"
    tag := "latest"
    tarballBase64 := Base64.encode demoTarball
    assessment := .null
    isPrivate := true }
  faults := []
  times := [demoTime, demoTime, demoTime]

/-- The version is staged; in the second history it is approved, too. -/
def stagedDemo : List Call := [privateStaging]

def approvedDemo : List Call := privateStaging :: demoCalls.drop 1

/-- The package is the only one, and nobody has a role on it. -/
def HoldsOnly (package : PackageRow) (db : Database) : Prop :=
  db.packages.rows = [package] ∧ db.packageRoles.rows = [] ∧
    (∀ row ∈ db.stages.rows, row.name = package.name) ∧
    (∀ row ∈ db.versions.rows, row.name = package.name) ∧
    (∀ row ∈ db.distTags.rows, row.name = package.name) ∧
    ∀ row ∈ db.tombstones.rows, row.name = package.name

instance (package : PackageRow) (db : Database) : Decidable (HoldsOnly package db) :=
  inferInstanceAs (Decidable (_ ∧ _))

section HoldsOnly
variable {package : PackageRow} {s t : RegistryState}

theorem HoldsOnly.hides (h : HoldsOnly package s.db) (hprivate : package.isPrivate = true) :
    s.db.hides none package.name = true := by
  apply hides_iff.mpr
  refine ⟨package, ?_, hprivate, fun _ hnone => by cases hnone⟩
  unfold Database.package Table.find?
  rw [h.1]
  simp

theorem filter_hidden {Row : Type} {rows : List Row} {name : Row → String} {db : Database}
    (hhides : db.hides none package.name = true) (h : ∀ row ∈ rows, name row = package.name) :
    rows.filter (fun row => !db.hides none (name row)) = [] := by
  apply List.filter_eq_nil_iff.mpr
  intro row hrow
  rw [h row hrow, hhides]
  simp

/-- Two registries that hold only one private package differ in nothing that a caller without
a principal may see. -/
theorem HoldsOnly.differ (hs : HoldsOnly package s.db) (ht : HoldsOnly package t.db)
    (hprivate : package.isPrivate = true) : DifferInHidden none s t := by
  have hhides := hs.hides hprivate
  have hhides' := ht.hides hprivate
  obtain ⟨hpackages, hroles, hstages, hversions, htags, htombstones⟩ := hs
  obtain ⟨hpackages', hroles', hstages', hversions', htags', htombstones'⟩ := ht
  constructor
  · intro name
    unfold Database.package Table.find?
    rw [hpackages, hpackages']
  · intro name organization
    unfold Database.packageRole Table.find?
    rw [hroles, hroles']
  · rw [filter_hidden hhides hstages, filter_hidden hhides' hstages']
  · rw [filter_hidden hhides hversions, filter_hidden hhides' hversions']
  · rw [filter_hidden hhides htags, filter_hidden hhides' htags']
  · rw [filter_hidden hhides htombstones, filter_hidden hhides' htombstones']
  · intro digest hshown
    rcases hshown with ⟨row, hrow, hshown, -⟩ | ⟨row, hrow, hshown, -⟩
    · rw [hversions row hrow, hhides] at hshown
      cases hshown
    · rw [hstages row hrow, hhides] at hshown
      cases hshown

end HoldsOnly

def privateDemo : PackageRow where
  name := "demo"
  organization := "acme"
  isPrivate := true
  createdAt := demoTime

theorem stagedDemo_holds : HoldsOnly privateDemo (run demoRegistry (.empty 1) stagedDemo).db ∧
    ((run demoRegistry (.empty 1) stagedDemo).db.version "demo" "1.0.0").isNone = true := by
  decide +kernel

theorem approvedDemo_holds : HoldsOnly privateDemo (run demoRegistry (.empty 1) approvedDemo).db ∧
    ((run demoRegistry (.empty 1) approvedDemo).db.version "demo" "1.0.0").isSome = true := by
  decide +kernel

theorem demo_differ : DifferInHidden none (run demoRegistry (.empty 1) stagedDemo)
    (run demoRegistry (.empty 1) approvedDemo) :=
  stagedDemo_holds.1.differ approvedDemo_holds.1 rfl

/-- Without a token, the answer to a download tells whether the private version is approved. -/
theorem approval_told : DifferInHidden none (run demoRegistry (.empty 1) stagedDemo)
      (run demoRegistry (.empty 1) approvedDemo) ∧
    (ReadRequest.downloadVersion "demo" "1.0.0").response demoRegistry (fun _ => "") [] none
      ⟨run demoRegistry (.empty 1) stagedDemo, [], []⟩ =
        .error (.notFound "package version not found") ∧
    (ReadRequest.downloadVersion "demo" "1.0.0").response demoRegistry (fun _ => "") [] none
      ⟨run demoRegistry (.empty 1) approvedDemo, [], []⟩ = .error .unauthorized := by
  have hmissing := Option.isNone_iff_eq_none.mp stagedDemo_holds.2
  obtain ⟨row, hrow⟩ := Option.isSome_iff_exists.mp approvedDemo_holds.2
  have hhidden : (run demoRegistry (.empty 1) approvedDemo).db.hides none "demo" = true :=
    approvedDemo_holds.1.hides rfl
  have howned := run_ownership_agrees demoRegistry 1 approvedDemo
  unfold ReadRequest.response ReadRequest.handle
  simp only
  rw [bind_failed (downloadVersion_missing hmissing []),
    bind_failed (downloadVersion_hidden howned hhidden hrow [])]
  exact ⟨demo_differ, rfl, rfl⟩

/-- The metadata of the package does not tell it. -/
theorem reads_agree_iff_demo : DifferInHidden none (run demoRegistry (.empty 1) stagedDemo)
      (run demoRegistry (.empty 1) approvedDemo) ∧
    ∀ faults times hashes hashes',
      (ReadRequest.packageMetadata "demo").response demoRegistry (fun _ => "") hashes none
        ⟨run demoRegistry (.empty 1) stagedDemo, faults, times⟩ =
      (ReadRequest.packageMetadata "demo").response demoRegistry (fun _ => "") hashes' none
        ⟨run demoRegistry (.empty 1) approvedDemo, faults, times⟩ := by
  have hagree := reads_agree_iff demoRegistry (fun _ => "") 1 1 stagedDemo approvedDemo none
    demo_differ (.packageMetadata "demo")
  simp only [ReadRequest.finds, iff_true] at hagree
  exact ⟨demo_differ, hagree⟩

end Oath.Registry
