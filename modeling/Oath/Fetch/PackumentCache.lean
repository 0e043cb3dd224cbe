import Mathlib.Data.Set.Function
import Oath.Fetch.Packuments

/-! Whose body a fetch returns. The cache is kept by file name alone, and its two files are
written one after the other: the body of the cache belongs to the registry and the package
asked for, and the etag to that body, as long as neither a registry changes nor two packages
share a file name nor the files come apart. -/

namespace Oath.Fetch
open Registry

/-! ## File names -/

theorem cachePath_eq {a b : String} : cachePath a = cachePath b ↔ safeName a = safeName b := by
  unfold cachePath
  rw [← String.toList_inj, String.toList_append, String.toList_append, List.append_left_inj,
    String.toList_inj]

theorem etagPath_eq {a b : String} : etagPath a = etagPath b ↔ safeName a = safeName b := by
  unfold etagPath
  rw [← String.toList_inj, String.toList_append, String.toList_append, List.append_left_inj,
    String.toList_inj]

theorem cachePath_ne_etagPath (a b : String) : cachePath a ≠ etagPath b := by
  intro h
  have hlast := congrArg (fun s : String => s.toList.getLast?) h
  have hjson : ".json".toList.getLast? = some 'n' := by decide
  have hetag : ".etag".toList.getLast? = some 'g' := by decide
  simp only [cachePath, etagPath, String.toList_append, List.getLast?_append, hjson, hetag,
    Option.some_or, Option.some.injEq] at hlast
  exact absurd hlast (by decide)

theorem readTrimmed_asBytes (etag : ETag) : readTrimmed (asBytes etag.text) = some etag.text.toList := by
  have hbytes : asBytes etag.text = etag.text.toList.flatMap String.utf8EncodeChar := by
    rw [← asBytes_ofList, String.ofList_toList]
  have hvalid : Utf8.isValid (asBytes etag.text) := by
    rw [hbytes, Utf8.isValid, Utf8.decode_encode]
    simp
  rw [readTrimmed, if_pos hvalid, hbytes, Utf8.lossy_encode, etag.trimmed]

/-! ## The cache and the answers -/

section Cache
variable (registry : String → String) (names : Set String)

/-- An etag that is kept for a package, in the process or in the directory. -/
def Kept (s : ClientState) (name : String) (etag : ETag) : Prop :=
  s.etagCache.find? name = some etag ∨
    ∃ file, s.files.find? (etagPath name) = some file ∧ file.bytes = asBytes etag.text

/-- Every body in the cache came from the package's registry, with the etag that is kept. -/
structure Cached (s : ClientState) : Prop where
  selected : ∀ name ∈ names, s.config.registryFor name = registry name
  etag : ∀ name ∈ names, ∀ file, s.files.find? (etagPath name) = some file →
    ∃ etag : ETag, file.bytes = asBytes etag.text
  body : ∀ name ∈ names, ∀ file, s.files.find? (cachePath name) = some file →
    ∃ answer ∈ s.answers, answer.registry = registry name ∧ answer.name = name ∧
      answer.body = file.bytes ∧ answer.time = file.modified ∧
      ∀ etag, Kept s name etag → answer.etag = some etag

/-- What is asked of a step: the registries of the packages stay the same, a body without an
etag comes only where none is kept, and a process that dies between the two files leaves no
older body beside the new etag. -/
def Meets (s : ClientState) : Event → Prop
  | .fetch name outcome => name ∈ names ∧ ∀ resp, outcome = .ok resp →
      (resp.status = 304 → (ifNoneMatch s name).isSome) ∧
      (resp.isSuccess → resp.etag = none → ∀ etag, ¬ Kept s name etag)
  | .crash name outcome writes => name ∈ names ∧ ∀ resp, outcome = .ok resp → resp.isSuccess →
      (resp.etag = none → ∀ etag, ¬ Kept s name etag) ∧
      (resp.etag.isSome → writes = 1 → s.files.find? (cachePath name) = none)
  | .restart config => ∀ name ∈ names, config.registryFor name = registry name
  | .wait _ => True

/-- The states of the runs whose steps meet this, from an empty cache directory. -/
inductive Reached {P : Type} (parse : List UInt8 → Except String P) : ClientState → Prop
  | start {config : RegistryConfig} (h : ∀ name ∈ names, config.registryFor name = registry name) :
    Reached parse { config }
  | step {s : ClientState} {event : Event} (hs : Reached parse s) (h : Meets registry names s event) :
    Reached parse (s.step parse event)

variable {registry names}

/-- What a fetch does to the cache: nothing, or it takes an answer in. -/
theorem fetchPackument_cases {P : Type} (parse : List UInt8 → Except String P) (s : ClientState)
    (name : String) (outcome : Except String Response) :
    ((fetchPackument parse s name outcome).writes = [] ∧
      (fetchPackument parse s name outcome).answer = none ∧
      (fetchPackument parse s name outcome).etagCache = s.etagCache) ∨
    ∃ resp, outcome = .ok resp ∧ resp.isSuccess ∧
      (fetchPackument parse s name outcome).writes =
        (resp.etag.map fun etag => (etagPath name, asBytes etag.text)).toList ++
          [(cachePath name, resp.body)] ∧
      (fetchPackument parse s name outcome).answer =
        some ⟨s.config.registryFor name, name, resp.body, resp.etag, s.now⟩ ∧
      (fetchPackument parse s name outcome).etagCache =
        match resp.etag with
        | some etag => s.etagCache.insert name etag
        | none => s.etagCache := by
  unfold fetchPackument
  cases freshCached parse s name with
  | some packument => exact Or.inl ⟨rfl, rfl, rfl⟩
  | none =>
    cases outcome with
    | error e => exact Or.inl ⟨rfl, rfl, rfl⟩
    | ok resp =>
      dsimp only
      split_ifs with h304 h404 hfailed
      · exact Or.inl ⟨rfl, rfl, rfl⟩
      · exact Or.inl ⟨rfl, rfl, rfl⟩
      · exact Or.inl ⟨rfl, rfl, rfl⟩
      · have hsuccess : resp.isSuccess := by simpa using hfailed
        exact Or.inr ⟨resp, rfl, hsuccess, rfl, rfl, rfl⟩

/-- The directory after a body has been taken in. -/
theorem find?_store_answer (files : OrderedMap String CacheFile) (now : ℕ) (name : String)
    (etag : Option ETag) (body : List UInt8) (path : String) :
    (store files now ((etag.map fun etag => (etagPath name, asBytes etag.text)).toList ++
        [(cachePath name, body)])).find? path =
      if path = cachePath name then some ⟨body, now⟩
      else if path = etagPath name then
        (etag.map fun etag => ⟨asBytes etag.text, now⟩).or (files.find? path)
      else files.find? path := by
  cases etag with
  | none =>
    show (files.insert (cachePath name) ⟨body, now⟩).find? path = _
    rw [OrderedMap.find?_insert]
    simp
  | some etag =>
    show ((files.insert (etagPath name) ⟨asBytes etag.text, now⟩).insert (cachePath name)
      ⟨body, now⟩).find? path = _
    rw [OrderedMap.find?_insert, OrderedMap.find?_insert]
    simp

/-- Less that is kept, and more answers. -/
theorem Cached.less {s s' : ClientState} (h : Cached registry names s)
    (hselected : ∀ name ∈ names, s'.config.registryFor name = registry name)
    (hfiles : s'.files = s.files) (hanswers : s.answers ⊆ s'.answers)
    (hkept : ∀ name etag, s'.etagCache.find? name = some etag →
      s.etagCache.find? name = some etag) : Cached registry names s' := by
  constructor
  · exact hselected
  · rw [hfiles]
    exact h.etag
  · intro name hname file hfile
    rw [hfiles] at hfile
    obtain ⟨answer, hanswer, hreg, hnm, hbody, htime, hetag⟩ := h.body name hname file hfile
    refine ⟨answer, hanswers hanswer, hreg, hnm, hbody, htime, ?_⟩
    rintro etag (hmemory | ⟨other, hother, hbytes⟩)
    · exact hetag etag (Or.inl (hkept name etag hmemory))
    · rw [hfiles] at hother
      exact hetag etag (Or.inr ⟨other, hother, hbytes⟩)

/-- A body that is taken in with its etag. -/
theorem Cached.answered {s s' : ClientState} (h : Cached registry names s)
    (hinj : Set.InjOn safeName names) {name : String} (hname : name ∈ names) (resp : Response)
    (hconfig : s'.config = s.config)
    (hfiles : s'.files = store s.files s.now
      ((resp.etag.map fun etag => (etagPath name, asBytes etag.text)).toList ++
        [(cachePath name, resp.body)]))
    (hanswers : s'.answers =
      ⟨s.config.registryFor name, name, resp.body, resp.etag, s.now⟩ :: s.answers)
    (hmemory : ∀ other e, s'.etagCache.find? other = some e →
      (other = name ∧ resp.etag = some e) ∨ s.etagCache.find? other = some e)
    (hname_memory : ∀ e, resp.etag = some e → ∀ e', s'.etagCache.find? name = some e' → e' = e)
    (hnone : resp.etag = none → ∀ e, ¬ Kept s name e) : Cached registry names s' := by
  obtain ⟨status, statusText, etag, body⟩ := resp
  dsimp only at hfiles hanswers hmemory hname_memory hnone
  have hother : ∀ other ∈ names, other ≠ name →
      cachePath other ≠ cachePath name ∧ etagPath other ≠ etagPath name := by
    intro other hmem hne
    have hsafe : safeName other ≠ safeName name := fun heq => hne (hinj hmem hname heq)
    exact ⟨fun heq => hsafe (cachePath_eq.mp heq), fun heq => hsafe (etagPath_eq.mp heq)⟩
  have hetagFile : ∀ other, s'.files.find? (etagPath other) =
      if etagPath other = etagPath name then
        (etag.map fun etag => ⟨asBytes etag.text, s.now⟩).or (s.files.find? (etagPath other))
      else s.files.find? (etagPath other) := by
    intro other
    rw [hfiles, find?_store_answer, if_neg (Ne.symm (cachePath_ne_etagPath _ _))]
  have hcacheFile : ∀ other, s'.files.find? (cachePath other) =
      if cachePath other = cachePath name then some ⟨body, s.now⟩
      else s.files.find? (cachePath other) := by
    intro other
    rw [hfiles, find?_store_answer]
    split_ifs with hsame hetag
    · rfl
    · exact absurd hetag (cachePath_ne_etagPath _ _)
    · rfl
  constructor
  · rw [hconfig]
    exact h.selected
  · intro other hmem file hfile
    by_cases heq : other = name
    · subst heq
      rw [hetagFile, if_pos rfl] at hfile
      cases etag with
      | none => exact h.etag other hmem file hfile
      | some e =>
        obtain rfl := Option.some.inj hfile
        exact ⟨e, rfl⟩
    · rw [hetagFile, if_neg (hother other hmem heq).2] at hfile
      exact h.etag other hmem file hfile
  · intro other hmem file hfile
    by_cases heq : other = name
    · subst heq
      rw [hcacheFile, if_pos rfl] at hfile
      obtain rfl := Option.some.inj hfile
      refine ⟨_, by rw [hanswers]; exact List.mem_cons_self, h.selected other hmem, rfl, rfl, rfl, ?_⟩
      intro kept hkept
      cases etag with
      | none =>
        -- nothing was kept before, and nothing is kept now
        exfalso
        rcases hkept with hin | ⟨etagFile, hin, hbytes⟩
        · rcases hmemory other kept hin with ⟨-, hsome⟩ | hold
          · cases hsome
          · exact hnone rfl kept (Or.inl hold)
        · rw [hetagFile, if_pos rfl] at hin
          exact hnone rfl kept (Or.inr ⟨etagFile, hin, hbytes⟩)
      | some e =>
        rcases hkept with hin | ⟨etagFile, hin, hbytes⟩
        · rw [hname_memory e rfl kept hin]
        · rw [hetagFile, if_pos rfl] at hin
          obtain rfl := Option.some.inj hin
          rw [ETag.ext (asBytes_injective hbytes)]
    · obtain ⟨hcache, hetagNe⟩ := hother other hmem heq
      rw [hcacheFile, if_neg hcache] at hfile
      obtain ⟨answer, hanswer, hreg, hnm, hbody, htime, hold⟩ := h.body other hmem file hfile
      refine ⟨answer, by rw [hanswers]; exact List.mem_cons_of_mem _ hanswer, hreg, hnm, hbody,
        htime, ?_⟩
      rintro kept (hin | ⟨etagFile, hin, hbytes⟩)
      · rcases hmemory other kept hin with ⟨hsame, -⟩ | hin
        · exact absurd hsame heq
        · exact hold kept (Or.inl hin)
      · rw [hetagFile, if_neg hetagNe] at hin
        exact hold kept (Or.inr ⟨etagFile, hin, hbytes⟩)

/-- An etag without a body beside it. -/
theorem Cached.etagOnly {s s' : ClientState} (h : Cached registry names s)
    {name : String} (e : ETag) (hconfig : s'.config = s.config)
    (hfiles : s'.files = s.files.insert (etagPath name) ⟨asBytes e.text, s.now⟩)
    (hanswers : s.answers ⊆ s'.answers) (hmemory : s'.etagCache = .empty)
    (hbody : s.files.find? (cachePath name) = none) : Cached registry names s' := by
  have hcacheFile : ∀ other, s'.files.find? (cachePath other) = s.files.find? (cachePath other) := by
    intro other
    rw [hfiles, OrderedMap.find?_insert, if_neg (cachePath_ne_etagPath _ _)]
  constructor
  · rw [hconfig]
    exact h.selected
  · intro other hmem file hfile
    rw [hfiles, OrderedMap.find?_insert] at hfile
    split_ifs at hfile with hsame
    · obtain rfl := Option.some.inj hfile
      exact ⟨e, rfl⟩
    · exact h.etag other hmem file hfile
  · intro other hmem file hfile
    rw [hcacheFile] at hfile
    have hne : safeName other ≠ safeName name := by
      intro heq
      rw [cachePath_eq.mpr heq, hbody] at hfile
      cases hfile
    obtain ⟨answer, hanswer, hreg, hnm, hbytes, htime, hold⟩ := h.body other hmem file hfile
    refine ⟨answer, hanswers hanswer, hreg, hnm, hbytes, htime, ?_⟩
    rintro kept (hin | ⟨etagFile, hin, heq⟩)
    · rw [hmemory] at hin
      cases hin
    · rw [hfiles, OrderedMap.find?_insert, if_neg fun hsame => hne (etagPath_eq.mp hsame)] at hin
      exact hold kept (Or.inr ⟨etagFile, hin, heq⟩)

theorem Cached.step {P : Type} {parse : List UInt8 → Except String P} {s : ClientState}
    {event : Event} (h : Cached registry names s) (hinj : Set.InjOn safeName names)
    (hmeets : Meets registry names s event) : Cached registry names (s.step parse event) := by
  cases event with
  | wait seconds => exact h.less h.selected rfl (List.Subset.refl _) fun _ _ hkept => hkept
  | restart config =>
    refine h.less hmeets rfl (List.Subset.refl _) ?_
    intro name etag hkept
    cases hkept
  | fetch name outcome =>
    obtain ⟨hname, hmeets⟩ := hmeets
    rcases fetchPackument_cases parse s name outcome with
      ⟨hwrites, hanswer, hmemory⟩ | ⟨resp, rfl, hsuccess, hwrites, hanswer, hmemory⟩
    · refine h.less h.selected ?_ ?_ ?_
      · simp only [ClientState.step, hwrites]
        rfl
      · simp only [ClientState.step, hanswer]
        exact List.Subset.refl _
      · intro other etag hkept
        simp only [ClientState.step, hmemory] at hkept
        exact hkept
    · have hkept : ∀ other e, (match resp.etag with
          | some etag => s.etagCache.insert name etag
          | none => s.etagCache).find? other = some e →
          (other = name ∧ resp.etag = some e) ∨ (resp.etag.isSome → other ≠ name) ∧
            s.etagCache.find? other = some e := by
        intro other e hfind
        cases hetag : resp.etag with
        | none =>
          rw [hetag] at hfind
          exact Or.inr ⟨nofun, hfind⟩
        | some etag =>
          rw [hetag] at hfind
          dsimp only at hfind
          rw [OrderedMap.find?_insert] at hfind
          split_ifs at hfind with hsame
          · exact Or.inl ⟨hsame, hfind⟩
          · exact Or.inr ⟨fun _ => hsame, hfind⟩
      refine h.answered hinj hname resp rfl (by simp only [ClientState.step, hwrites])
        (by simp only [ClientState.step, hanswer]; rfl) ?_ ?_ ((hmeets resp rfl).2 hsuccess)
      · intro other e hfind
        simp only [ClientState.step, hmemory] at hfind
        rcases hkept other e hfind with hnew | ⟨-, hold⟩
        · exact Or.inl hnew
        · exact Or.inr hold
      · intro e hetag e' hfind
        simp only [ClientState.step, hmemory] at hfind
        rcases hkept name e' hfind with ⟨-, hnew⟩ | ⟨hne, -⟩
        · rw [hetag] at hnew
          exact (Option.some.inj hnew).symm
        · exact absurd rfl (hne (by rw [hetag]; rfl))
  | crash name outcome writes =>
    obtain ⟨hname, hmeets⟩ := hmeets
    rcases fetchPackument_cases parse s name outcome with
      ⟨hwrites, hanswer, hmemory⟩ | ⟨resp, rfl, hsuccess, hwrites, hanswer, hmemory⟩
    · refine h.less h.selected ?_ ?_ ?_
      · simp only [ClientState.step, hwrites, List.take_nil]
        rfl
      · simp only [ClientState.step, hanswer]
        exact List.Subset.refl _
      · intro other etag hkept
        cases hkept
    · obtain ⟨hnone, hlost⟩ := hmeets resp rfl hsuccess
      have hmore : s.answers ⊆ (s.step parse (.crash name (.ok resp) writes)).answers := by
        simp only [ClientState.step, hanswer]
        exact fun answer hmem => List.mem_cons_of_mem _ hmem
      -- how many of the two files were written
      rcases Nat.eq_zero_or_pos writes with rfl | hpos
      · refine h.less h.selected (by simp only [ClientState.step, List.take_zero]; rfl) hmore ?_
        intro other etag hkept
        cases hkept
      · by_cases hone : writes = 1 ∧ resp.etag.isSome
        · obtain ⟨rfl, hsome⟩ := hone
          obtain ⟨e, he⟩ := Option.isSome_iff_exists.mp hsome
          refine h.etagOnly e rfl ?_ hmore rfl (hlost hsome rfl)
          simp only [ClientState.step, hwrites, he]
          rfl
        · have hall : ((resp.etag.map fun etag => (etagPath name, asBytes etag.text)).toList ++
              [(cachePath name, resp.body)]).take writes =
              (resp.etag.map fun etag => (etagPath name, asBytes etag.text)).toList ++
                [(cachePath name, resp.body)] := by
            apply List.take_of_length_le
            cases hetag : resp.etag with
            | none =>
              show 1 ≤ writes
              exact hpos
            | some e =>
              have hne : writes ≠ 1 := fun heq => hone ⟨heq, by rw [hetag]; rfl⟩
              show 2 ≤ writes
              omega
          refine h.answered hinj hname resp rfl
            (by simp only [ClientState.step, hwrites, hall])
            (by simp only [ClientState.step, hanswer]; rfl) ?_ ?_ hnone
          · intro other e hkept
            cases hkept
          · intro e _ e' hkept
            cases hkept

theorem cached_of_reached {P : Type} {parse : List UInt8 → Except String P} {s : ClientState}
    (hinj : Set.InjOn safeName names) (h : Reached registry names parse s) :
    Cached registry names s := by
  induction h with
  | start hconfig =>
    constructor
    · exact hconfig
    · intro name _ file hfile
      cases hfile
    · intro name _ file hfile
      cases hfile
  | step _ hmeets ih => exact ih.step hinj hmeets

/-! ## What a fetch returns -/

/-- The answer of the registry that a packument can be taken from: new enough, or confirmed by
the etag that came with it. -/
def Vouches {P : Type} (parse : List UInt8 → Except String P) (s : ClientState) (name : String)
    (outcome : Except String Response) (packument : P) (answer : Answer) : Prop :=
  answer.registry = s.config.registryFor name ∧ answer.name = name ∧
    (parse answer.body).toOption = some packument ∧
    (s.now < answer.time + cacheTtlSecs ∨
      outcome.toOption.map Response.status = some 304 ∧ answer.etag.isSome ∧
        ifNoneMatch s name = answer.etag.map fun etag => etag.text.toList)

instance {P : Type} [DecidableEq P] (parse : List UInt8 → Except String P) (s : ClientState)
    (name : String) (outcome : Except String Response) (packument : P) (answer : Answer) :
    Decidable (Vouches parse s name outcome packument answer) := by
  unfold Vouches
  infer_instance

theorem toOption_of_mapError {P : Type} {x : Except String P} {f : String → String} {p : P}
    (h : x.mapError f = .ok p) : x.toOption = some p := by
  cases x with
  | error e => cases h
  | ok found =>
    obtain rfl := Except.ok.inj h
    rfl

/-- The etag of a request is one that is kept. -/
theorem ifNoneMatch_kept {s : ClientState} (h : Cached registry names s) {name : String}
    (hname : name ∈ names) (hsome : (ifNoneMatch s name).isSome) :
    ∃ etag, Kept s name etag ∧ ifNoneMatch s name = some etag.text.toList := by
  unfold ifNoneMatch at hsome ⊢
  cases hmemory : s.etagCache.find? name with
  | some etag => exact ⟨etag, Or.inl hmemory, rfl⟩
  | none =>
    rw [hmemory] at hsome
    cases hfile : s.files.find? (etagPath name) with
    | none =>
      rw [hfile] at hsome
      cases hsome
    | some file =>
      obtain ⟨etag, hbytes⟩ := h.etag name hname file hfile
      refine ⟨etag, Or.inr ⟨file, hfile, hbytes⟩, ?_⟩
      rw [Option.bind_some, hbytes, readTrimmed_asBytes]

/-- In a run whose steps meet the conditions every packument comes from the registry that the
configuration selects, and no two packages share a file of the cache. -/
theorem packuments_vouched {P : Type} {parse : List UInt8 → Except String P} {s : ClientState}
    (hinj : Set.InjOn safeName names) (hreached : Reached registry names parse s) {name : String}
    {outcome : Except String Response} (hmeets : Meets registry names s (.fetch name outcome)) :
    (∀ packument, (fetchPackument parse s name outcome).result = .ok packument →
      ∃ answer ∈ (s.step parse (.fetch name outcome)).answers,
        Vouches parse s name outcome packument answer) ∧
    ∀ other ∈ names, other ≠ name →
      cachePath other ≠ cachePath name ∧ etagPath other ≠ etagPath name := by
  have hcached := cached_of_reached hinj hreached
  obtain ⟨hname, hmeets⟩ := hmeets
  constructor
  · intro packument hresult
    have hold : s.answers ⊆ (s.step parse (.fetch name outcome)).answers := fun answer hmem =>
      List.mem_append_right _ hmem
    have hselected := hcached.selected name hname
    cases hfresh : freshCached parse s name with
    | some fresh =>
      unfold fetchPackument at hresult
      rw [hfresh] at hresult
      obtain rfl := Except.ok.inj hresult
      obtain ⟨file, hfile, hage⟩ := Option.bind_eq_some_iff.mp hfresh
      split_ifs at hage with hnew
      obtain ⟨answer, hanswer, hreg, hnm, hbody, htime, -⟩ := hcached.body name hname file hfile
      refine ⟨answer, hold hanswer, hreg.trans hselected.symm, hnm, hbody ▸ hage, Or.inl ?_⟩
      rw [htime]
      omega
    | none =>
      cases outcome with
      | error e =>
        unfold fetchPackument at hresult
        rw [hfresh] at hresult
        cases hresult
      | ok resp =>
        unfold fetchPackument at hresult
        rw [hfresh] at hresult
        dsimp only at hresult
        split_ifs at hresult with h304 h404 hfailed
        · -- the body of the cache, which the etag of the request came with
          unfold loadCachedPackument at hresult
          cases hfile : s.files.find? (cachePath name) with
          | none =>
            rw [hfile] at hresult
            cases hresult
          | some file =>
            rw [hfile] at hresult
            obtain ⟨answer, hanswer, hreg, hnm, hbody, -, hetag⟩ :=
              hcached.body name hname file hfile
            obtain ⟨etag, hkept, hsent⟩ :=
              ifNoneMatch_kept hcached hname ((hmeets resp rfl).1 h304)
            have hcame := hetag etag hkept
            have hparse : (parse answer.body).toOption = some packument := by
              rw [hbody]
              exact toOption_of_mapError hresult
            refine ⟨answer, hold hanswer, hreg.trans hselected.symm, hnm, hparse, Or.inr ?_⟩
            refine ⟨congrArg some h304, by rw [hcame]; rfl, ?_⟩
            rw [hsent, hcame]
            rfl
        · have hanswer : (fetchPackument parse s name (.ok resp)).answer =
              some ⟨s.config.registryFor name, name, resp.body, resp.etag, s.now⟩ := by
            unfold fetchPackument
            rw [hfresh]
            dsimp only
            rw [if_neg h304, if_neg h404, if_neg hfailed]
          have hparse : (parse resp.body).toOption = some packument := toOption_of_mapError hresult
          refine ⟨⟨s.config.registryFor name, name, resp.body, resp.etag, s.now⟩, ?_, rfl, rfl,
            hparse, Or.inl ?_⟩
          · rw [ClientState.step]
            simp only [hanswer]
            exact List.mem_cons_self
          · show s.now < s.now + cacheTtlSecs
            exact Nat.lt_add_of_pos_right (by decide)
  · intro other hother hne
    have hsafe : safeName other ≠ safeName name := fun heq => hne (hinj hother hname heq)
    exact ⟨fun heq => hsafe (cachePath_eq.mp heq), fun heq => hsafe (etagPath_eq.mp heq)⟩

end Cache

/-! ## Runs in which the cache answers for another -/

namespace Demo

def first : List UInt8 := asBytes "\x7b\"dist-tags\":\x7b\"latest\":\"1.0.0\"\x7d\x7d"
def second : List UInt8 := asBytes "\x7b\"dist-tags\":\x7b\"latest\":\"2.0.0\"\x7d\x7d"

/-- The latest version of a packument. -/
def parse (bytes : List UInt8) : Except String String :=
  if bytes = first then .ok "1.0.0"
  else if bytes = second then .ok "2.0.0"
  else .error "expected value at line 1 column 1"

def oldTag : ETag := ⟨"\"a1\"", by decide⟩
def newTag : ETag := ⟨"\"b2\"", by decide⟩

def returned (etag : Option ETag) (body : List UInt8) : Except String Response :=
  .ok ⟨200, "200 OK", etag, body⟩

def notModified : Except String Response := .ok ⟨304, "304 Not Modified", none, []⟩

/-- Another registry, another package with the same file names, and a process that dies after
it has written the etag. -/
def runs : List (List Event × String × Except String Response) := [
  ([.fetch "left-pad" (returned none first),
      .restart { registryUrl := "https://registry.example" }], "left-pad", .error "offline"),
  ([.fetch "@a/b__c" (returned none first)], "@a__b/c", .error "offline"),
  ([.fetch "left-pad" (returned (some oldTag) first), .wait 400,
      .crash "left-pad" (returned (some newTag) second) 1], "left-pad", notModified)]

end Demo

open Demo in
/-- A first fetch and its return from the cache. -/
theorem packuments_vouched_first :
    let s : ClientState := ClientState.step parse { config := {} } (.fetch "left-pad"
      (returned (some oldTag) first))
    ∃ answer ∈ (s.step parse (.fetch "left-pad" (.error "offline"))).answers,
      Vouches parse s "left-pad" (.error "offline") "1.0.0" answer := by
  have hreached : Reached (fun _ => "https://registry.npmjs.org") {"left-pad"} parse
      (ClientState.step parse { config := {} } (.fetch "left-pad"
        (returned (some oldTag) first))) := by
    apply Reached.step
    · apply Reached.start
      rintro name rfl
      decide
    · refine ⟨rfl, ?_⟩
      intro resp hresp
      obtain rfl := Except.ok.inj hresp
      refine ⟨?_, ?_⟩
      · intro h304
        cases h304
      · intro _ hnone
        cases hnone
  refine (packuments_vouched (Set.injOn_singleton _ _) hreached ⟨rfl, ?_⟩).1 "1.0.0" (by rfl)
  intro resp hresp
  cases hresp

open Demo in
theorem packuments_unvouched : runs.all fun run =>
    let s := run.1.foldl (ClientState.step parse) { config := {} }
    (fetchPackument parse s run.2.1 run.2.2).result.toOption.any fun packument =>
      (s.step parse (.fetch run.2.1 run.2.2)).answers.all fun answer =>
        !decide (Vouches parse s run.2.1 run.2.2 packument answer) := by
  decide

end Oath.Fetch
