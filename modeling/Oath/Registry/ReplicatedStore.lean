import Oath.Library.Programs
import Oath.Registry.ArtifactStore

/-! Calls that put and get tarballs at the same time, over stores of which each can fail and lose
objects. -/

namespace Oath.Registry

namespace ArtifactStore

/-- The primary store, and after it the replicas. -/
def storeAt (s : ArtifactStore) : ℕ → ObjectStore
  | 0 => s.primary
  | i + 1 => s.replicas.getD i .empty

def setStore (s : ArtifactStore) : ℕ → ObjectStore → ArtifactStore
  | 0, store => { s with primary := store }
  | i + 1, store => { s with replicas := s.replicas.set i store }

end ArtifactStore

/-! ## The calls, one store operation after the other -/

namespace ArtifactCall

def onStore {α : Type} (k : ℕ) (f : ObjectStore → Except String (α × ObjectStore)) :
    Program ArtifactStore α :=
  .call (fun s => (f (s.storeAt k)).map fun (a, store) => (a, s.setStore k store)) .done

def putOne (k : ℕ) (object : StoredObject) : Program ArtifactStore Unit := do
  let created ← onStore k fun store =>
    match store.insert? object with
    | some store' => .ok (true, store')
    | none => .ok (false, store)
  if created then pure ()
  else
    match ← onStore k fun store => .ok (store.find? object.path, store) with
    | none => .failed ("Object at location " ++ object.path ++ " not found")
    | some existing =>
      if existing.bytes = object.bytes then pure ()
      else .failed "immutable object digest collision"

def putReplicas (object : StoredObject) : List ℕ → Program ArtifactStore Unit
  | [] => pure ()
  | k :: rest => do
    putOne (k + 1) object
    putReplicas object rest

def putImmutable (replicas : ℕ) (digest : String) (bytes : List UInt8) :
    Program ArtifactStore Unit := do
  putOne 0 { path := digest, bytes }
  putReplicas { path := digest, bytes } (List.range replicas)

def getReplicas (digest : String) : List ℕ → Program ArtifactStore (List UInt8)
  | [] => .failed ("artifact " ++ digest ++ " was not found in primary or replica stores")
  | k :: rest => do
    match ← onStore (k + 1) fun store => .ok (store.find? digest, store) with
    | some object =>
      putOne 0 { path := digest, bytes := object.bytes }
      pure object.bytes
    | none => getReplicas digest rest

def get (replicas : ℕ) (digest : String) : Program ArtifactStore (List UInt8) := do
  match ← onStore 0 fun store => .ok (store.find? digest, store) with
  | some object => pure object.bytes
  | none => getReplicas digest (List.range replicas)

end ArtifactCall

inductive ArtifactRequest
  | put (digest : String) (bytes : List UInt8)
  | get (digest : String)
deriving DecidableEq, Repr

/-- The call for a request; its answer is what was found. -/
def ArtifactRequest.call (replicas : ℕ) :
    ArtifactRequest → Program ArtifactStore (Option (List UInt8))
  | put digest bytes => do
    ArtifactCall.putImmutable replicas digest bytes
    pure none
  | get digest => do
    let bytes ← ArtifactCall.get replicas digest
    pure (some bytes)

/-- An object that a store loses. -/
structure Loss where
  store : ℕ
  path : String
deriving DecidableEq, Repr

def ArtifactStore.lose (loss : Loss) (s : ArtifactStore) : ArtifactStore :=
  s.setStore loss.store ((s.storeAt loss.store).delete fun object => object.path = loss.path)

/-! ## What the stores hold -/

/-- One of these contents, under its digest. -/
def Addresses (sha : Sha256) (contents : Set (List UInt8)) (path : String)
    (bytes : List UInt8) : Prop := bytes ∈ contents ∧ path = hexSha256 sha bytes

def AddressedStore (sha : Sha256) (contents : Set (List UInt8)) (store : ObjectStore) : Prop :=
  ∀ path object, store.find? path = some object → Addresses sha contents path object.bytes

def Addressed (sha : Sha256) (contents : Set (List UInt8)) (s : ArtifactStore) : Prop :=
  ∀ k, AddressedStore sha contents (s.storeAt k)

section Safe
variable {sha : Sha256} {contents : Set (List UInt8)}

theorem storeAt_setStore (s : ArtifactStore) (k l : ℕ) (store : ObjectStore) :
    (s.setStore k store).storeAt l = s.storeAt l ∨ (s.setStore k store).storeAt l = store ∧ l = k := by
  cases k with
  | zero =>
    cases l with
    | zero => exact Or.inr ⟨rfl, rfl⟩
    | succ l => exact Or.inl rfl
  | succ k =>
    cases l with
    | zero => exact Or.inl rfl
    | succ l =>
      show (s.replicas.set k store).getD l .empty = s.replicas.getD l .empty ∨ _
      by_cases hsame : k = l
      · by_cases hlength : k < s.replicas.length
        · refine Or.inr ⟨?_, by rw [hsame]⟩
          show (s.replicas.set k store).getD l .empty = store
          rw [← hsame, List.getD_eq_getElem?_getD, List.getElem?_set_self hlength]
          rfl
        · rw [List.set_eq_of_length_le (not_lt.mp hlength)]
          exact Or.inl rfl
      · rw [List.getD_eq_getElem?_getD, List.getD_eq_getElem?_getD, List.getElem?_set_ne hsame]
        exact Or.inl rfl

theorem Addressed.setStore {s : ArtifactStore} (h : Addressed sha contents s) {k : ℕ}
    {store : ObjectStore} (hstore : AddressedStore sha contents store) :
    Addressed sha contents (s.setStore k store) := by
  intro l
  rcases storeAt_setStore s k l store with hkept | ⟨hnew, -⟩
  · rw [hkept]
    exact h l
  · rw [hnew]
    exact hstore

theorem AddressedStore.insert? {store store' : ObjectStore} {object : StoredObject}
    (h : AddressedStore sha contents store)
    (hobject : Addresses sha contents object.path object.bytes)
    (hinsert : store.insert? object = some store') : AddressedStore sha contents store' := by
  intro path found hfound
  rw [Table.find?_insert? hinsert] at hfound
  split_ifs at hfound with hpath
  · obtain rfl := Option.some.inj hfound
    rw [← hpath]
    exact hobject
  · exact h path found hfound

/-- A store loses objects, it does not change them. -/
theorem AddressedStore.delete {store : ObjectStore} (h : AddressedStore sha contents store)
    (p : StoredObject → Bool) : AddressedStore sha contents (store.delete p) := by
  intro path object hobject
  rw [Table.find?_delete] at hobject
  exact h path object (Option.filter_eq_some_iff.mp hobject).1

theorem Addressed.lose {s : ArtifactStore} (h : Addressed sha contents s) (loss : Loss) :
    Addressed sha contents (s.lose loss) := h.setStore ((h loss.store).delete _)

end Safe

/-! ## What the calls do -/

namespace ArtifactCall
open Program

section Safe
variable {sha : Sha256} {contents : Set (List UInt8)}

theorem onStore_safe {α : Type} {k : ℕ} {f : ObjectStore → Except String (α × ObjectStore)}
    {Q : α → Prop} (h : ∀ store, AddressedStore sha contents store → ∀ a store',
      f store = .ok (a, store') → AddressedStore sha contents store' ∧ Q a) :
    Safe (Addressed sha contents) Q (onStore k f) := by
  refine safe_call fun s hs a s' hcall => ?_
  cases hf : f (s.storeAt k) with
  | error message =>
    rw [hf] at hcall
    cases hcall
  | ok result =>
    obtain ⟨b, store⟩ := result
    rw [hf] at hcall
    obtain ⟨rfl, rfl⟩ := Prod.mk.inj (Except.ok.inj hcall)
    obtain ⟨hstore, hb⟩ := h _ (hs k) b store hf
    exact ⟨hs.setStore hstore, hb⟩

/-- Reading changes nothing, and what is found is addressed. -/
theorem find_safe (k : ℕ) (path : String) :
    Safe (Addressed sha contents)
      (fun found => ∀ object ∈ found, Addresses sha contents path object.bytes)
      (onStore k fun store => .ok (store.find? path, store)) := by
  refine onStore_safe fun store hstore found store' hcall => ?_
  obtain ⟨rfl, rfl⟩ := Prod.mk.inj (Except.ok.inj hcall)
  exact ⟨hstore, fun object hobject => hstore path object hobject⟩

theorem putOne_safe (k : ℕ) (object : StoredObject)
    (hobject : Addresses sha contents object.path object.bytes) :
    Safe (Addressed sha contents) (fun _ => True) (putOne k object) := by
  refine safe_bind (P := fun _ => True) (onStore_safe fun store hstore created store' hcall => ?_)
    fun created _ => ?_
  · cases hinsert : store.insert? object with
    | none =>
      rw [hinsert] at hcall
      obtain ⟨-, rfl⟩ := Prod.mk.inj (Except.ok.inj hcall)
      exact ⟨hstore, trivial⟩
    | some inserted =>
      rw [hinsert] at hcall
      obtain ⟨-, rfl⟩ := Prod.mk.inj (Except.ok.inj hcall)
      exact ⟨hstore.insert? hobject hinsert, trivial⟩
  · cases created with
    | true => exact safe_pure trivial
    | false =>
      refine safe_bind (find_safe k object.path) fun found _ => ?_
      cases found with
      | none => exact safe_failed _
      | some existing =>
        dsimp only
        split_ifs
        · exact safe_pure trivial
        · exact safe_failed _

theorem putReplicas_safe {object : StoredObject}
    (hobject : Addresses sha contents object.path object.bytes) (replicas : List ℕ) :
    Safe (Addressed sha contents) (fun _ => True) (putReplicas object replicas) := by
  induction replicas with
  | nil => exact safe_pure trivial
  | cons k rest ih => exact safe_bind (putOne_safe (k + 1) object hobject) fun _ _ => ih

theorem putImmutable_safe (replicas : ℕ) {digest : String} {bytes : List UInt8}
    (h : Addresses sha contents digest bytes) :
    Safe (Addressed sha contents) (fun _ => True) (putImmutable replicas digest bytes) :=
  safe_bind (putOne_safe 0 ⟨digest, bytes⟩ h) fun _ _ => putReplicas_safe h _

theorem getReplicas_safe (digest : String) (replicas : List ℕ) :
    Safe (Addressed sha contents) (Addresses sha contents digest)
      (getReplicas digest replicas) := by
  induction replicas with
  | nil => exact safe_failed _
  | cons k rest ih =>
    refine safe_bind (find_safe (k + 1) digest) fun found hfound => ?_
    cases found with
    | none => exact ih
    | some object =>
      have hobject := hfound object rfl
      exact safe_bind (putOne_safe 0 ⟨digest, object.bytes⟩ hobject)
        fun _ _ => safe_pure hobject

/-- What is found at a digest is one of the contents with this digest. -/
theorem get_safe (replicas : ℕ) (digest : String) :
    Safe (Addressed sha contents) (Addresses sha contents digest) (get replicas digest) := by
  refine safe_bind (find_safe 0 digest) fun found hfound => ?_
  cases found with
  | none => exact getReplicas_safe digest _
  | some object => exact safe_pure (hfound object rfl)

end Safe

/-! ## A call on its own -/

section Alone

/-- A program for one of the stores, which is the primary's or a replica's. -/
def onAt {α : Type} (k : ℕ) (x : Service ObjectStore α) : Service ArtifactStore α :=
  Service.within (fun s => s.storeAt k) (fun store s => s.setStore k store) x

theorem setStore_storeAt (s : ArtifactStore) (k : ℕ) : s.setStore k (s.storeAt k) = s := by
  cases k with
  | zero => rfl
  | succ i =>
    show { s with replicas := s.replicas.set i (s.replicas.getD i .empty) } = s
    have hsame : s.replicas.set i (s.replicas.getD i .empty) = s.replicas := by
      by_cases hlength : i < s.replicas.length
      · rw [List.getD_eq_getElem?_getD, List.getElem?_eq_getElem hlength, Option.getD_some,
          List.set_getElem_self]
      · exact List.set_eq_of_length_le (not_lt.mp hlength)
    rw [hsame]

theorem storeAt_setStore_self {s : ArtifactStore} {k : ℕ} (h : k ≤ s.replicas.length)
    (store : ObjectStore) : (s.setStore k store).storeAt k = store := by
  cases k with
  | zero => rfl
  | succ i =>
    show (s.replicas.set i store).getD i .empty = store
    rw [List.getD_eq_getElem?_getD, List.getElem?_set_self h]
    rfl

theorem setStore_setStore (s : ArtifactStore) (k : ℕ) (store other : ObjectStore) :
    (s.setStore k store).setStore k other = s.setStore k other := by
  cases k with
  | zero => rfl
  | succ i =>
    show { s with replicas := (s.replicas.set i store).set i other } = _
    rw [List.set_set]
    rfl

theorem length_setStore (s : ArtifactStore) (k : ℕ) (store : ObjectStore) :
    (s.setStore k store).replicas.length = s.replicas.length := by
  cases k with
  | zero => rfl
  | succ i => exact List.length_set

theorem length_onAt {α : Type} (k : ℕ) (x : Service ObjectStore α) (w : World ArtifactStore) :
    (onAt k x w).state.state.replicas.length = w.state.replicas.length := by
  rw [onAt, Service.within_state, length_setStore]

theorem toService_onStore {α : Type} (k : ℕ) (f : ObjectStore → Except String (α × ObjectStore)) :
    (onStore k f).toService = onAt k (Service.call f) := by
  funext w
  have hwithin : onAt k (Service.call f) w = Service.call (fun s =>
      (f (s.storeAt k)).map fun (a, store) => (a, s.setStore k store)) w :=
    Service.within_call f (setStore_storeAt w.state k)
  rw [hwithin]
  exact congrFun (toService_call _) w

theorem onAt_bind {α β : Type} {k : ℕ} {w : World ArtifactStore} (h : k ≤ w.state.replicas.length)
    (x : Service ObjectStore α) (next : α → Service ObjectStore β) :
    onAt k (x >>= next) w = (onAt k x >>= fun a => onAt k (next a)) w :=
  Service.within_bind (storeAt_setStore_self h) (setStore_setStore w.state k)

theorem onAt_pure {α : Type} (k : ℕ) (a : α) (w : World ArtifactStore) :
    onAt k (pure a) w = (pure a : Service ArtifactStore α) w := by
  show EStateM.Result.ok a { w with state := w.state.setStore k (w.state.storeAt k) } = _
  rw [setStore_storeAt]
  rfl

theorem onAt_throw {α : Type} (k : ℕ) (message : String) (w : World ArtifactStore) :
    onAt k (throw message) w = (throw message : Service ArtifactStore α) w := by
  show EStateM.Result.error message { w with state := w.state.setStore k (w.state.storeAt k) } = _
  rw [setStore_storeAt]
  rfl

/-- Programs that agree after a call of one store, when they agree on the states with as many
replicas. -/
theorem bind_congr_onAt {α β : Type} {k : ℕ} {x : Service ObjectStore α}
    {w : World ArtifactStore} {next next' : α → Service ArtifactStore β}
    (h : ∀ a (v : World ArtifactStore), v.state.replicas.length = w.state.replicas.length →
      next a v = next' a v) :
    (onAt k x >>= next) w = (onAt k x >>= next') w := by
  have hlength := length_onAt k x w
  show EStateM.bind (onAt k x) next w = EStateM.bind (onAt k x) next' w
  unfold EStateM.bind
  cases hx : onAt k x w with
  | error e v => rfl
  | ok a v =>
    rw [hx] at hlength
    exact h a v hlength

theorem bind_congr {α β : Type} {x x' : Service ArtifactStore α} {w : World ArtifactStore}
    (h : x w = x' w) (next : α → Service ArtifactStore β) : (x >>= next) w = (x' >>= next) w := by
  show EStateM.bind x next w = EStateM.bind x' next w
  unfold EStateM.bind
  rw [h]

theorem putOne_toService {k : ℕ} {w : World ArtifactStore} (h : k ≤ w.state.replicas.length)
    (object : StoredObject) :
    (putOne k object).toService w = onAt k (Registry.putOne object) w := by
  rw [putOne, toService_bind, toService_onStore, Registry.putOne, onAt_bind h]
  refine bind_congr_onAt fun created v hv => ?_
  have hk : k ≤ v.state.replicas.length := by omega
  cases created with
  | true => exact (onAt_pure k () v).symm
  | false =>
    rw [if_neg Bool.false_ne_true, if_neg Bool.false_ne_true, toService_bind, toService_onStore,
      onAt_bind hk]
    refine bind_congr_onAt fun found u _ => ?_
    cases found with
    | none => exact (onAt_throw k _ u).symm
    | some existing =>
      dsimp only
      split_ifs
      · exact (onAt_pure k () u).symm
      · exact (onAt_throw k _ u).symm

theorem putReplicas_toService (object : StoredObject) {indices : List ℕ}
    {w : World ArtifactStore} (h : ∀ i ∈ indices, i < w.state.replicas.length) :
    (putReplicas object indices).toService w = ArtifactStore.putReplicas object indices w := by
  induction indices generalizing w with
  | nil => rfl
  | cons i rest ih =>
    obtain ⟨hi, hrest⟩ := List.forall_mem_cons.mp h
    have hput : (putOne (i + 1) object).toService w = onAt (i + 1) (Registry.putOne object) w :=
      putOne_toService hi object
    rw [putReplicas, toService_bind]
    rw [bind_congr hput fun _ => (putReplicas object rest).toService]
    refine bind_congr_onAt fun _ v hv => ih ?_
    rw [hv]
    exact hrest

/-- The program is `put_immutable` when nothing comes between its operations. -/
theorem putImmutable_toService {replicas : ℕ} {digest : String} {bytes : List UInt8}
    {w : World ArtifactStore} (h : w.state.replicas.length = replicas) :
    (putImmutable replicas digest bytes).toService w =
      ArtifactStore.putImmutable digest bytes w := by
  rw [putImmutable, toService_bind]
  have hput : (putOne 0 ⟨digest, bytes⟩).toService w =
      onAt 0 (Registry.putOne ⟨digest, bytes⟩) w := putOne_toService (Nat.zero_le _) _
  have hfirst := bind_congr hput fun _ => (putReplicas ⟨digest, bytes⟩ (List.range replicas)).toService
  rw [hfirst]
  refine bind_congr_onAt fun _ v hv => ?_
  have hrest : (putReplicas ⟨digest, bytes⟩ (List.range replicas)).toService v =
      ArtifactStore.putReplicas ⟨digest, bytes⟩ (List.range replicas) v := by
    refine putReplicas_toService _ fun i hi => ?_
    rw [hv, h]
    exact List.mem_range.mp hi
  rw [hrest, ← h, ← hv]
  rfl

theorem getReplicas_toService (digest : String) {indices : List ℕ} {w : World ArtifactStore}
    (h : ∀ i ∈ indices, i < w.state.replicas.length) :
    (getReplicas digest indices).toService w = ArtifactStore.getReplicas digest indices w := by
  induction indices generalizing w with
  | nil => rfl
  | cons i rest ih =>
    obtain ⟨hi, hrest⟩ := List.forall_mem_cons.mp h
    rw [getReplicas, toService_bind, toService_onStore]
    refine bind_congr_onAt fun found v hv => ?_
    cases found with
    | none => exact ih fun j hj => hv ▸ hrest j hj
    | some object =>
      dsimp only
      rw [toService_bind]
      exact bind_congr (putOne_toService (Nat.zero_le _) _) fun _ => pure object.bytes

/-- The program is `get` when nothing comes between its operations. -/
theorem get_toService {replicas : ℕ} {digest : String} {w : World ArtifactStore}
    (h : w.state.replicas.length = replicas) :
    (get replicas digest).toService w = ArtifactStore.get digest w := by
  rw [get, toService_bind, toService_onStore]
  refine bind_congr_onAt fun found v hv => ?_
  cases found with
  | some object => rfl
  | none =>
    dsimp only
    rw [getReplicas_toService digest (fun i hi => by rw [hv, h]; exact List.mem_range.mp hi), ← h,
      ← hv]
    rfl

end Alone

end ArtifactCall

/-- Empty stores, and a call for each request. -/
def startCalls (replicas : ℕ) (requests : ℕ → ArtifactRequest) :
    Threads.State ℕ ArtifactStore (Program ArtifactStore (Option (List UInt8))) :=
  ⟨.empty replicas, fun i => (requests i).call replicas⟩

/-- What is known of the answer to a request. -/
def Answers (sha : Sha256) (contents : Set (List UInt8)) :
    ArtifactRequest → Option (List UInt8) → Prop
  | .put _ _, answer => answer = none
  | .get digest, answer => ∃ bytes, answer = some bytes ∧ Addresses sha contents digest bytes

theorem ArtifactRequest.call_safe {sha : Sha256} {contents : Set (List UInt8)} (replicas : ℕ)
    {request : ArtifactRequest}
    (h : ∀ digest bytes, request = .put digest bytes → Addresses sha contents digest bytes) :
    Program.Safe (Addressed sha contents) (Answers sha contents request)
      (request.call replicas) := by
  cases request with
  | put digest bytes =>
    exact Program.safe_bind (ArtifactCall.putImmutable_safe replicas (h digest bytes rfl))
      fun _ _ => Program.safe_pure rfl
  | get digest =>
    exact Program.safe_bind (ArtifactCall.get_safe replicas digest)
      fun bytes hbytes => Program.safe_pure ⟨bytes, rfl, hbytes⟩

/-- Calls that put contents under their digests and calls that get them, over empty stores, with
every order of their store operations, every failure of one of these and every loss of an object:
at a digest the stores hold nothing but the same bytes, and a call that gets what a call has put
finds just that. -/
theorem replicas_agree {sha : Sha256} {replicas : ℕ} {requests : ℕ → ArtifactRequest}
    (hdigest : ∀ i digest bytes, requests i = .put digest bytes → digest = hexSha256 sha bytes)
    (hinj : Set.InjOn sha.digest {bytes | ∃ i digest, requests i = .put digest bytes})
    {events : List (ℕ × Program.Event Loss)}
    {s : Threads.State ℕ ArtifactStore (Program ArtifactStore (Option (List UInt8)))}
    (hrun : (Program.pool ArtifactStore.lose).run (startCalls replicas requests) events = some s) :
    (∀ k l digest object other, (s.shared.storeAt k).find? digest = some object →
      (s.shared.storeAt l).find? digest = some other → object.bytes = other.bytes) ∧
    ∀ i j digest bytes answer, requests i = .put digest bytes → s.locals i = .done none →
      requests j = .get digest → s.locals j = .done answer → answer = some bytes := by
  have hS := hexSha256_injOn sha hinj
  have hempty : Addressed sha {bytes | ∃ i digest, requests i = .put digest bytes}
      (.empty replicas) := by
    intro k path object hobject
    have hnone : (ArtifactStore.empty replicas).storeAt k = .empty := by
      cases k with
      | zero => rfl
      | succ k =>
        show (List.replicate replicas Table.empty).getD k .empty = .empty
        rw [List.getD_eq_getElem?_getD, List.getElem?_replicate]
        split_ifs
        · rfl
        · rfl
    rw [hnone, Table.find?_empty] at hobject
    cases hobject
  have hstart : ∀ i, Program.Safe
      (Addressed sha {bytes | ∃ i digest, requests i = .put digest bytes})
      (Answers sha {bytes | ∃ i digest, requests i = .put digest bytes} (requests i))
      ((startCalls replicas requests).locals i) := by
    refine fun i => ArtifactRequest.call_safe replicas fun digest bytes hput => ?_
    exact ⟨⟨i, digest, hput⟩, hdigest i digest bytes hput⟩
  obtain ⟨hstores, hcalls⟩ := Program.run_safe
    (Q := fun i => Answers sha {bytes | ∃ i digest, requests i = .put digest bytes} (requests i))
    (fun what s hs => hs.lose what) hempty hstart hrun
  constructor
  · intro k l digest object other hobject hother
    obtain ⟨hmem, hpath⟩ := hstores k digest object hobject
    obtain ⟨hmem', hpath'⟩ := hstores l digest other hother
    exact hS hmem hmem' (hpath.symm.trans hpath')
  · intro i j digest bytes answer hput _ hget hdone
    have hanswer := hcalls j
    rw [hdone, hget] at hanswer
    obtain ⟨found, hfound, hmem, hpath⟩ := hanswer
    have hput' : bytes ∈ {bytes | ∃ i digest, requests i = .put digest bytes} := ⟨i, digest, hput⟩
    have hsame : found = bytes := hS hmem hput' (hpath.symm.trans (hdigest i digest bytes hput))
    rw [hfound, hsame]

/-! A tarball that the primary store has lost, and that is found in the replica. -/

def tarballDigest : String := "db4b4d0d1cb480bf9aeea253771c00febe627f236765fa37d6a5614f079a3aa0"

def lossRequests : ℕ → ArtifactRequest
  | 0 => .put tarballDigest (asBytes "tarball")
  | _ => .get tarballDigest

/-- The put, the loss and the get, which reads both stores and writes back. -/
def lossEvents : List (ℕ × Program.Event Loss) :=
  [(0, .call .none), (0, .call .none), (1, .happens ⟨0, tarballDigest⟩), (1, .call .none),
    (1, .call .none), (1, .call .none)]

theorem replicas_agree_loss : ∃ s answer,
    (Program.pool ArtifactStore.lose).run (startCalls 1 lossRequests) lossEvents = some s ∧
    s.locals 1 = .done answer ∧ answer = some (asBytes "tarball") := by
  have hdigest : ∀ i digest bytes, lossRequests i = .put digest bytes →
      digest = hexSha256 .fips180 bytes := by
    have htarball : tarballDigest = hexSha256 .fips180 (asBytes "tarball") := by decide +kernel
    intro i digest bytes hput
    cases i with
    | zero =>
      obtain ⟨rfl, rfl⟩ := ArtifactRequest.put.inj hput
      exact htarball
    | succ i => cases hput
  have hinj : Set.InjOn Sha256.fips180.digest
      {bytes | ∃ i digest, lossRequests i = .put digest bytes} := by
    have hone : ∀ bytes, (∃ i digest, lossRequests i = .put digest bytes) →
        bytes = asBytes "tarball" := by
      rintro bytes ⟨i, digest, hput⟩
      cases i with
      | zero => exact (ArtifactRequest.put.inj hput).2.symm
      | succ i => cases hput
    intro a ha b hb _
    rw [hone a ha, hone b hb]
  obtain ⟨s, hrun, hput, hget⟩ : ∃ s,
      (Program.pool ArtifactStore.lose).run (startCalls 1 lossRequests) lossEvents = some s ∧
      s.locals 0 = .done none ∧ s.locals 1 = .done (some (asBytes "tarball")) :=
    ⟨_, rfl, rfl, rfl⟩
  refine ⟨s, some (asBytes "tarball"), hrun, hget, ?_⟩
  exact (replicas_agree hdigest hinj hrun).2 0 1 tarballDigest (asBytes "tarball") _ rfl hput rfl
    hget

end Oath.Registry
