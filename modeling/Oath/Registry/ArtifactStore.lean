import Oath.Library.Service
import Oath.Library.Table
import Oath.Registry.Digest

/-! Tarballs under their digests, in a primary object store and its replicas. An object is
written once and never over another one. -/

namespace Oath.Registry
open Service

structure StoredObject where
  path : String
  bytes : List UInt8
deriving DecidableEq, Repr

abbrev ObjectStore := Table StoredObject.path

structure ArtifactStore where
  primary : ObjectStore
  replicas : List ObjectStore

/-- `put_opts` in the mode that only creates; what is there already has to be the same. -/
def putOne (object : StoredObject) : Service ObjectStore Unit := do
  let created ← call fun store =>
    match store.insert? object with
    | some store' => .ok (true, store')
    | none => .ok (false, store)
  if created then pure ()
  else
    match ← read (fun store => store.find? object.path) with
    | none => throw ("Object at location " ++ object.path ++ " not found")
    | some existing =>
      if existing.bytes = object.bytes then pure ()
      else throw "immutable object digest collision"

namespace ArtifactStore

def empty (replicas : ℕ) : ArtifactStore where
  primary := .empty
  replicas := List.replicate replicas .empty

def onPrimary {α : Type} (x : Service ObjectStore α) : Service ArtifactStore α :=
  within primary (fun primary store => { store with primary }) x

def onReplica {α : Type} (i : ℕ) (x : Service ObjectStore α) : Service ArtifactStore α :=
  within (fun store => store.replicas.getD i .empty)
    (fun replica store => { store with replicas := store.replicas.set i replica }) x

def putReplicas (object : StoredObject) : List ℕ → Service ArtifactStore Unit
  | [] => pure ()
  | i :: rest => do
    onReplica i (putOne object)
    putReplicas object rest

def replicaIndices : Service ArtifactStore (List ℕ) := do
  pure (List.range (← EStateM.get).state.replicas.length)

def putImmutable (digest : String) (bytes : List UInt8) : Service ArtifactStore Unit := do
  onPrimary (putOne { path := digest, bytes })
  putReplicas { path := digest, bytes } (← replicaIndices)

def getReplicas (digest : String) : List ℕ → Service ArtifactStore (List UInt8)
  | [] => throw ("artifact " ++ digest ++ " was not found in primary or replica stores")
  | i :: rest => do
    match ← onReplica i (read fun store => store.find? digest) with
    | some object =>
      onPrimary (putOne { path := digest, bytes := object.bytes })
      pure object.bytes
    | none => getReplicas digest rest

/-- The primary's object, or else a replica's, which is written back. -/
def get (digest : String) : Service ArtifactStore (List UInt8) := do
  match ← onPrimary (read fun store => store.find? digest) with
  | some object => pure object.bytes
  | none => getReplicas digest (← replicaIndices)

end ArtifactStore

/-! ## Nothing is overwritten -/

/-- Every object stays as it is. -/
def Keeps (before after : ObjectStore) : Prop :=
  ∀ path object, before.find? path = some object → after.find? path = some object

instance : Std.Refl Keeps := ⟨fun _ _ _ h => h⟩
instance : IsTrans ObjectStore Keeps := ⟨fun _ _ _ h h' path object hobject =>
  h' path object (h path object hobject)⟩

def KeepsPrimary (before after : ArtifactStore) : Prop := Keeps before.primary after.primary

instance : Std.Refl KeepsPrimary := ⟨fun _ _ _ h => h⟩
instance : IsTrans ArtifactStore KeepsPrimary := ⟨fun _ _ _ h h' path object hobject =>
  h' path object (h path object hobject)⟩

theorem keeps_insert? {store store' : ObjectStore} {object : StoredObject}
    (h : store.insert? object = some store') : Keeps store store' := by
  intro path existing hexisting
  rw [Table.find?_insert? h, if_neg, hexisting]
  rintro rfl
  rw [Table.find?_of_insert? h] at hexisting
  cases hexisting

theorem putOne_changes (object : StoredObject) : Changes Keeps (putOne object) := by
  apply changes_bind
  · apply changes_call
    intro store created store' h
    split at h
    · next hinsert =>
      obtain ⟨-, rfl⟩ := Prod.mk.inj (Except.ok.inj h)
      exact keeps_insert? hinsert
    · obtain ⟨-, rfl⟩ := Prod.mk.inj (Except.ok.inj h)
      exact Std.Refl.refl _
  · intro created
    cases created with
    | true => exact changes_pure ()
    | false =>
      refine changes_bind (changes_read _) fun existing => ?_
      cases existing with
      | none => exact changes_throw _
      | some existing =>
        dsimp only
        split_ifs
        · exact changes_pure ()
        · exact changes_throw _

/-- When a put succeeds the object is there. -/
theorem putOne_ok {object : StoredObject} {w w' : World ObjectStore}
    (h : putOne object w = .ok () w') : w'.state.find? object.path = some object := by
  obtain ⟨created, w₁, hcall, h1⟩ := EStateM.bind_eq_ok.mp h
  have hstate := call_ok hcall
  cases hinsert : w.state.insert? object with
  | some store =>
    rw [hinsert] at hstate
    obtain ⟨rfl, hstore⟩ := Prod.mk.inj (Except.ok.inj hstate)
    obtain rfl : w₁ = w' := by simpa [pure, EStateM.pure] using h1
    rw [← hstore, Table.find?_insert? hinsert, if_pos rfl]
  | none =>
    rw [hinsert] at hstate
    obtain ⟨rfl, hstore⟩ := Prod.mk.inj (Except.ok.inj hstate)
    obtain ⟨existing, w₂, hread, h2⟩ := EStateM.bind_eq_ok.mp h1
    obtain ⟨rfl, hsame⟩ := read_ok hread
    cases hexisting : w₁.state.find? object.path with
    | none =>
      rw [hexisting] at h2
      cases h2
    | some existing =>
      rw [hexisting] at h2
      dsimp only at h2
      split_ifs at h2 with hbytes
      · obtain rfl : w₂ = w' := by simpa [pure, EStateM.pure] using h2
        have hpath : existing.path = object.path := Table.key_of_find? hexisting
        rw [hsame, hexisting]
        cases existing
        cases object
        simp_all
      · cases h2

namespace ArtifactStore

theorem onPrimary_changes {α : Type} {x : Service ObjectStore α} (h : Changes Keeps x) :
    Changes KeepsPrimary (onPrimary x) := changes_within h fun _ _ hkeeps => hkeeps

theorem onReplica_changes {α : Type} (i : ℕ) {x : Service ObjectStore α} (h : Changes Keeps x) :
    Changes KeepsPrimary (onReplica i x) := changes_within h fun _ _ _ => Std.Refl.refl _

theorem putReplicas_changes (object : StoredObject) (indices : List ℕ) :
    Changes KeepsPrimary (putReplicas object indices) := by
  induction indices with
  | nil => exact changes_pure ()
  | cons i rest ih => exact changes_bind (onReplica_changes i (putOne_changes object)) fun _ => ih

theorem replicaIndices_changes : Changes KeepsPrimary replicaIndices :=
  changes_bind changes_get fun _ => changes_pure _

theorem putImmutable_changes (digest : String) (bytes : List UInt8) :
    Changes KeepsPrimary (putImmutable digest bytes) :=
  changes_bind (onPrimary_changes (putOne_changes _)) fun _ =>
    changes_bind replicaIndices_changes fun _ => putReplicas_changes _ _

theorem getReplicas_changes (digest : String) (indices : List ℕ) :
    Changes KeepsPrimary (getReplicas digest indices) := by
  induction indices with
  | nil => exact changes_throw _
  | cons i rest ih =>
    refine changes_bind (onReplica_changes i (changes_read _)) fun found => ?_
    cases found with
    | none => exact ih
    | some object =>
      exact changes_bind (onPrimary_changes (putOne_changes _)) fun _ => changes_pure _

theorem get_changes (digest : String) : Changes KeepsPrimary (get digest) := by
  refine changes_bind (onPrimary_changes (changes_read _)) fun found => ?_
  cases found with
  | none => exact changes_bind replicaIndices_changes fun _ => getReplicas_changes _ _
  | some object => exact changes_pure _

theorem putImmutable_ok {digest : String} {bytes : List UInt8} {w w' : World ArtifactStore}
    (h : putImmutable digest bytes w = .ok () w') :
    w'.state.primary.find? digest = some { path := digest, bytes } := by
  obtain ⟨_, w₁, hput, h1⟩ := EStateM.bind_eq_ok.mp h
  obtain ⟨v, hone, hprimary⟩ := within_ok hput
  have hrest := changes_bind replicaIndices_changes
    (fun indices => putReplicas_changes { path := digest, bytes } indices) w₁
  rw [h1] at hrest
  apply hrest
  rw [hprimary]
  exact putOne_ok hone

/-- What the primary store has is what is read. -/
theorem get_ok {digest : String} {bytes : List UInt8} {object : StoredObject}
    {w w' : World ArtifactStore} (h : get digest w = .ok bytes w')
    (hobject : w.state.primary.find? digest = some object) : bytes = object.bytes := by
  obtain ⟨found, w₁, hread, h1⟩ := EStateM.bind_eq_ok.mp h
  obtain ⟨v, hfound, -⟩ := within_ok hread
  obtain ⟨rfl, -⟩ := read_ok hfound
  dsimp only at h1
  rw [hobject] at h1
  exact (EStateM.Result.ok.inj h1).1.symm

end ArtifactStore

end Oath.Registry
