import Oath.Library.Interleaving
import Oath.Store.Enumeration

/-! Calls that store the same package at the same time. A call that finds the entry corrupt removes
it later, when another call may have replaced it already. -/

namespace Oath.Store
open Registry

/-! ## The steps of a call -/

/-- The directory at a path and its number: a directory that is removed and made again is another
one. -/
structure Numbered where
  number : ℕ
  dir : EntryDir

/-- The entry of the package, the temporary directories and the next number. -/
structure StoreState where
  entry : Option Numbered
  temps : String → Option Numbered
  next : ℕ

/-- What is stored, and the stamp in the name of the temporary directory: the process's number and
the time. -/
structure StoreRequest where
  extracted : List (NodePath × EntryNode)
  stamp : String
deriving DecidableEq, Repr

inductive StoreCall
  | verifying
  | removing
  | unlinking (number : ℕ)
  | preparing
  | copying (rest : List (NodePath × EntryNode))
  | validating
  | installing
  | renameFailed
  | returned (result : Except String Unit)

inductive StoreStep
  | next
  | unlink (path : NodePath)
  | fail (message : String)
deriving DecidableEq, Repr

namespace StoreState

def setTemp (s : StoreState) (stamp : String) (temp : Option Numbered) : StoreState :=
  { s with temps := Function.update s.temps stamp temp }

def setEntry (s : StoreState) (entry : Option Numbered) : StoreState := { s with entry }

def entryDir (s : StoreState) : Option EntryDir := s.entry.map Numbered.dir

end StoreState

section Steps
variable (format : EntryFormat) (package : PackageIdentity) (request : StoreRequest)

/-- The call gives up and removes its temporary directory. -/
def giveUp (s : StoreState) (message : String) : StoreState × StoreCall :=
  (s.setTemp request.stamp none, .returned (.error message))

def verifyEntry (s : StoreState) : PackageVerification :=
  validateManifest format package s.entryDir

def afterVerify (s : StoreState) : StoreCall :=
  match verifyEntry format package s with
  | .verified _ => .returned (.ok ())
  | .missing => .preparing
  | .corrupt _ => .removing

/-- `remove_dir_all` opens the directory that is at the path now. -/
def openEntry (s : StoreState) : StoreCall :=
  match s.entry with
  | none => .preparing
  | some entry => .unlinking entry.number

/-- One node of the directory that was opened. -/
def unlinkNode (s : StoreState) (number : ℕ) (path : NodePath) : Option (StoreState × StoreCall) :=
  match s.entry with
  | none => none
  | some entry =>
    if entry.number = number ∧ entry.dir.isLeaf path then
      some (s.setEntry (some { entry with dir := entry.dir.remove path }), .unlinking number)
    else none

/-- The end of `remove_dir_all`: whatever is at the path must be empty. -/
def rmdirEntry (s : StoreState) : StoreState × StoreCall :=
  match s.entry with
  | none => (s, .preparing)
  | some entry =>
    if entry.dir.isEmpty then (s.setEntry none, .preparing)
    else (s, .returned (.error "failed to remove corrupt store dir"))

def prepareTemp (s : StoreState) : StoreState × StoreCall :=
  ({ s with
      temps := Function.update s.temps request.stamp (some ⟨s.next, .empty⟩)
      next := s.next + 1 }, .copying request.extracted)

def copyNode (s : StoreState) (temp : Numbered) (node : NodePath × EntryNode)
    (rest : List (NodePath × EntryNode)) : StoreState × StoreCall :=
  match node.2 with
  | .special =>
    giveUp request s ("refusing to store non-regular package entry: " ++
      String.intercalate "/" node.1)
  | _ =>
    (s.setTemp request.stamp (some { temp with dir := temp.dir.put node.1 node.2 }),
      .copying rest)

def writeManifest (s : StoreState) (temp : Numbered) : StoreState × StoreCall :=
  match buildTreeManifest format package temp.dir with
  | .error message => giveUp request s message
  | .ok manifest =>
    if temp.dir.node? [storeManifestFile] = some .directory then
      giveUp request s "failed to write store manifest"
    else
      (s.setTemp request.stamp (some { temp with
        dir := temp.dir.put [storeManifestFile] (.file (format.toVecPretty manifest)) }),
        .validating)

def validateTemp (s : StoreState) : StoreState × StoreCall :=
  match validateManifest format package ((s.temps request.stamp).map Numbered.dir) with
  | .verified _ => (s, .installing)
  | .missing => giveUp request s "newly written store entry is missing"
  | .corrupt reason => giveUp request s ("newly written store entry is corrupt: " ++ reason)

/-- `rename` replaces nothing but an empty directory. -/
def renameTemp (s : StoreState) : StoreState × StoreCall :=
  match s.temps request.stamp with
  | none => (s, .renameFailed)
  | some temp =>
    if (s.entryDir.map EntryDir.isEmpty).getD true then
      ((s.setEntry (some temp)).setTemp request.stamp none, .returned (.ok ()))
    else (s, .renameFailed)

def afterRename (s : StoreState) : StoreState × StoreCall :=
  if (verifyEntry format package s).isVerified then
    (s.setTemp request.stamp none, .returned (.ok ()))
  else giveUp request s "failed to atomically install store dir"

/-- What the call does next when nothing fails. -/
def nextStep (s : StoreState) : StoreCall → Option (StoreState × StoreCall)
  | .verifying => some (s, afterVerify format package s)
  | .removing => some (s, openEntry s)
  | .unlinking _ => some (rmdirEntry s)
  | .preparing => some (prepareTemp request s)
  | .copying rest =>
    match s.temps request.stamp with
    | none => some (giveUp request s "failed to copy the extracted files")
    | some temp =>
      match rest with
      | node :: rest => some (copyNode request s temp node rest)
      | [] => some (writeManifest format package request s temp)
  | .validating => some (validateTemp format package request s)
  | .installing => some (renameTemp request s)
  | .renameFailed => some (afterRename format package request s)
  | .returned _ => none

def storeStep (action : StoreStep) (s : StoreState) (call : StoreCall) :
    Option (StoreState × StoreCall) :=
  match action, call with
  | _, .returned _ => none
  | .fail message, _ => some (s, .returned (.error message))
  | .unlink path, .unlinking number => unlinkNode s number path
  | .unlink _, _ => none
  | .next, call => nextStep format package request s call

end Steps

/-- A call for each request, all of them for the same package. -/
def storing {ι : Type} (format : EntryFormat) (package : PackageIdentity)
    (requests : ι → StoreRequest) : Threads ι StoreStep StoreState StoreCall where
  step i := storeStep format package (requests i)

/-! ## What a step does -/

/-- Neither about to rename nor done. -/
def StoreCall.isPlain : StoreCall → Bool
  | .installing => false
  | .returned (.ok ()) => false
  | _ => true

/-- The temporary directories of the others stay. -/
def OthersKept (stamp : String) (s s' : StoreState) : Prop :=
  ∀ other, other ≠ stamp → s'.temps other = s.temps other

/-- What a step leaves of the entry and of the temporary directories. -/
inductive StoreMoves (format : EntryFormat) (package : PackageIdentity) (stamp : String)
    (action : StoreStep) (s : StoreState) : StoreCall → StoreState → StoreCall → Prop
  | plain {s' : StoreState} {call call' : StoreCall} (hentry : s'.entry = s.entry)
      (hothers : OthersKept stamp s s') (hplain : call'.isPlain) :
      StoreMoves format package stamp action s call s' call'
  | ready {call : StoreCall}
      (hvalid : (validateManifest format package ((s.temps stamp).map Numbered.dir)).isVerified) :
      StoreMoves format package stamp action s call s .installing
  | found {s' : StoreState} {call : StoreCall} (hentry : s'.entry = s.entry)
      (hothers : OthersKept stamp s s') (hverified : (verifyEntry format package s).isVerified) :
      StoreMoves format package stamp action s call s' (.returned (.ok ()))
  | installed {s' : StoreState} (hentry : s'.entry = s.temps stamp)
      (hothers : OthersKept stamp s s') :
      StoreMoves format package stamp action s .installing s' (.returned (.ok ()))
  | removed {s' : StoreState} {call call' : StoreCall} (hothers : OthersKept stamp s s')
      (hplain : call'.isPlain) (hremoves : (∃ path, action = .unlink path) ∨
        (verifyEntry format package s).isVerified = false) :
      StoreMoves format package stamp action s call s' call'

section Moves
variable {format : EntryFormat} {package : PackageIdentity} {request : StoreRequest}
  {s s' : StoreState} {call call' : StoreCall} {action : StoreStep}

theorem othersKept_refl (stamp : String) (s : StoreState) : OthersKept stamp s s := fun _ _ => rfl

theorem othersKept_setTemp (stamp : String) (s : StoreState) (temp : Option Numbered) :
    OthersKept stamp s (s.setTemp stamp temp) :=
  fun _ hne => Function.update_of_ne hne _ _

theorem giveUp_moves (message : String) (h : giveUp request s message = (s', call')) :
    StoreMoves format package request.stamp action s call s' call' := by
  obtain ⟨rfl, rfl⟩ := Prod.mk.inj h
  exact .plain rfl (othersKept_setTemp _ _ _) rfl

theorem afterVerify_moves (h : afterVerify format package s = call') :
    StoreMoves format package request.stamp action s call s call' := by
  have hkept := othersKept_refl request.stamp s
  unfold afterVerify at h
  cases hverify : verifyEntry format package s with
  | verified manifest =>
    rw [hverify] at h
    obtain rfl := h
    refine .found rfl hkept ?_
    rw [hverify]
    rfl
  | missing =>
    rw [hverify] at h
    obtain rfl := h
    exact .plain rfl hkept rfl
  | corrupt reason =>
    rw [hverify] at h
    obtain rfl := h
    exact .plain rfl hkept rfl

theorem openEntry_moves (h : openEntry s = call') :
    StoreMoves format package request.stamp action s call s call' := by
  obtain rfl := h
  refine .plain rfl (othersKept_refl _ _) ?_
  unfold openEntry
  cases s.entry with
  | none => rfl
  | some entry => rfl

theorem rmdirEntry_moves (h : rmdirEntry s = (s', call')) :
    StoreMoves format package request.stamp action s call s' call' := by
  have hkept := othersKept_refl request.stamp s
  unfold rmdirEntry at h
  cases hentry : s.entry with
  | none =>
    rw [hentry] at h
    obtain ⟨rfl, rfl⟩ := Prod.mk.inj h
    exact .plain rfl hkept rfl
  | some entry =>
    rw [hentry] at h
    dsimp only at h
    split_ifs at h with hempty
    · obtain ⟨rfl, rfl⟩ := Prod.mk.inj h
      refine .removed hkept rfl (Or.inr ?_)
      rw [verifyEntry, StoreState.entryDir, hentry]
      exact not_verified_of_isEmpty hempty
    · obtain ⟨rfl, rfl⟩ := Prod.mk.inj h
      exact .plain rfl hkept rfl

theorem unlinkNode_moves {number : ℕ} {path : NodePath}
    (h : unlinkNode s number path = some (s', call')) :
    StoreMoves format package request.stamp (.unlink path) s call s' call' := by
  unfold unlinkNode at h
  cases hentry : s.entry with
  | none =>
    rw [hentry] at h
    cases h
  | some entry =>
    rw [hentry] at h
    dsimp only at h
    split_ifs at h
    obtain ⟨rfl, rfl⟩ := Prod.mk.inj (Option.some.inj h)
    exact .removed (othersKept_refl _ _) rfl (Or.inl ⟨path, rfl⟩)

theorem copyNode_moves {temp : Numbered} {node : NodePath × EntryNode}
    {rest : List (NodePath × EntryNode)} (h : copyNode request s temp node rest = (s', call')) :
    StoreMoves format package request.stamp action s call s' call' := by
  unfold copyNode at h
  cases hnode : node.2 with
  | special =>
    rw [hnode] at h
    exact giveUp_moves _ h
  | directory =>
    rw [hnode] at h
    obtain ⟨rfl, rfl⟩ := Prod.mk.inj h
    exact .plain rfl (othersKept_setTemp _ _ _) rfl
  | file bytes =>
    rw [hnode] at h
    obtain ⟨rfl, rfl⟩ := Prod.mk.inj h
    exact .plain rfl (othersKept_setTemp _ _ _) rfl

theorem writeManifest_moves {temp : Numbered}
    (h : writeManifest format package request s temp = (s', call')) :
    StoreMoves format package request.stamp action s call s' call' := by
  unfold writeManifest at h
  cases hbuild : buildTreeManifest format package temp.dir with
  | error message =>
    rw [hbuild] at h
    exact giveUp_moves message h
  | ok manifest =>
    rw [hbuild] at h
    dsimp only at h
    split_ifs at h
    · exact giveUp_moves _ h
    · obtain ⟨rfl, rfl⟩ := Prod.mk.inj h
      exact .plain rfl (othersKept_setTemp _ _ _) rfl

theorem validateTemp_moves (h : validateTemp format package request s = (s', call')) :
    StoreMoves format package request.stamp action s call s' call' := by
  unfold validateTemp at h
  cases hvalid : validateManifest format package
      ((s.temps request.stamp).map Numbered.dir) with
  | verified manifest =>
    rw [hvalid] at h
    obtain ⟨rfl, rfl⟩ := Prod.mk.inj h
    refine .ready ?_
    rw [hvalid]
    rfl
  | missing =>
    rw [hvalid] at h
    exact giveUp_moves _ h
  | corrupt reason =>
    rw [hvalid] at h
    exact giveUp_moves _ h

theorem renameTemp_moves (h : renameTemp request s = (s', call')) :
    StoreMoves format package request.stamp action s .installing s' call' := by
  have hkept := othersKept_refl request.stamp s
  unfold renameTemp at h
  cases htemp : s.temps request.stamp with
  | none =>
    rw [htemp] at h
    obtain ⟨rfl, rfl⟩ := Prod.mk.inj h
    exact .plain rfl hkept rfl
  | some temp =>
    rw [htemp] at h
    dsimp only at h
    split_ifs at h
    · obtain ⟨rfl, rfl⟩ := Prod.mk.inj h
      exact .installed htemp.symm (othersKept_setTemp _ _ _)
    · obtain ⟨rfl, rfl⟩ := Prod.mk.inj h
      exact .plain rfl hkept rfl

theorem afterRename_moves (h : afterRename format package request s = (s', call')) :
    StoreMoves format package request.stamp action s call s' call' := by
  unfold afterRename at h
  split_ifs at h with hverified
  · obtain ⟨rfl, rfl⟩ := Prod.mk.inj h
    exact .found rfl (othersKept_setTemp _ _ _) hverified
  · exact giveUp_moves _ h

theorem nextStep_moves (h : nextStep format package request s call = some (s', call')) :
    StoreMoves format package request.stamp action s call s' call' := by
  cases call with
  | verifying =>
    obtain ⟨rfl, hcall⟩ := Prod.mk.inj (Option.some.inj h)
    exact afterVerify_moves hcall
  | removing =>
    obtain ⟨rfl, hcall⟩ := Prod.mk.inj (Option.some.inj h)
    exact openEntry_moves hcall
  | unlinking number => exact rmdirEntry_moves (Option.some.inj h)
  | preparing =>
    obtain ⟨rfl, rfl⟩ := Prod.mk.inj (Option.some.inj h)
    exact .plain rfl (fun _ hne => Function.update_of_ne hne _ _) rfl
  | copying rest =>
    unfold nextStep at h
    cases htemp : s.temps request.stamp with
    | none =>
      rw [htemp] at h
      exact giveUp_moves _ (Option.some.inj h)
    | some temp =>
      rw [htemp] at h
      cases rest with
      | nil => exact writeManifest_moves (Option.some.inj h)
      | cons node rest => exact copyNode_moves (Option.some.inj h)
  | validating => exact validateTemp_moves (Option.some.inj h)
  | installing => exact renameTemp_moves (Option.some.inj h)
  | renameFailed => exact afterRename_moves (Option.some.inj h)
  | returned result => cases h

theorem storeStep_moves (h : storeStep format package request action s call = some (s', call')) :
    StoreMoves format package request.stamp action s call s' call' := by
  cases action with
  | next =>
    cases call with
    | returned result => cases h
    | _ => exact nextStep_moves h
  | fail message =>
    cases call with
    | returned result => cases h
    | _ =>
      obtain ⟨rfl, rfl⟩ := Prod.mk.inj (Option.some.inj h)
      exact .plain rfl (othersKept_refl _ _) rfl
  | unlink path =>
    cases call with
    | unlinking number => exact unlinkNode_moves h
    | _ => cases h

end Moves

/-! ## Runs -/

section Runs
variable {ι : Type} [DecidableEq ι]

/-- No file is taken from an entry that verifies. -/
def Harmless (format : EntryFormat) (package : PackageIdentity)
    (s : Threads.State ι StoreState StoreCall) (event : ι × StoreStep) : Prop :=
  ∀ path, event.2 = .unlink path → (verifyEntry format package s.shared).isVerified = false

def HarmlessRun (format : EntryFormat) (package : PackageIdentity) (requests : ι → StoreRequest) :
    Threads.State ι StoreState StoreCall → List (ι × StoreStep) → Prop
  | _, [] => True
  | s, event :: rest => Harmless format package s event ∧
    ∀ next, (storing format package requests).fire s event = some next →
      HarmlessRun format package requests next rest

variable {format : EntryFormat} {package : PackageIdentity} {requests : ι → StoreRequest}
  {s s' : Threads.State ι StoreState StoreCall} {events : List (ι × StoreStep)}

/-- Calls that remove nothing do no harm. -/
theorem harmlessRun_of_no_unlink (h : ∀ event ∈ events, ∀ path, event.2 ≠ .unlink path) :
    HarmlessRun format package requests s events := by
  induction events generalizing s with
  | nil => trivial
  | cons event rest ih =>
    refine ⟨fun path hpath => ?_, fun next _ => ?_⟩
    · exact absurd hpath (h event List.mem_cons_self path)
    · exact ih fun other hother => h other (List.mem_cons_of_mem _ hother)

/-- Where a call has returned the entry verifies, and what is about to be renamed does. -/
structure Stored (format : EntryFormat) (package : PackageIdentity) (requests : ι → StoreRequest)
    (s : Threads.State ι StoreState StoreCall) : Prop where
  entry (i : ι) (h : s.locals i = .returned (.ok ())) :
    (verifyEntry format package s.shared).isVerified
  temp (i : ι) (h : s.locals i = .installing) : (validateManifest format package
    ((s.shared.temps (requests i).stamp).map Numbered.dir)).isVerified

theorem verifyEntry_congr {before after : StoreState} (h : after.entry = before.entry) :
    verifyEntry format package after = verifyEntry format package before := by
  rw [verifyEntry, verifyEntry, StoreState.entryDir, StoreState.entryDir, h]

section Step
variable {stamp : String} {action : StoreStep} {before after : StoreState} {call call' : StoreCall}

theorem StoreMoves.others (h : StoreMoves format package stamp action before call after call') :
    OthersKept stamp before after := by
  cases h with
  | plain hentry hothers hplain => exact hothers
  | ready hvalid => exact othersKept_refl _ _
  | found hentry hothers hverified => exact hothers
  | installed hentry hothers => exact hothers
  | removed hothers hplain hremoves => exact hothers

/-- A call that returns leaves an entry that verifies. -/
theorem StoreMoves.returns
    (h : StoreMoves format package stamp action before call after (.returned (.ok ())))
    (htemp : call = .installing →
      (validateManifest format package ((before.temps stamp).map Numbered.dir)).isVerified) :
    (verifyEntry format package after).isVerified := by
  cases h with
  | plain hentry hothers hplain => cases hplain
  | removed hothers hplain hremoves => cases hplain
  | found hentry hothers hverified =>
    rw [verifyEntry_congr hentry]
    exact hverified
  | installed hentry hothers =>
    rw [verifyEntry, StoreState.entryDir, hentry]
    exact htemp rfl

/-- An entry that verifies stays when no file is taken from it. -/
theorem StoreMoves.keeps (h : StoreMoves format package stamp action before call after call')
    (htemp : call = .installing →
      (validateManifest format package ((before.temps stamp).map Numbered.dir)).isVerified)
    (hharmless : ∀ path, action = .unlink path →
      (verifyEntry format package before).isVerified = false)
    (hverified : (verifyEntry format package before).isVerified) :
    (verifyEntry format package after).isVerified := by
  cases h with
  | plain hentry hothers hplain =>
    rw [verifyEntry_congr hentry]
    exact hverified
  | ready hvalid => exact hverified
  | found hentry hothers _ =>
    rw [verifyEntry_congr hentry]
    exact hverified
  | installed hentry hothers =>
    rw [verifyEntry, StoreState.entryDir, hentry]
    exact htemp rfl
  | removed hothers hplain hremoves =>
    have hnot : (verifyEntry format package before).isVerified = false := by
      rcases hremoves with ⟨path, hunlink⟩ | hnot
      · exact hharmless path hunlink
      · exact hnot
    rw [hverified] at hnot
    cases hnot

theorem StoreMoves.installs
    (h : StoreMoves format package stamp action before call after .installing) :
    (validateManifest format package ((after.temps stamp).map Numbered.dir)).isVerified := by
  cases h with
  | plain hentry hothers hplain => cases hplain
  | removed hothers hplain hremoves => cases hplain
  | ready hvalid => exact hvalid

end Step

theorem Stored.fire (hstamps : Function.Injective fun i => (requests i).stamp)
    (h : Stored format package requests s) {event : ι × StoreStep}
    (hharmless : Harmless format package s event)
    (hfire : (storing format package requests).fire s event = some s') :
    Stored format package requests s' := by
  obtain ⟨shared, call, hstep, rfl⟩ := Threads.fire_eq_some.mp hfire
  obtain ⟨j, action⟩ := event
  have hmoves := storeStep_moves hstep
  have htemp := h.temp j
  constructor
  · intro i hi
    dsimp only at hi ⊢
    by_cases hsame : i = j
    · rw [hsame, Function.update_self] at hi
      rw [hi] at hmoves
      exact hmoves.returns htemp
    · rw [Function.update_of_ne hsame] at hi
      exact hmoves.keeps htemp hharmless (h.entry i hi)
  · intro i hi
    dsimp only at hi ⊢
    by_cases hsame : i = j
    · rw [hsame, Function.update_self] at hi
      rw [hi] at hmoves
      rw [hsame]
      exact hmoves.installs
    · rw [Function.update_of_ne hsame] at hi
      rw [hmoves.others _ (hstamps.ne hsame)]
      exact h.temp i hi

theorem Stored.run (hstamps : Function.Injective fun i => (requests i).stamp)
    (h : Stored format package requests s)
    (hharmless : HarmlessRun format package requests s events)
    (hrun : (storing format package requests).run s events = some s') :
    Stored format package requests s' := by
  induction events generalizing s with
  | nil =>
    obtain rfl := Option.some.inj hrun
    exact h
  | cons event rest ih =>
    obtain ⟨next, hfire, hrest⟩ := Threads.run_cons_eq_some.mp hrun
    exact ih (h.fire hstamps hharmless.1 hfire) (hharmless.2 next hfire) hrest

theorem exists_manifest {state : StoreState}
    (h : (verifyEntry format package state).isVerified) : ∃ entry manifest,
      state.entry = some entry ∧
        validateManifest format package (some entry.dir) = .verified manifest := by
  unfold verifyEntry StoreState.entryDir at h
  cases hentry : state.entry with
  | none =>
    rw [hentry] at h
    cases h
  | some entry =>
    rw [hentry, Option.map_some] at h
    cases hvalid : validateManifest format package (some entry.dir) with
    | verified manifest => exact ⟨entry, manifest, rfl, hvalid⟩
    | missing =>
      rw [hvalid] at h
      cases h
    | corrupt reason =>
      rw [hvalid] at h
      cases h

/-- In every run that takes no file from an entry that verifies: where a call has returned, the entry
is there and verifies. -/
theorem store_package_stays (hstamps : Function.Injective fun i => (requests i).stamp)
    (hstart : ∀ i, s.locals i = .verifying)
    (hharmless : HarmlessRun format package requests s events)
    (hrun : (storing format package requests).run s events = some s') {i : ι}
    (hreturned : s'.locals i = .returned (.ok ())) :
    ∃ entry manifest, s'.shared.entry = some entry ∧
      validateManifest format package (some entry.dir) = .verified manifest := by
  have hstored : Stored format package requests s := by
    constructor
    · intro i hi
      rw [hstart i] at hi
      cases hi
    · intro i hi
      rw [hstart i] at hi
      cases hi
  exact exists_manifest ((hstored.run hstamps hharmless hrun).entry i hreturned)

end Runs

/-! ## Two calls for one package -/

def pkgJson : List UInt8 := asBytes "\x7b\"name\":\"pkg\",\"version\":\"1.0.0\"\x7d"

def pkgManifest : TreeManifest where
  schemaVersion := 1
  name := "pkg"
  version := "1.0.0"
  lockIntegrity := none
  resolvedUrl := none
  packageJsonName := "pkg"
  packageJsonVersion := "1.0.0"
  fileCount := 1
  byteCount := 32
  blake3Tree := [{
    path := "package.json"
    bytes := 32
    blake3 := "93ae55df94786799f256397166d053636ca8fe736ac57341ab813dde52ec1612" }]

def pkgManifestText : String := String.intercalate "\n" [
  "\x7b",
  "  \"schemaVersion\": 1,",
  "  \"name\": \"pkg\",",
  "  \"version\": \"1.0.0\",",
  "  \"packageJsonName\": \"pkg\",",
  "  \"packageJsonVersion\": \"1.0.0\",",
  "  \"fileCount\": 1,",
  "  \"byteCount\": 32,",
  "  \"blake3Tree\": [",
  "    \x7b",
  "      \"path\": \"package.json\",",
  "      \"bytes\": 32,",
  "      \"blake3\": \"93ae55df94786799f256397166d053636ca8fe736ac57341ab813dde52ec1612\"",
  "    \x7d",
  "  ]",
  "\x7d"]

/-- What the hash and the documents of this package are. -/
def pkgFormat : EntryFormat where
  blake3Hex _ := "93ae55df94786799f256397166d053636ca8fe736ac57341ab813dde52ec1612"
  fromSlice _ := .ok pkgManifest
  toVecPretty _ := asBytes pkgManifestText
  packageJson _ := some ⟨"pkg", "1.0.0"⟩

def pkgIdentity : PackageIdentity := ⟨"pkg", "1.0.0", none, none⟩

def twoRequests (second : Bool) : StoreRequest where
  extracted := [(["package.json"], .file pkgJson)]
  stamp := if second then "pkg-1.0.0-4711-1700000000000000002"
    else "pkg-1.0.0-4710-1700000000000000001"

theorem twoRequests_stamp : Function.Injective fun i => (twoRequests i).stamp := by
  have hstamps : ∀ i j, (twoRequests i).stamp = (twoRequests j).stamp → i = j := by decide
  exact fun i j h => hstamps i j h

def startStoring (entry : Option Numbered) : Threads.State Bool StoreState StoreCall where
  shared := { entry, temps := fun _ => none, next := 1 }
  locals _ := .verifying

/-- An entry without its manifest. -/
def brokenEntry : Numbered := ⟨0, EntryDir.put .empty ["package.json"] (.file pkgJson)⟩

/-- Both calls find the entry corrupt. The first replaces it and returns; then the second goes on to
remove what it finds. -/
def removedLater : List (Bool × StoreStep) := [
  (false, .next), (true, .next),
  (false, .next), (false, .unlink ["package.json"]), (false, .next),
  (false, .next), (false, .next), (false, .next), (false, .next), (false, .next),
  (true, .next), (true, .unlink ["package.json"])]

theorem store_package_removed : ∃ s',
    (storing pkgFormat pkgIdentity twoRequests).run (startStoring (some brokenEntry))
      removedLater = some s' ∧
    s'.locals false = .returned (.ok ()) ∧
    (verifyEntry pkgFormat pkgIdentity s'.shared).isVerified = false := by
  refine ⟨_, rfl, rfl, ?_⟩
  decide

/-- The second call finds the entry of the first when it comes to rename its own. -/
def oneWins : List (Bool × StoreStep) :=
  List.replicate 5 (false, .next) ++ List.replicate 5 (true, .next) ++
    [(false, .next), (true, .next), (true, .next)]

theorem store_package_stays_both : ∃ s' entry manifest,
    (storing pkgFormat pkgIdentity twoRequests).run (startStoring none) oneWins = some s' ∧
    s'.locals true = .returned (.ok ()) ∧ s'.shared.entry = some entry ∧
    validateManifest pkgFormat pkgIdentity (some entry.dir) = .verified manifest := by
  have hharmless : HarmlessRun pkgFormat pkgIdentity twoRequests (startStoring none) oneWins := by
    refine harmlessRun_of_no_unlink fun event hevent path hunlink => ?_
    have hnext : ∀ event ∈ oneWins, event.2 = .next := by decide
    rw [hnext event hevent] at hunlink
    cases hunlink
  obtain ⟨s', hrun, hreturned⟩ : ∃ s',
      (storing pkgFormat pkgIdentity twoRequests).run (startStoring none) oneWins = some s' ∧
        s'.locals true = .returned (.ok ()) := ⟨_, rfl, rfl⟩
  obtain ⟨entry, manifest, hentry, hvalid⟩ := store_package_stays twoRequests_stamp
    (fun _ => rfl) hharmless hrun hreturned
  exact ⟨s', entry, manifest, hrun, hreturned, hentry, hvalid⟩

end Oath.Store
