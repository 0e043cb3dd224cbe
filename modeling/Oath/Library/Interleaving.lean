import Mathlib.Logic.Function.Basic
import Mathlib.Data.List.Basic

/-! Threads that work on shared state: what a run of their steps in any order keeps. -/

/-- What a thread can do in one step, with the shared state and its own; a step that is not
possible now gives nothing. -/
structure Threads (Thread Action Shared : Type) (Local : Type*) where
  step : Thread → Action → Shared → Local → Option (Shared × Local)

namespace Threads
variable {Thread Action Shared : Type} {Local : Type*}

structure State (Thread Shared : Type) (Local : Type*) where
  shared : Shared
  locals : Thread → Local

variable [DecidableEq Thread]

/-- The state after the step of a thread: what the others have of their own stays. -/
def fire (t : Threads Thread Action Shared Local) (s : State Thread Shared Local)
    (event : Thread × Action) : Option (State Thread Shared Local) :=
  (t.step event.1 event.2 s.shared (s.locals event.1)).map fun next =>
    ⟨next.1, Function.update s.locals event.1 next.2⟩

def run (t : Threads Thread Action Shared Local) (s : State Thread Shared Local)
    (events : List (Thread × Action)) : Option (State Thread Shared Local) := events.foldlM t.fire s

section Rules
variable {t : Threads Thread Action Shared Local} {s s' : State Thread Shared Local}

theorem fire_eq_some {event : Thread × Action} : t.fire s event = some s' ↔
    ∃ shared own, t.step event.1 event.2 s.shared (s.locals event.1) = some (shared, own) ∧
      s' = ⟨shared, Function.update s.locals event.1 own⟩ := by
  unfold fire
  rw [Option.map_eq_some_iff]
  constructor
  · rintro ⟨⟨shared, own⟩, hstep, rfl⟩
    exact ⟨shared, own, hstep, rfl⟩
  · rintro ⟨shared, own, hstep, rfl⟩
    exact ⟨(shared, own), hstep, rfl⟩

theorem fire_of_step {i : Thread} {action : Action} {own own' : Local} {shared' : Shared}
    (hlocal : s.locals i = own) (hstep : t.step i action s.shared own = some (shared', own')) :
    t.fire s (i, action) = some ⟨shared', Function.update s.locals i own'⟩ := by
  refine fire_eq_some.mpr ⟨shared', own', ?_, rfl⟩
  rw [hlocal]
  exact hstep

theorem run_nil : t.run s [] = some s := rfl

theorem run_cons_eq_some {event : Thread × Action} {rest : List (Thread × Action)} :
    t.run s (event :: rest) = some s' ↔ ∃ next, t.fire s event = some next ∧
      t.run next rest = some s' := by
  unfold run
  rw [List.foldlM_cons]
  exact Option.bind_eq_some_iff

theorem run_append_eq_some {front back : List (Thread × Action)} :
    t.run s (front ++ back) = some s' ↔ ∃ middle, t.run s front = some middle ∧
      t.run middle back = some s' := by
  unfold run
  rw [List.foldlM_append]
  exact Option.bind_eq_some_iff

/-- What every step keeps, a run keeps. -/
theorem run_invariant {I : State Thread Shared Local → Prop}
    (hstep : ∀ s event s', I s → t.fire s event = some s' → I s')
    {events : List (Thread × Action)} (h : I s) (hrun : t.run s events = some s') : I s' := by
  induction events generalizing s with
  | nil =>
    obtain rfl := Option.some.inj hrun
    exact h
  | cons event rest ih =>
    obtain ⟨next, hfire, hrest⟩ := run_cons_eq_some.mp hrun
    exact ih (hstep s event next h hfire) hrest

/-- Every step of the run is taken from a state that allows it. -/
def StepsMeet (t : Threads Thread Action Shared Local)
    (C : State Thread Shared Local → Thread × Action → Prop) (s : State Thread Shared Local)
    (events : List (Thread × Action)) : Prop :=
  ∀ front event back middle, events = front ++ event :: back → t.run s front = some middle →
    C middle event

theorem stepsMeet_nil {C : State Thread Shared Local → Thread × Action → Prop} :
    t.StepsMeet C s [] :=
  fun _ _ _ _ heq => absurd heq.symm (List.append_ne_nil_of_right_ne_nil _ (List.cons_ne_nil _ _))

theorem stepsMeet_cons {C : State Thread Shared Local → Thread × Action → Prop}
    {event : Thread × Action} {rest : List (Thread × Action)} (hevent : C s event)
    (hrest : ∀ next, t.fire s event = some next → t.StepsMeet C next rest) :
    t.StepsMeet C s (event :: rest) := by
  intro front later back middle heq hrun
  cases front with
  | nil =>
    obtain ⟨rfl, -⟩ := List.cons.inj heq
    obtain rfl := Option.some.inj hrun
    exact hevent
  | cons first front =>
    obtain ⟨rfl, hback⟩ := List.cons.inj heq
    obtain ⟨next, hfire, hfront⟩ := run_cons_eq_some.mp hrun
    exact hrest next hfire front later back middle hback hfront

theorem stepsMeet_append {C : State Thread Shared Local → Thread × Action → Prop}
    {front back : List (Thread × Action)} (hfront : t.StepsMeet C s front)
    (hback : ∀ middle, t.run s front = some middle → t.StepsMeet C middle back) :
    t.StepsMeet C s (front ++ back) := by
  induction front generalizing s with
  | nil => exact hback s rfl
  | cons event rest ih =>
    refine stepsMeet_cons (hfront [] event rest s rfl rfl) fun next hfire => ih ?_ ?_
    · intro first later last middle heq hrun
      refine hfront (event :: first) later last middle (by rw [heq]; rfl) ?_
      exact run_cons_eq_some.mpr ⟨next, hfire, hrun⟩
    · exact fun middle hrun => hback middle (run_cons_eq_some.mpr ⟨next, hfire, hrun⟩)

/-- What every allowed step keeps, a run of such steps keeps. -/
theorem run_invariant_of_meets {I : State Thread Shared Local → Prop}
    {C : State Thread Shared Local → Thread × Action → Prop}
    (hstep : ∀ s event s', I s → C s event → t.fire s event = some s' → I s')
    {events : List (Thread × Action)} (h : I s) (hmeets : t.StepsMeet C s events)
    (hrun : t.run s events = some s') : I s' := by
  induction events generalizing s with
  | nil =>
    obtain rfl := Option.some.inj hrun
    exact h
  | cons event rest ih =>
    obtain ⟨next, hfire, hrest⟩ := run_cons_eq_some.mp hrun
    have hnext : I next := hstep s event next h (hmeets [] event rest s rfl rfl) hfire
    refine ih hnext (fun front later back middle heq hfront => ?_) hrest
    refine hmeets (event :: front) later back middle (by rw [heq]; rfl) ?_
    exact run_cons_eq_some.mpr ⟨next, hfire, hfront⟩

/-- A property of the shared state and one of each thread: kept when a thread's own step keeps
both, and the steps of others keep what it has. -/
theorem run_each {G : Shared → Prop} {P : Thread → Shared → Local → Prop}
    (hown : ∀ i action shared own shared' own', G shared → P i shared own →
      t.step i action shared own = some (shared', own') → G shared' ∧ P i shared' own')
    (hother : ∀ i j action shared own mine shared' own', i ≠ j → G shared → P j shared own →
      t.step j action shared own = some (shared', own') → P i shared mine → P i shared' mine)
    {events : List (Thread × Action)} (h : G s.shared ∧ ∀ i, P i s.shared (s.locals i))
    (hrun : t.run s events = some s') : G s'.shared ∧ ∀ i, P i s'.shared (s'.locals i) := by
  refine run_invariant (I := fun s => G s.shared ∧ ∀ i, P i s.shared (s.locals i)) ?_ h hrun
  intro s event s' hs hfire
  obtain ⟨shared, own, hstep, rfl⟩ := fire_eq_some.mp hfire
  obtain ⟨hshared, hmoved⟩ := hown _ _ _ _ _ _ hs.1 (hs.2 event.1) hstep
  refine ⟨hshared, fun i => ?_⟩
  dsimp only
  by_cases hsame : i = event.1
  · rw [hsame, Function.update_self]
    exact hmoved
  · rw [Function.update_of_ne hsame]
    exact hother i event.1 _ _ _ _ _ _ hsame hs.1 (hs.2 event.1) hstep (hs.2 i)

end Rules

end Threads
