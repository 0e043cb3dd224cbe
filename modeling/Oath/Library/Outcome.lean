import Mathlib.Data.List.Forall2

/-! Computations that can fail, with or without a state. The state of a failed
computation is kept: what it did before the error stays done. Computations that record what happens are
shown for any answers they get from outside, also where they end with an error. -/

theorem Option.bind_of_eq_some {α β : Type} {x : Option α} {f : α → Option β} {a : α} {b : β}
    (hx : x = some a) (hf : f a = some b) : (x >>= f) = some b := by
  rw [hx]
  exact hf

theorem Except.bind_eq_ok {ε α β : Type} {x : Except ε α} {f : α → Except ε β} {b : β} :
    (x >>= f) = .ok b ↔ ∃ a, x = .ok a ∧ f a = .ok b := by
  cases x with
  | error e => simp [bind, Except.bind]
  | ok a => simp [bind, Except.bind]

/-- A list of computations succeeds when each of them does. -/
theorem Except.mapM_eq_ok {ε α β : Type} {f : α → Except ε β} {items : List α} {results : List β} :
    items.mapM f = .ok results ↔ List.Forall₂ (fun item b => f item = .ok b) items results := by
  induction items generalizing results with
  | nil =>
    rw [List.mapM_nil, List.forall₂_nil_left_iff]
    exact ⟨fun h => (Except.ok.inj h).symm, fun h => by rw [h]; rfl⟩
  | cons item rest ih =>
    rw [List.mapM_cons, Except.bind_eq_ok, List.forall₂_cons_left_iff]
    apply exists_congr
    intro b
    constructor
    · rintro ⟨hitem, hrest⟩
      obtain ⟨more, hmore, hall⟩ := Except.bind_eq_ok.mp hrest
      exact ⟨more, hitem, ih.mp hmore, (Except.ok.inj hall).symm⟩
    · rintro ⟨more, hitem, hmore, rfl⟩
      exact ⟨hitem, Except.bind_eq_ok.mpr ⟨more, ih.mpr hmore, rfl⟩⟩

/-- The results are those of the items. -/
theorem Except.mem_of_mapM_eq_ok {ε α β : Type} {f : α → Except ε β} {items : List α}
    {results : List β} (h : items.mapM f = .ok results) {b : β} :
    b ∈ results ↔ ∃ item ∈ items, f item = .ok b := by
  have hall := Except.mapM_eq_ok.mp h
  clear h
  induction hall with
  | nil =>
    refine ⟨fun hmem => absurd hmem List.not_mem_nil, fun hsome => ?_⟩
    obtain ⟨item, hmem, -⟩ := hsome
    exact absurd hmem List.not_mem_nil
  | @cons item first rest more hitem _ ih =>
    have hfirst : b = first ↔ f item = .ok b := by
      rw [hitem]
      exact ⟨fun heq => heq ▸ rfl, fun heq => (Except.ok.inj heq).symm⟩
    refine (List.mem_cons.trans (or_congr hfirst ih)).trans ⟨?_, ?_⟩
    · rintro (hitem' | ⟨other, hother, hresult⟩)
      · exact ⟨item, List.mem_cons_self, hitem'⟩
      · exact ⟨other, List.mem_cons_of_mem _ hother, hresult⟩
    · rintro ⟨other, hother, hresult⟩
      rcases List.mem_cons.mp hother with rfl | hrest
      · exact Or.inl hresult
      · exact Or.inr ⟨other, hrest, hresult⟩

namespace EStateM
variable {ε σ α β : Type}

/-- The state a computation leaves, whether it fails or not. -/
def Result.state : Result ε σ α → σ
  | .ok _ s => s
  | .error _ s => s

/-- The state, if the computation succeeded. -/
def Result.okState? : Result ε σ α → Option σ
  | .ok _ s => some s
  | .error _ _ => none

/-- What is answered, without the state that is left. -/
def Result.answer : Result ε σ α → Except ε α
  | .ok a _ => .ok a
  | .error e _ => .error e

theorem Result.toOption_answer {r : Result ε σ α} {a : α} :
    r.answer.toOption = some a ↔ ∃ s, r = .ok a s := by
  cases r <;> simp [Result.answer, Except.toOption]

theorem Result.okState?_eq_some {r : Result ε σ α} {s : σ} :
    r.okState? = some s ↔ ∃ a, r = .ok a s := by
  cases r <;> simp [Result.okState?]

theorem bind_eq_ok {x : EStateM ε σ α} {f : α → EStateM ε σ β} {s s' : σ} {b : β} :
    (x >>= f) s = .ok b s' ↔ ∃ a s₁, x s = .ok a s₁ ∧ f a s₁ = .ok b s' := by
  show EStateM.bind x f s = .ok b s' ↔ _
  unfold EStateM.bind
  cases h : x s <;> simp [and_assoc]

theorem bind_eq_error {x : EStateM ε σ α} {f : α → EStateM ε σ β} {s s' : σ} {e : ε} :
    (x >>= f) s = .error e s' ↔
      x s = .error e s' ∨ ∃ a s₁, x s = .ok a s₁ ∧ f a s₁ = .error e s' := by
  show EStateM.bind x f s = .error e s' ↔ _
  unfold EStateM.bind
  cases h : x s <;> simp [and_assoc]

theorem pure_eq_ok {a b : α} {s s' : σ} :
    (pure a : EStateM ε σ α) s = .ok b s' ↔ a = b ∧ s' = s := by
  have hpure : (pure a : EStateM ε σ α) s = .ok a s := rfl
  rw [hpure, Result.ok.injEq, eq_comm (a := s)]

theorem throw_ne_ok {e : ε} {a : α} {s s' : σ} :
    (throw e : EStateM ε σ α) s ≠ .ok a s' := by
  intro h
  cases h

/-! ## What every run keeps -/

/-- Every run of the computation, failed runs included, moves the state along `R`. -/
def Moves (R : σ → σ → Prop) (x : EStateM ε σ α) : Prop := ∀ s, R s (x s).state

theorem moves_pure {R : σ → σ → Prop} [Std.Refl R] (a : α) : Moves R (pure a : EStateM ε σ α) :=
  fun s => Std.Refl.refl s

theorem moves_throw {R : σ → σ → Prop} [Std.Refl R] (e : ε) :
    Moves R (throw e : EStateM ε σ α) := fun s => Std.Refl.refl s

theorem moves_bind {R : σ → σ → Prop} [IsTrans σ R] {x : EStateM ε σ α}
    {f : α → EStateM ε σ β} (hx : Moves R x) (hf : ∀ a, Moves R (f a)) : Moves R (x >>= f) := by
  intro s
  have hstep := hx s
  show R s (EStateM.bind x f s).state
  unfold EStateM.bind
  cases h : x s with
  | error e s₁ =>
    rw [h] at hstep
    exact hstep
  | ok a s₁ =>
    rw [h] at hstep
    exact IsTrans.trans _ _ _ hstep (hf a s₁)

end EStateM

/-! ## Recorded events -/

namespace Traces
variable {Event ε α β : Type}

def emit (event : Event) : EStateM ε (List Event) Unit := fun log => .ok () (log ++ [event])

def ask (answer : List Event → β) (record : β → Event) : EStateM ε (List Event) β := fun log =>
  .ok (answer log) (log ++ [record (answer log)])

/-- Whatever has happened before, the result and the new events are as stated. -/
def Run (x : EStateM ε (List Event) α) (P : Except ε α → List Event → Prop) : Prop :=
  ∀ log, ∃ new, (x log).state = log ++ new ∧ P (x log).answer new

section Rules
variable {x : EStateM ε (List Event) α} {f : α → EStateM ε (List Event) β}
  {P Q : Except ε α → List Event → Prop} {R : Except ε β → List Event → Prop}

theorem Run.mono (h : Run x P) (himp : ∀ answer new, P answer new → Q answer new) : Run x Q := by
  intro log
  obtain ⟨new, hstate, hP⟩ := h log
  exact ⟨new, hstate, himp _ _ hP⟩

theorem run_pure {a : α} (h : P (.ok a) []) : Run (pure a) P := by
  intro log
  exact ⟨[], (List.append_nil log).symm, h⟩

theorem run_throw {e : ε} (h : P (.error e) []) : Run (throw e) P := by
  intro log
  exact ⟨[], (List.append_nil log).symm, h⟩

theorem run_emit {P : Except ε Unit → List Event → Prop} {event : Event}
    (h : P (.ok ()) [event]) : Run (emit event) P := by
  intro log
  exact ⟨[event], rfl, h⟩

theorem run_ask {P : Except ε β → List Event → Prop} {answer : List Event → β}
    {record : β → Event} (h : ∀ b, P (.ok b) [record b]) : Run (ask answer record) P := by
  intro log
  exact ⟨[record (answer log)], rfl, h _⟩

/-- An error ends the computation; otherwise the events of what follows come behind. -/
theorem run_bind (hx : Run x Q) (herror : ∀ e new, Q (.error e) new → R (.error e) new)
    (hf : ∀ a new, Q (.ok a) new → Run (f a) fun answer more => R answer (new ++ more)) :
    Run (x >>= f) R := by
  intro log
  obtain ⟨new, hstate, hQ⟩ := hx log
  cases hrun : x log with
  | error e middle =>
    rw [hrun] at hstate hQ
    have hbind : (x >>= f) log = .error e middle := EStateM.bind_eq_error.mpr (Or.inl hrun)
    rw [hbind]
    exact ⟨new, hstate, herror e new hQ⟩
  | ok a middle =>
    rw [hrun] at hstate hQ
    have hmiddle : middle = log ++ new := hstate
    obtain ⟨more, hmore, hR⟩ := hf a new hQ middle
    have hbind : (x >>= f) log = f a middle := by
      show EStateM.bind x f log = f a middle
      rw [EStateM.bind, hrun]
    rw [hbind]
    refine ⟨new ++ more, ?_, hR⟩
    rw [hmore, hmiddle, List.append_assoc]

end Rules

/-! ## Events of one kind -/

/-- All new events are of a kind. -/
def Records (Q : Event → Prop) (x : EStateM ε (List Event) α) : Prop :=
  Run x fun _ new => ∀ event ∈ new, Q event

section Kinds
variable {Q R : Event → Prop} {x : EStateM ε (List Event) α} {f : α → EStateM ε (List Event) β}

theorem records_pure (a : α) : Records Q (pure a : EStateM ε (List Event) α) :=
  run_pure fun _ hmem => absurd hmem List.not_mem_nil

theorem records_throw (e : ε) : Records Q (throw e : EStateM ε (List Event) α) :=
  run_throw fun _ hmem => absurd hmem List.not_mem_nil

theorem records_ask {answer : List Event → β} {record : β → Event} (h : ∀ b, Q (record b)) :
    Records Q (ask answer record : EStateM ε (List Event) β) :=
  run_ask fun b => List.forall_mem_singleton.mpr (h b)

theorem records_bind (hx : Records Q x) (hf : ∀ a, Records Q (f a)) : Records Q (x >>= f) := by
  refine run_bind hx (fun _ _ h => h) fun a new hnew => ?_
  exact (hf a).mono fun _ more hmore => List.forall_mem_append.mpr ⟨hnew, hmore⟩

theorem Records.mono (h : Records Q x) (himp : ∀ event, Q event → R event) : Records R x :=
  Run.mono h fun _ _ hall event hevent => himp event (hall event hevent)

end Kinds

end Traces
