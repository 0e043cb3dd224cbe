import Oath.Library.Interleaving
import Oath.Library.Service

/-! Programs of calls to services, and many of them that run at the same time: between two calls of
one any number of calls of the others can come. -/

/-- A program up to its next call. -/
inductive Program (σ α : Type) : Type 1
  | done (a : α)
  | failed (message : String)
  | call {β : Type} (f : σ → Except String (β × σ)) (next : β → Program σ α)

namespace Program
variable {σ α β : Type}

def bind (x : Program σ α) (k : α → Program σ β) : Program σ β :=
  match x with
  | done a => k a
  | failed message => failed message
  | call f next => call f fun b => (next b).bind k

instance : Monad (Program σ) where
  pure := done
  bind := bind

/-- The program on its own, with nothing between its calls. -/
def toService : Program σ α → Service σ α
  | done a => pure a
  | failed message => throw message
  | call f next => Service.call f >>= fun b => (next b).toService

theorem toService_bind (x : Program σ α) (k : α → Program σ β) :
    (x >>= k).toService = x.toService >>= fun a => (k a).toService := by
  change (x.bind k).toService = _
  induction x with
  | done a => exact (pure_bind (m := Service σ) a fun a => (k a).toService).symm
  | failed message => rfl
  | call f next ih =>
    rw [Program.bind, toService, toService, bind_assoc]
    exact congrArg (Service.call f >>= ·) (funext ih)

/-- A program that is a single call. -/
theorem toService_call (f : σ → Except String (α × σ)) :
    (call f done).toService = Service.call f := bind_pure _

/-- A call can be lost before it has any effect, or have its effect and lose its answer. -/
def afterCall (fault : Fault) (s : σ) (f : σ → Except String (β × σ)) (next : β → Program σ α) :
    σ × Program σ α :=
  match fault, f s with
  | .none, .ok (b, s') => (s', next b)
  | .none, .error message => (s, failed message)
  | .lost message, _ => (s, failed message)
  | .unacknowledged message, .ok (_, s') => (s', failed message)
  | .unacknowledged message, .error _ => (s, failed message)

def step (fault : Fault) (s : σ) : Program σ α → Option (σ × Program σ α)
  | call f next => some (afterCall fault s f next)
  | _ => none

/-- Every call keeps the property of the state, whatever was done in between that keeps it, and the
answer has its own property. -/
def Safe (G : σ → Prop) (Q : α → Prop) : Program σ α → Prop
  | done a => Q a
  | failed _ => True
  | call f next => ∀ s, G s → ∀ b s', f s = .ok (b, s') → G s' ∧ (next b).Safe G Q

section Safe
variable {G : σ → Prop}

theorem safe_pure {Q : α → Prop} {a : α} (h : Q a) : Safe G Q (pure a : Program σ α) := h

theorem safe_failed {Q : α → Prop} (message : String) : Safe G Q (failed message : Program σ α) :=
  trivial

theorem safe_bind {P : α → Prop} {Q : β → Prop} {x : Program σ α} {k : α → Program σ β}
    (hx : Safe G P x) (hk : ∀ a, P a → Safe G Q (k a)) : Safe G Q (x >>= k) := by
  change Safe G Q (x.bind k)
  induction x with
  | done a => exact hk a hx
  | failed message => trivial
  | call f next ih =>
    intro s hs b s' hf
    obtain ⟨hs', hnext⟩ := hx s hs b s' hf
    exact ⟨hs', ih b hnext⟩

/-- A single call. -/
theorem safe_call {Q : α → Prop} {f : σ → Except String (α × σ)}
    (h : ∀ s, G s → ∀ a s', f s = .ok (a, s') → G s' ∧ Q a) : Safe G Q (call f done) := h

theorem step_safe {Q : α → Prop} {fault : Fault} {s s' : σ} {x x' : Program σ α}
    (hs : G s) (hx : Safe G Q x) (h : x.step fault s = some (s', x')) : G s' ∧ Safe G Q x' := by
  cases x with
  | done a => cases h
  | failed message => cases h
  | call f next =>
    have hafter : afterCall fault s f next = (s', x') := Option.some.inj h
    unfold afterCall at hafter
    cases hf : f s with
    | error message =>
      rw [hf] at hafter
      cases fault <;>
      · obtain ⟨rfl, rfl⟩ := Prod.mk.inj hafter
        exact ⟨hs, trivial⟩
    | ok result =>
      obtain ⟨b, after⟩ := result
      rw [hf] at hafter
      obtain ⟨hkept, hnext⟩ := hx s hs b after hf
      cases fault with
      | none =>
        obtain ⟨rfl, rfl⟩ := Prod.mk.inj hafter
        exact ⟨hkept, hnext⟩
      | lost message =>
        obtain ⟨rfl, rfl⟩ := Prod.mk.inj hafter
        exact ⟨hs, trivial⟩
      | unacknowledged message =>
        obtain ⟨rfl, rfl⟩ := Prod.mk.inj hafter
        exact ⟨hkept, trivial⟩

end Safe

/-! ## Programs at the same time -/

/-- A call of a program, or something that happens to the services. -/
inductive Event (ε : Type)
  | call (fault : Fault)
  | happens (what : ε)

/-- Programs that share the services, to which other things can happen as well. -/
def pool {Thread ε : Type} (happen : ε → σ → σ) :
    Threads Thread (Event ε) σ (Program σ α) where
  step _ event s x :=
    match event with
    | .call fault => x.step fault s
    | .happens what => some (happen what s, x)

/-- Safe programs keep the property of the state in any order of their calls, and their answers have
theirs. -/
theorem run_safe {Thread ε : Type} [DecidableEq Thread] {happen : ε → σ → σ} {G : σ → Prop}
    {Q : Thread → α → Prop} (happen_keeps : ∀ what s, G s → G (happen what s))
    {s s' : Threads.State Thread σ (Program σ α)} {events : List (Thread × Event ε)}
    (hs : G s.shared) (hsafe : ∀ i, Safe G (Q i) (s.locals i))
    (hrun : (pool happen).run s events = some s') :
    G s'.shared ∧ ∀ i, Safe G (Q i) (s'.locals i) := by
  refine Threads.run_each (G := G) (P := fun i _ x => Safe G (Q i) x) ?_ ?_ ⟨hs, hsafe⟩ hrun
  · intro i event shared x shared' x' hshared hx hstep
    cases event with
    | call fault => exact step_safe hshared hx hstep
    | happens what =>
      obtain ⟨rfl, rfl⟩ := Prod.mk.inj (Option.some.inj hstep)
      exact ⟨happen_keeps what shared hshared, hx⟩
  · exact fun i j event shared x mine shared' x' _ _ _ _ hmine => hmine

/-! ## States in an order -/

/-- From a state that is as late as `s`, every call leads to one that is at least as late and keeps
the property of the state. The answer has its property in the state that it is given in. -/
def Sound (R : σ → σ → Prop) (G : σ → Prop) (Q : σ → α → Prop) (s : σ) : Program σ α → Prop
  | done a => Q s a
  | failed _ => True
  | call f next => ∀ s₁, R s s₁ → G s₁ → ∀ b s', f s₁ = .ok (b, s') →
      R s₁ s' ∧ G s' ∧ (next b).Sound R G Q s'

/-- A property that holds on in all later states. -/
def Stable (R : σ → σ → Prop) (Q : σ → α → Prop) : Prop := ∀ s s' a, R s s' → Q s a → Q s' a

section Sound
variable {R : σ → σ → Prop} {G : σ → Prop} {s s' : σ}

theorem Sound.later [IsTrans σ R] {Q : σ → α → Prop} {x : Program σ α} (hQ : Stable R Q)
    (h : x.Sound R G Q s) (hlater : R s s') : x.Sound R G Q s' := by
  cases x with
  | done a => exact hQ s s' a hlater h
  | failed message => trivial
  | call f next => exact fun s₁ hs₁ => h s₁ (IsTrans.trans _ _ _ hlater hs₁)

theorem sound_bind [Std.Refl R] [IsTrans σ R] {P : σ → α → Prop} {Q : σ → β → Prop}
    {x : Program σ α} {k : α → Program σ β} (hx : x.Sound R G P s)
    (hk : ∀ s' a, R s s' → P s' a → (k a).Sound R G Q s') : (x >>= k).Sound R G Q s := by
  change (x.bind k).Sound R G Q s
  induction x generalizing s with
  | done a => exact hk s a (refl s) hx
  | failed message => trivial
  | call f next ih =>
    intro s₁ hs₁ hG b s' hf
    obtain ⟨hlater, hkept, hnext⟩ := hx s₁ hs₁ hG b s' hf
    refine ⟨hlater, hkept, ih b hnext fun s₂ a hs₂ hP => hk s₂ a ?_ hP⟩
    exact IsTrans.trans _ _ _ hs₁ (IsTrans.trans _ _ _ hlater hs₂)

/-- The answer, when it is one, has the property. -/
def Answers {ε : Type} (Q : σ → α → Prop) (s : σ) : Except ε α → Prop
  | .ok a => Q s a
  | .error _ => True

theorem stable_answers {ε : Type} {Q : σ → α → Prop} (h : Stable R Q) :
    Stable R (Answers Q : σ → Except ε α → Prop) := by
  intro s s' answer hlater hQ
  cases answer with
  | ok a => exact h s s' a hlater hQ
  | error e => trivial

theorem sound_bind_except [Std.Refl R] [IsTrans σ R] {ε : Type} {P : σ → α → Prop}
    {Q : σ → β → Prop} {x : ExceptT ε (Program σ) α} {k : α → ExceptT ε (Program σ) β}
    (hx : Sound R G (Answers P) s x.run)
    (hk : ∀ s' a, R s s' → P s' a → Sound R G (Answers Q) s' (k a).run) :
    Sound R G (Answers Q) s (x >>= k).run := by
  refine sound_bind hx fun s' answer hlater hP => ?_
  cases answer with
  | ok a => exact hk s' a hlater hP
  | error e => trivial

/-- A call whose failure is not an answer. -/
theorem sound_lift {ε : Type} {Q : σ → α → Prop} {f : σ → Except String (α × σ)}
    (h : ∀ s₁, R s s₁ → G s₁ → ∀ a s', f s₁ = .ok (a, s') → R s₁ s' ∧ G s' ∧ Q s' a) :
    Sound R G (Answers Q) s (ExceptT.lift (call f done) : ExceptT ε (Program σ) α).run := h

theorem step_sound [Std.Refl R] {Q : σ → α → Prop} {fault : Fault} {x x' : Program σ α}
    (hs : G s) (hx : x.Sound R G Q s) (h : x.step fault s = some (s', x')) :
    R s s' ∧ G s' ∧ x'.Sound R G Q s' := by
  cases x with
  | done a => cases h
  | failed message => cases h
  | call f next =>
    have hafter : afterCall fault s f next = (s', x') := Option.some.inj h
    unfold afterCall at hafter
    cases hf : f s with
    | error message =>
      rw [hf] at hafter
      cases fault <;>
      · obtain ⟨rfl, rfl⟩ := Prod.mk.inj hafter
        exact ⟨refl s, hs, trivial⟩
    | ok result =>
      obtain ⟨b, after⟩ := result
      rw [hf] at hafter
      obtain ⟨hlater, hkept, hnext⟩ := hx s (refl s) hs b after hf
      cases fault with
      | none =>
        obtain ⟨rfl, rfl⟩ := Prod.mk.inj hafter
        exact ⟨hlater, hkept, hnext⟩
      | lost message =>
        obtain ⟨rfl, rfl⟩ := Prod.mk.inj hafter
        exact ⟨refl s, hs, trivial⟩
      | unacknowledged message =>
        obtain ⟨rfl, rfl⟩ := Prod.mk.inj hafter
        exact ⟨hlater, hkept, trivial⟩

/-- Sound programs, and what happens in between, lead to a later state in any order. -/
theorem run_sound {Thread ε : Type} [DecidableEq Thread] [Std.Refl R] [IsTrans σ R]
    {happen : ε → σ → σ} {Q : Thread → σ → α → Prop} (hQ : ∀ i, Stable R (Q i))
    {start finish : Threads.State Thread σ (Program σ α)} {events : List (Thread × Event ε)}
    (happens : ∀ i what, (i, .happens what) ∈ events → ∀ s, G s →
      R s (happen what s) ∧ G (happen what s))
    (hG : G start.shared) (hsound : ∀ i, (start.locals i).Sound R G (Q i) start.shared)
    (hrun : (pool happen).run start events = some finish) :
    R start.shared finish.shared ∧ G finish.shared ∧
      ∀ i, (finish.locals i).Sound R G (Q i) finish.shared := by
  refine Threads.run_invariant_of_meets (C := fun _ event => event ∈ events)
    (I := fun s => R start.shared s.shared ∧ G s.shared ∧
      ∀ i, (s.locals i).Sound R G (Q i) s.shared) ?_ ⟨refl _, hG, hsound⟩ ?_ hrun
  · rintro s ⟨j, event⟩ s' ⟨hlater, hkept, hsound⟩ hmem hfire
    obtain ⟨shared, own, hstep, rfl⟩ := Threads.fire_eq_some.mp hfire
    have hmoved : R s.shared shared ∧ G shared ∧ own.Sound R G (Q j) shared := by
      cases event with
      | call fault => exact step_sound hkept (hsound j) hstep
      | happens what =>
        obtain ⟨rfl, rfl⟩ := Prod.mk.inj (Option.some.inj hstep)
        obtain ⟨hafter, hG'⟩ := happens j what hmem s.shared hkept
        exact ⟨hafter, hG', (hsound j).later (hQ j) hafter⟩
    refine ⟨IsTrans.trans _ _ _ hlater hmoved.1, hmoved.2.1, fun i => ?_⟩
    dsimp only
    by_cases hsame : i = j
    · subst hsame
      rw [Function.update_self]
      exact hmoved.2.2
    · rw [Function.update_of_ne hsame]
      exact (hsound i).later (hQ i) hmoved.1
  · rintro front event back middle rfl -
    exact List.mem_append_right _ List.mem_cons_self

end Sound

end Program
