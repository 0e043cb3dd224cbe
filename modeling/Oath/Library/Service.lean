import Mathlib.Data.Nat.Notation
import Oath.Library.Outcome

/-! Programs that call services which keep a state and may fail. A call can be lost before
it has any effect, or have its effect and lose its answer. The clock can show any times. Of two runs side
by side, the rules say when their answers are related. -/

inductive Fault
  | none
  | lost (message : String)
  | unacknowledged (message : String)
deriving DecidableEq, Repr

/-- The services' state, what becomes of the calls to come and the times the clock will
show. -/
structure World (σ : Type) where
  state : σ
  faults : List Fault
  times : List ℕ

abbrev Service (σ α : Type) := EStateM String (World σ) α

namespace Service
variable {σ τ α β ε ε' : Type}

/-- One call: all of its effect or none. -/
def call (f : σ → Except String (α × σ)) : Service σ α := fun w =>
  let next := { w with faults := w.faults.tail }
  match w.faults.headD .none, f w.state with
  | .none, .ok (a, s) => .ok a { next with state := s }
  | .none, .error message => .error message next
  | .lost message, _ => .error message next
  | .unacknowledged message, .ok (_, s) => .error message { next with state := s }
  | .unacknowledged message, .error _ => .error message next

def read (f : σ → α) : Service σ α := call fun s => .ok (f s, s)

/-- The clock shows zero when it has nothing else to show. -/
def now : EStateM ε (World σ) ℕ := fun w => .ok (w.times.headD 0) { w with times := w.times.tail }

/-- A program for one of the services. -/
def within (view : σ → τ) (put : τ → σ → σ) (x : EStateM ε (World τ) α) :
    EStateM ε (World σ) α := fun w =>
  let back := fun v : World τ => World.mk (put v.state w.state) v.faults v.times
  match x { w with state := view w.state } with
  | .ok a v => .ok a (back v)
  | .error e v => .error e (back v)

/-- The same program with its errors reported in another form. -/
def mapError (f : ε → ε') (x : EStateM ε (World σ) α) : EStateM ε' (World σ) α := fun w =>
  match x w with
  | .ok a w' => .ok a w'
  | .error e w' => .error (f e) w'

/-! ## What a run does to the state -/

/-- Every run, failed runs included, moves the services' state along `R`. -/
def Changes (R : σ → σ → Prop) (x : EStateM ε (World σ) α) : Prop :=
  EStateM.Moves (fun w w' => R w.state w'.state) x

theorem call_ok {f : σ → Except String (α × σ)} {w w' : World σ} {a : α}
    (h : call f w = .ok a w') : f w.state = .ok (a, w'.state) := by
  unfold call at h
  split at h
  · next hf =>
    obtain ⟨rfl, rfl⟩ := EStateM.Result.ok.inj h
    exact hf
  all_goals cases h

/-- A call leaves the state it was called in or, whatever is answered, its effect. -/
theorem call_state (f : σ → Except String (α × σ)) (w : World σ) :
    (call f w).state.state = w.state ∨ ∃ a, f w.state = .ok (a, (call f w).state.state) := by
  unfold call
  split
  · next hf => exact Or.inr ⟨_, hf⟩
  · exact Or.inl rfl
  · exact Or.inl rfl
  · next hf => exact Or.inr ⟨_, hf⟩
  · exact Or.inl rfl

theorem read_ok {f : σ → α} {w w' : World σ} {a : α} (h : read f w = .ok a w') :
    a = f w.state ∧ w'.state = w.state := by
  obtain ⟨ha, hw⟩ := Prod.mk.inj (Except.ok.inj (call_ok h))
  exact ⟨ha.symm, hw.symm⟩

theorem read_state (f : σ → α) (w : World σ) : (read f w).state.state = w.state := by
  rcases call_state (fun s => .ok (f s, s)) w with hsame | ⟨a, hf⟩
  · exact hsame
  · exact (Prod.mk.inj (Except.ok.inj hf)).2.symm

theorem within_ok {view : σ → τ} {put : τ → σ → σ} {x : EStateM ε (World τ) α} {w w' : World σ}
    {a : α} (h : within view put x w = .ok a w') :
    ∃ v, x { w with state := view w.state } = .ok a v ∧ w'.state = put v.state w.state := by
  unfold within at h
  dsimp only at h
  split at h
  · next v hx =>
    obtain ⟨rfl, rfl⟩ := EStateM.Result.ok.inj h
    exact ⟨v, hx, rfl⟩
  · cases h

theorem within_state (view : σ → τ) (put : τ → σ → σ) (x : EStateM ε (World τ) α)
    (w : World σ) : (within view put x w).state.state =
      put (x { w with state := view w.state }).state.state w.state := by
  unfold within
  dsimp only
  cases x { w with state := view w.state } <;> rfl

/-- A single call of one of the services, as a call of them all. -/
theorem within_call {view : σ → τ} {put : τ → σ → σ} (f : τ → Except String (α × τ)) {w : World σ}
    (hput : put (view w.state) w.state = w.state) :
    within view put (call f) w =
      call (fun s => (f (view s)).map fun (a, t) => (a, put t s)) w := by
  unfold within call
  dsimp only
  cases w.faults.headD .none <;> cases f (view w.state) <;> simp [Except.map, hput]

/-- A program for one of the services, part by part. -/
theorem within_bind {view : σ → τ} {put : τ → σ → σ} {x : EStateM ε (World τ) α}
    {k : α → EStateM ε (World τ) β} {w : World σ} (hview : ∀ t, view (put t w.state) = t)
    (hput : ∀ t t', put t' (put t w.state) = put t' w.state) :
    within view put (x >>= k) w =
      (within view put x >>= fun a => within view put (k a)) w := by
  show within view put (EStateM.bind x k) w = EStateM.bind (within view put x) _ w
  unfold within EStateM.bind
  dsimp only
  cases x { w with state := view w.state } with
  | error e v => rfl
  | ok a v =>
    dsimp only
    rw [hview]
    cases k a v with
    | ok b v' =>
      dsimp only
      rw [hput]
    | error e v' =>
      dsimp only
      rw [hput]

theorem mapError_ok {f : ε → ε'} {x : EStateM ε (World σ) α} {w w' : World σ} {a : α} :
    mapError f x w = .ok a w' ↔ x w = .ok a w' := by
  unfold mapError
  cases x w <;> simp

theorem mapError_state (f : ε → ε') (x : EStateM ε (World σ) α) (w : World σ) :
    (mapError f x w).state = (x w).state := by
  unfold mapError
  cases x w <;> rfl

section Changes
variable {R : σ → σ → Prop}

theorem changes_call {f : σ → Except String (α × σ)} [Std.Refl R]
    (h : ∀ s a s', f s = .ok (a, s') → R s s') : Changes R (call f) := by
  intro w
  rcases call_state f w with hsame | ⟨a, hf⟩
  · rw [hsame]
    exact Std.Refl.refl _
  · exact h _ a _ hf

theorem changes_read [Std.Refl R] (f : σ → α) : Changes R (read f) := by
  intro w
  rw [read_state]
  exact Std.Refl.refl _

theorem changes_now [Std.Refl R] : Changes R (now : EStateM ε (World σ) ℕ) :=
  fun w => Std.Refl.refl w.state

theorem changes_pure [Std.Refl R] (a : α) : Changes R (pure a : EStateM ε (World σ) α) :=
  fun w => Std.Refl.refl w.state

theorem changes_throw [Std.Refl R] (e : ε) : Changes R (throw e : EStateM ε (World σ) α) :=
  fun w => Std.Refl.refl w.state

theorem changes_get [Std.Refl R] : Changes R (get : EStateM ε (World σ) (World σ)) :=
  fun w => Std.Refl.refl w.state

theorem changes_bind [IsTrans σ R] {x : EStateM ε (World σ) α} {f : α → EStateM ε (World σ) β}
    (hx : Changes R x) (hf : ∀ a, Changes R (f a)) : Changes R (x >>= f) := by
  have : IsTrans (World σ) fun w w' => R w.state w'.state :=
    ⟨fun _ _ _ h h' => IsTrans.trans _ _ _ h h'⟩
  exact EStateM.moves_bind hx hf

theorem changes_mapError {f : ε → ε'} {x : EStateM ε (World σ) α} (h : Changes R x) :
    Changes R (mapError f x) := by
  intro w
  rw [mapError_state]
  exact h w

theorem changes_within {view : σ → τ} {put : τ → σ → σ} {x : EStateM ε (World τ) α}
    {R' : τ → τ → Prop} (h : Changes R' x) (hput : ∀ s t, R' (view s) t → R s (put t s)) :
    Changes R (within view put x) := by
  intro w
  rw [within_state]
  exact hput _ _ (h { w with state := view w.state })

end Changes

/-! ## Runs that only read -/

abbrev Still (x : EStateM ε (World σ) α) : Prop := Changes (· = ·) x

theorem still_read (f : σ → α) : Still (read f) := fun w => (read_state f w).symm

theorem still_bind {x : EStateM ε (World σ) α} {f : α → EStateM ε (World σ) β} (hx : Still x)
    (hf : ∀ a, Still (f a)) : Still (x >>= f) := changes_bind hx hf

theorem still_ok {x : EStateM ε (World σ) α} (hx : Still x) {w w' : World σ} {a : α}
    (h : x w = .ok a w') : w'.state = w.state := by
  have hstate := hx w
  rw [h] at hstate
  exact hstate.symm

/-- What a sequence leaves, when its first part fails and when it does not. -/
theorem bind_then (P : σ → Prop) {x : EStateM ε (World σ) α} {f : α → EStateM ε (World σ) β}
    {w : World σ} (herror : ∀ e w', x w = .error e w' → P w'.state)
    (hok : ∀ a w', x w = .ok a w' → P (f a w').state.state) : P ((x >>= f) w).state.state := by
  show P (EStateM.bind x f w).state.state
  unfold EStateM.bind
  cases h : x w with
  | error e w' => exact herror e w' h
  | ok a w' => exact hok a w' h

theorem still_then (P : σ → Prop) {x : EStateM ε (World σ) α} {f : α → EStateM ε (World σ) β}
    {s : σ} (hsame : P s) (hx : Still x) {w : World σ} (hw : w.state = s)
    (hf : ∀ a w', x w = .ok a w' → w'.state = s → P (f a w').state.state) :
    P ((x >>= f) w).state.state := by
  refine bind_then P (fun e w' h => ?_) fun a w' h => ?_
  · have hstate := hx w
    rw [h] at hstate
    rw [show w'.state = s from hstate.symm.trans hw]
    exact hsame
  · exact hf a w' h ((still_ok hx h).trans hw)

end Service

/-! ## Two runs -/

namespace Service
variable {σ τ α β ε : Type}

/-- Related answers in worlds that go on alike, or one and the same error. -/
def Matched (R : σ → τ → Prop) (S : α → β → Prop) :
    EStateM.Result ε (World σ) α → EStateM.Result ε (World τ) β → Prop
  | .ok a w, .ok b v => S a b ∧ R w.state v.state ∧ w.faults = v.faults ∧ w.times = v.times
  | .error e _, .error e' _ => e = e'
  | _, _ => False

/-- From states along `R` the two programs give answers along `S` and states along `R'`. -/
def Alike (R R' : σ → τ → Prop) (S : α → β → Prop) (x : EStateM ε (World σ) α)
    (y : EStateM ε (World τ) β) : Prop :=
  ∀ s t, R s t → ∀ faults times, Matched R' S (x ⟨s, faults, times⟩) (y ⟨t, faults, times⟩)

/-- The two states themselves. -/
def At (s : σ) (t : τ) : σ → τ → Prop := fun s' t' => s' = s ∧ t' = t

/-- Any two states. -/
def Anywhere : σ → τ → Prop := fun _ _ => True

section Rules
variable {R R' R'' : σ → τ → Prop} {S S' : α → β → Prop} {x : EStateM ε (World σ) α}
  {y : EStateM ε (World τ) β}

theorem alike_pure {a : α} {b : β} (h : S a b) :
    Alike R R S (pure a : EStateM ε (World σ) α) (pure b) :=
  fun _ _ hstate _ _ => ⟨h, hstate, rfl, rfl⟩

theorem alike_throw (e : ε) :
    Alike R R' S (throw e : EStateM ε (World σ) α) (throw e : EStateM ε (World τ) β) :=
  fun _ _ _ _ _ => rfl

theorem matched_iff {r : EStateM.Result ε (World σ) α} {r' : EStateM.Result ε (World τ) β} :
    Matched R S r r' ↔
      (∃ a b s t faults times, r = .ok a ⟨s, faults, times⟩ ∧ r' = .ok b ⟨t, faults, times⟩ ∧
        S a b ∧ R s t) ∨
      ∃ e w v, r = .error e w ∧ r' = .error e v := by
  constructor
  · intro h
    cases r with
    | ok a w =>
      cases r' with
      | ok b v =>
        obtain ⟨s, faults, times⟩ := w
        obtain ⟨t, faults', times'⟩ := v
        obtain ⟨hanswer, hstates, hfaults, htimes⟩ := h
        obtain rfl : faults = faults' := hfaults
        obtain rfl : times = times' := htimes
        exact Or.inl ⟨a, b, s, t, faults, times, rfl, rfl, hanswer, hstates⟩
      | error e v => cases h
    | error e w =>
      cases r' with
      | ok b v => cases h
      | error e' v =>
        obtain rfl : e = e' := h
        exact Or.inr ⟨e, w, v, rfl, rfl⟩
  · intro h
    rcases h with ⟨a, b, s, t, faults, times, rfl, rfl, hanswer, hstates⟩ | ⟨e, w, v, rfl, rfl⟩
    · exact ⟨hanswer, hstates, rfl, rfl⟩
    · exact (rfl : e = e)

theorem Alike.weaken (h : Alike R R' S x y) (hR : ∀ s t, R' s t → R'' s t)
    (hS : ∀ a b, S a b → S' a b) : Alike R R'' S' x y := by
  intro s t hstate faults times
  rcases matched_iff.mp (h s t hstate faults times) with
    ⟨a, b, s', t', faults', times', hx, hy, hanswer, hstates⟩ | ⟨e, w, v, hx, hy⟩
  · rw [hx, hy]
    exact ⟨hS a b hanswer, hR s' t' hstates, rfl, rfl⟩
  · rw [hx, hy]
    exact (rfl : e = e)

theorem alike_bind {γ δ : Type} {T : γ → δ → Prop} {f : α → EStateM ε (World σ) γ}
    {g : β → EStateM ε (World τ) δ} (h : Alike R R' S x y)
    (hnext : ∀ a b, S a b → Alike R' R'' T (f a) (g b)) :
    Alike R R'' T (x >>= f) (y >>= g) := by
  intro s t hstate faults times
  change Matched R'' T (EStateM.bind x f _) (EStateM.bind y g _)
  unfold EStateM.bind
  rcases matched_iff.mp (h s t hstate faults times) with
    ⟨a, b, s', t', faults', times', hx, hy, hanswer, hstates⟩ | ⟨e, w, v, hx, hy⟩
  · rw [hx, hy]
    exact hnext a b hanswer s' t' hstates faults' times'
  · rw [hx, hy]
    exact (rfl : e = e)

theorem alike_bind_same {γ δ : Type} {T : γ → δ → Prop} {x : EStateM ε (World σ) α}
    {y : EStateM ε (World τ) α} {f : α → EStateM ε (World σ) γ} {g : α → EStateM ε (World τ) δ}
    (h : Alike R R Eq x y) (hnext : ∀ a, Alike R R'' T (f a) (g a)) :
    Alike R R'' T (x >>= f) (y >>= g) := by
  apply alike_bind h
  intro a b hsame
  rw [← hsame]
  exact hnext a

/-- The second program need not be looked at after a first one that never succeeds. -/
theorem alike_bind_failing {γ δ : Type} {T : γ → δ → Prop} {f : α → EStateM ε (World σ) γ}
    {g : β → EStateM ε (World τ) δ} (h : Alike R R' (fun _ _ => False) x y) :
    Alike R R'' T (x >>= f) (y >>= g) :=
  alike_bind h fun _ _ hfalse => hfalse.elim

theorem alike_now : Alike R R Eq (now : EStateM ε (World σ) ℕ) (now : EStateM ε (World τ) ℕ) :=
  fun _ _ hstate _ _ => ⟨rfl, hstate, rfl, rfl⟩

/-- Both calls have their effect or both fail with one message. -/
theorem alike_call {f : σ → Except String (α × σ)} {g : τ → Except String (β × τ)}
    (h : ∀ s t, R s t → (∃ a s' b t', f s = .ok (a, s') ∧ g t = .ok (b, t') ∧ S a b ∧ R' s' t') ∨
      ∃ message, f s = .error message ∧ g t = .error message) :
    Alike R R' S (call f) (call g) := by
  intro s t hstate faults times
  unfold call
  dsimp only
  rcases h s t hstate with ⟨a, s', b, t', hf, hg, hanswer, hnext⟩ | ⟨message, hf, hg⟩
  · rw [hf, hg]
    cases faults.headD .none with
    | none => exact ⟨hanswer, hnext, rfl, rfl⟩
    | lost message => exact (rfl : message = message)
    | unacknowledged message => exact (rfl : message = message)
  · rw [hf, hg]
    cases faults.headD .none <;> exact (rfl : _ = _)

theorem alike_read {f : σ → α} {g : τ → β} (h : ∀ s t, R s t → S (f s) (g t)) :
    Alike R R S (read f) (read g) :=
  alike_call fun s t hstate => Or.inl ⟨f s, s, g t, t, rfl, rfl, h s t hstate, hstate⟩

theorem alike_mapError {ε' : Type} {f : ε → ε'} (h : Alike R R' S x y) :
    Alike R R' S (mapError f x) (mapError f y) := by
  intro s t hstate faults times
  unfold mapError
  rcases matched_iff.mp (h s t hstate faults times) with
    ⟨a, b, s', t', faults', times', hx, hy, hanswer, hstates⟩ | ⟨e, w, v, hx, hy⟩
  · rw [hx, hy]
    exact ⟨hanswer, hstates, rfl, rfl⟩
  · rw [hx, hy]
    exact (rfl : f e = f e)

theorem alike_within {σ' τ' : Type} {Q Q' : σ' → τ' → Prop} {view : σ → σ'} {put : σ' → σ → σ}
    {view' : τ → τ'} {put' : τ' → τ → τ} {x : EStateM ε (World σ') α} {y : EStateM ε (World τ') β}
    (h : Alike Q Q' S x y) (hview : ∀ s t, R s t → Q (view s) (view' t))
    (hput : ∀ s t s' t', R s t → Q' s' t' → R' (put s' s) (put' t' t)) :
    Alike R R' S (within view put x) (within view' put' y) := by
  intro s t hstate faults times
  unfold within
  dsimp only
  rcases matched_iff.mp (h (view s) (view' t) (hview s t hstate) faults times) with
    ⟨a, b, s', t', faults', times', hx, hy, hanswer, hstates⟩ | ⟨e, w, v, hx, hy⟩
  · rw [hx, hy]
    exact ⟨hanswer, hput s t s' t' hstate hstates, rfl, rfl⟩
  · rw [hx, hy]
    exact (rfl : e = e)

/-- What can be seen of answers along `S` is the same from both states. -/
theorem Alike.answer {γ : Type} {seen : α → γ} {seen' : β → γ} (h : Alike R R' S x y)
    (hseen : ∀ a b, S a b → seen a = seen' b) {s : σ} {t : τ} (hstate : R s t)
    (faults : List Fault) (times : List ℕ) :
    (x ⟨s, faults, times⟩).answer.map seen = (y ⟨t, faults, times⟩).answer.map seen' := by
  rcases matched_iff.mp (h s t hstate faults times) with
    ⟨a, b, s', t', faults', times', hx, hy, hanswer, -⟩ | ⟨e, w, v, hx, hy⟩
  · rw [hx, hy]
    exact congrArg Except.ok (hseen a b hanswer)
  · rw [hx, hy]
    rfl

end Rules

end Service
