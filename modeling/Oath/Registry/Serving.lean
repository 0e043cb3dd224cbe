import Oath.Library.Programs
import Oath.Registry.Manifest

/-! Requests that are served at the same time: programs of calls that answer or refuse, and what all
of them keep. -/

namespace Oath.Registry
open Program

/-- `as i64`. -/
def asI64 (n : ℕ) : ℤ :=
  let bits : ℕ := n % 2 ^ 64
  if bits < 2 ^ 63 then bits else bits - 2 ^ 64

theorem asI64_of_lt {n : ℕ} (h : n < 2 ^ 63) : asI64 n = n := by
  have hbits : n % 2 ^ 64 = n := Nat.mod_eq_of_lt (by omega)
  unfold asI64
  dsimp only
  rw [hbits, if_pos h]

theorem asI64_le (n : ℕ) : asI64 n ≤ n := by
  unfold asI64
  dsimp only
  split_ifs with hsign
  · omega
  · omega

/-- A call that fails ends the request with an internal error. -/
abbrev Serving (σ α : Type) := ExceptT ApiError (Program σ) α

namespace Serving
variable {σ α β : Type}

def execute (f : σ → Except String (α × σ)) : Serving σ α := ExceptT.lift (.call f .done)

def query (f : σ → α) : Serving σ α := execute fun s => .ok (f s, s)

def reject (condition : Bool) (error : ApiError) : Serving σ Unit :=
  if condition then throw error else pure ()

def found (x : Option α) (error : ApiError) : Serving σ α :=
  match x with
  | some a => pure a
  | none => throw error

def ofResult (x : Except String α) (error : String → ApiError) : Serving σ α :=
  match x with
  | .ok a => pure a
  | .error message => throw (error message)

/-- What the answer says holds, and every call keeps the state. -/
abbrev Serves (R : σ → σ → Prop) (G : σ → Prop) (Q : σ → α → Prop) (s : σ)
    (x : Serving σ α) : Prop := Sound R G (Program.Answers Q) s x.run

section Rules
variable {R : σ → σ → Prop} {G : σ → Prop} {s : σ}

theorem serves_bind [Std.Refl R] [IsTrans σ R] {P : σ → α → Prop} {Q : σ → β → Prop}
    {x : Serving σ α} {k : α → Serving σ β} (hx : Serves R G P s x)
    (hk : ∀ s' a, R s s' → P s' a → Serves R G Q s' (k a)) : Serves R G Q s (x >>= k) :=
  sound_bind_except hx hk

theorem serves_execute {Q : σ → α → Prop} {f : σ → Except String (α × σ)}
    (h : ∀ s₁, R s s₁ → G s₁ → ∀ a s', f s₁ = .ok (a, s') → R s₁ s' ∧ G s' ∧ Q s' a) :
    Serves R G Q s (execute f) := sound_lift h

theorem serves_reject {condition : Bool} {error : ApiError} :
    Serves R G (fun _ _ => condition = false) s (reject condition error) := by
  unfold reject
  cases condition with
  | true => trivial
  | false => exact (rfl : false = false)

theorem serves_found {x : Option α} {error : ApiError} :
    Serves R G (fun _ a => x = some a) s (found x error) := by
  cases x with
  | none => trivial
  | some a => exact (rfl : some a = some a)

theorem serves_ofResult {x : Except String α} {error : String → ApiError} :
    Serves R G (fun _ a => x = .ok a) s (ofResult x error) := by
  cases x with
  | error message => trivial
  | ok a => exact (rfl : (Except.ok a : Except String α) = .ok a)

theorem serves_query [Std.Refl R] {f : σ → α} :
    Serves R G (fun s' a => G s' ∧ f s' = a) s (query f) := by
  refine serves_execute fun s₁ _ hG a s' hf => ?_
  obtain ⟨rfl, rfl⟩ := Prod.mk.inj (Except.ok.inj hf)
  exact ⟨refl s₁, hG, hG, rfl⟩

end Rules

end Serving

end Oath.Registry
