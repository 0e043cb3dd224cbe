import Mathlib.Data.Int.Basic
import Mathlib.Algebra.Order.Ring.Int

/-! Machine arithmetic: what a computation yields when its integers wrap around, beside the
record of whether every one of its steps kept the exact result. -/

namespace Machine

structure Checked (α : Type) where
  value : α
  inRange : Bool

namespace Checked

instance : Monad Checked where
  pure a := ⟨a, true⟩
  bind x f := ⟨(f x.value).value, x.inRange && (f x.value).inRange⟩

variable {α β : Type} {x : Checked α} {f : α → Checked β}

/-- The computation is exact under this condition and under no other, and its value is then
one of these. -/
structure Spec (x : Checked α) (fits : Prop) (post : α → Prop) : Prop where
  inRange : x.inRange = true ↔ fits
  value : fits → post x.value

theorem Spec.pure {a : α} {post : α → Prop} (hpost : post a) :
    Spec (Pure.pure a) True post := by
  refine ⟨?_, fun _ => hpost⟩
  exact iff_of_true rfl trivial

/-- What follows a step is looked at only where the step is exact. -/
theorem Spec.bind {fits rest : Prop} {middle : α → Prop} {post : β → Prop}
    (hx : Spec x fits middle) (hf : fits → ∀ a, middle a → Spec (f a) rest post) :
    Spec (x >>= f) (fits ∧ rest) post := by
  have hrange : (x >>= f).inRange = (x.inRange && (f x.value).inRange) := rfl
  constructor
  · rw [hrange, Bool.and_eq_true]
    constructor
    · intro ⟨hfirst, hsecond⟩
      have hfits := hx.inRange.mp hfirst
      exact ⟨hfits, (hf hfits _ (hx.value hfits)).inRange.mp hsecond⟩
    · intro ⟨hfits, hrest⟩
      exact ⟨hx.inRange.mpr hfits, (hf hfits _ (hx.value hfits)).inRange.mpr hrest⟩
  · intro ⟨hfits, hrest⟩
    exact (hf hfits _ (hx.value hfits)).value hrest

theorem Spec.imp {fits : Prop} {post weaker : α → Prop} (hx : Spec x fits post)
    (himp : ∀ a, fits → post a → weaker a) : Spec x fits weaker :=
  ⟨hx.inRange, fun hfits => himp _ hfits (hx.value hfits)⟩

theorem Spec.congr {fits fits' : Prop} {post : α → Prop} (hx : Spec x fits post)
    (hiff : fits' ↔ fits) : Spec x fits' post :=
  ⟨hx.inRange.trans hiff.symm, fun hfits => hx.value (hiff.mp hfits)⟩

/-- A step that is always exact adds no condition. -/
theorem Spec.seq {fits rest : Prop} {middle : α → Prop} {post : β → Prop}
    (hx : Spec x fits middle) (hfits : fits) (hf : ∀ a, middle a → Spec (f a) rest post) :
    Spec (x >>= f) rest post :=
  (hx.bind fun _ => hf).congr (iff_and_self.mpr fun _ => hfits)

/-- Nothing after the step can be out of range. -/
theorem Spec.bind_exact {fits : Prop} {middle : α → Prop} {post : β → Prop}
    (hx : Spec x fits middle) (hf : ∀ a, middle a → Spec (f a) True post) :
    Spec (x >>= f) fits post :=
  (hx.bind fun _ => hf).congr (iff_self_and.mpr fun _ => trivial)

end Checked

def FitsSigned (bits : ℕ) (x : ℤ) : Prop := -2 ^ (bits - 1) ≤ x ∧ x < 2 ^ (bits - 1)

def FitsUnsigned (bits : ℕ) (x : ℤ) : Prop := 0 ≤ x ∧ x < 2 ^ bits

instance (bits : ℕ) (x : ℤ) : Decidable (FitsSigned bits x) :=
  inferInstanceAs (Decidable (_ ∧ _))

instance (bits : ℕ) (x : ℤ) : Decidable (FitsUnsigned bits x) :=
  inferInstanceAs (Decidable (_ ∧ _))

/-- An exact result stored as a signed integer of this width. -/
def signed (bits : ℕ) (x : ℤ) : Checked ℤ := ⟨x.bmod (2 ^ bits), decide (FitsSigned bits x)⟩

def unsigned (bits : ℕ) (x : ℤ) : Checked ℕ :=
  ⟨(x % 2 ^ bits).toNat, decide (FitsUnsigned bits x)⟩

theorem bmod_of_fits {bits : ℕ} {x : ℤ} (hbits : 0 < bits) (hfits : FitsSigned bits x) :
    x.bmod (2 ^ bits) = x := by
  obtain ⟨n, rfl⟩ : ∃ n, bits = n + 1 := ⟨bits - 1, by omega⟩
  obtain ⟨hlow, hhigh⟩ := hfits
  have hpow : ((2 ^ (n + 1) : ℕ) : ℤ) = 2 * 2 ^ n := by
    rw [pow_succ]
    push_cast
    exact mul_comm _ _
  rw [Nat.add_sub_cancel] at hlow hhigh
  apply Int.bmod_eq_of_le_mul_two
  · rw [hpow]
    omega
  · rw [hpow]
    omega

section Steps

variable {β : Type} {bits : ℕ} {x : ℤ} {rest : Prop} {post : β → Prop}

theorem signed_spec (hbits : 0 < bits) :
    (signed bits x).Spec (FitsSigned bits x) fun y => y = x := by
  constructor
  · exact decide_eq_true_iff
  · exact bmod_of_fits hbits

theorem unsigned_spec : (unsigned bits x).Spec (FitsUnsigned bits x) fun y => y = x.toNat := by
  constructor
  · exact decide_eq_true_iff
  · intro ⟨hlow, hhigh⟩
    have hmod : x % 2 ^ bits = x := Int.emod_eq_of_lt hlow hhigh
    change (x % 2 ^ bits).toNat = x.toNat
    rw [hmod]

theorem signed_bind {f : ℤ → Checked β} (hbits : 0 < bits)
    (hf : FitsSigned bits x → (f x).Spec rest post) :
    (signed bits x >>= f).Spec (FitsSigned bits x ∧ rest) post := by
  apply (signed_spec hbits).bind
  intro hfits y hy
  rw [hy]
  exact hf hfits

theorem signed_seq {f : ℤ → Checked β} (hbits : 0 < bits) (hfits : FitsSigned bits x)
    (hf : (f x).Spec rest post) : (signed bits x >>= f).Spec rest post := by
  apply (signed_spec hbits).seq hfits
  intro y hy
  rw [hy]
  exact hf

theorem unsigned_bind {f : ℕ → Checked β}
    (hf : FitsUnsigned bits x → (f x.toNat).Spec rest post) :
    (unsigned bits x >>= f).Spec (FitsUnsigned bits x ∧ rest) post := by
  apply unsigned_spec.bind
  intro hfits y hy
  rw [hy]
  exact hf hfits

theorem unsigned_seq {f : ℕ → Checked β} (hfits : FitsUnsigned bits x)
    (hf : (f x.toNat).Spec rest post) : (unsigned bits x >>= f).Spec rest post := by
  apply unsigned_spec.seq hfits
  intro y hy
  rw [hy]
  exact hf

end Steps

end Machine
