import Mathlib.Data.List.Lex
import Oath.Library.Replace

/-! The order of the bytes of texts is the order of their characters: texts are sorted alike
by code points and by their UTF-8 bytes. -/

namespace Utf8
open Replace

/-- The encodings differ first in a byte that is smaller in the first. -/
def Below (as bs : List UInt8) : Prop :=
  ∃ front a more b rest, as = front ++ a :: more ∧ bs = front ++ b :: rest ∧ a < b

theorem ofNat_lt {m n : ℕ} (h : m < n) (hn : n < 256) : UInt8.ofNat m < UInt8.ofNat n := by
  rw [UInt8.lt_iff_toNat_lt, UInt8.toNat_ofNat', UInt8.toNat_ofNat']
  omega

theorem below_head {m n : ℕ} (h : m < n) (hn : n < 256) (as bs : List UInt8) :
    Below (.ofNat m :: as) (.ofNat n :: bs) :=
  ⟨[], _, _, _, _, rfl, rfl, ofNat_lt h hn⟩

theorem below_cons {as bs : List UInt8} (h : Below as bs) (b : UInt8) :
    Below (b :: as) (b :: bs) := by
  obtain ⟨front, a, more, c, rest, rfl, rfl, hlt⟩ := h
  exact ⟨b :: front, a, more, c, rest, rfl, rfl, hlt⟩

/-- Either the first bytes decide or they are equal. -/
theorem below_digits {m n : ℕ} (hn : n < 256) {as bs : List UInt8} (hle : m ≤ n)
    (h : m = n → Below as bs) : Below (.ofNat m :: as) (.ofNat n :: bs) := by
  rcases Nat.lt_or_eq_of_le hle with hlt | rfl
  · exact below_head hlt hn as bs
  · exact below_cons (h rfl) _

theorem below_utf8EncodeChar {c d : Char} (h : c < d) :
    Below (String.utf8EncodeChar c) (String.utf8EncodeChar d) := by
  have hlt : c.val.toNat < d.val.toNat := h
  have hmax : d.val.toNat < 0x110000 := by
    rcases d.valid with hlow | hhigh
    · exact lt_of_lt_of_le hlow (by decide)
    · exact hhigh.2
  unfold String.utf8EncodeChar
  dsimp only
  generalize c.val.toNat = m at *
  generalize d.val.toNat = n at *
  split_ifs with h1 h2 h3 h4 h5 h6 h7 h8 h9
  all_goals first
    | (exfalso; omega)
    | exact below_head (by omega) (by omega) _ _
    | (refine below_digits (by omega) (by omega) fun _ => ?_
       exact below_head (by omega) (by omega) _ _)
    | (refine below_digits (by omega) (by omega) fun _ => ?_
       refine below_digits (by omega) (by omega) fun _ => ?_
       exact below_head (by omega) (by omega) _ _)
    | (refine below_digits (by omega) (by omega) fun _ => ?_
       refine below_digits (by omega) (by omega) fun _ => ?_
       refine below_digits (by omega) (by omega) fun _ => ?_
       exact below_head (by omega) (by omega) _ _)

theorem lt_of_below {as bs : List UInt8} (h : Below as bs) (xs ys : List UInt8) :
    as ++ xs < bs ++ ys := by
  obtain ⟨front, a, more, b, rest, rfl, rfl, hlt⟩ := h
  rw [List.append_assoc, List.append_assoc]
  apply List.append_left_lt
  exact List.Lex.rel hlt

theorem encode_lt {a b : List Char} (h : a < b) : encode a < encode b := by
  induction h with
  | nil =>
    rename_i c rest
    rw [encode_cons]
    have hne : String.utf8EncodeChar c ++ encode rest ≠ [] := by
      intro hnil
      have hlen := congrArg List.length (List.append_eq_nil_iff.mp hnil).1
      rw [String.length_utf8EncodeChar] at hlen
      exact absurd hlen (Nat.pos_iff_ne_zero.mp c.utf8Size_pos)
    obtain ⟨first, more, heq⟩ := List.exists_cons_of_ne_nil hne
    rw [heq]
    exact List.Lex.nil
  | cons _ ih =>
    rw [encode_cons, encode_cons]
    exact List.append_left_lt ih
  | rel hlt =>
    rw [encode_cons, encode_cons]
    exact lt_of_below (below_utf8EncodeChar hlt) _ _

/-- Texts are in order exactly when their bytes are. -/
theorem encode_lt_iff (a b : List Char) : encode a < encode b ↔ a < b := by
  constructor
  · intro hlt
    by_contra hnot
    by_cases hba : b < a
    · exact List.lt_asymm hlt (encode_lt hba)
    · obtain rfl := List.le_antisymm hba hnot
      exact List.lt_irrefl _ hlt
  · exact encode_lt

end Utf8
