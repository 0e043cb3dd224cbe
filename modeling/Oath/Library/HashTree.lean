import Mathlib.Data.List.Basic
import Mathlib.Data.Set.Function

/-! Binary hash trees some of whose values come from outside. A digest determines
the input it was computed from only among inputs that do not collide, so the
statements carry a set of inputs on which the hash is injective. -/

/-- A hash with separate inputs for the empty list, a leaf and a node. A node
input joins two digests without a separator, so it can be split again only when
one of the two has the regular form of a computed digest. -/
structure HashScheme (Leaf Digest Input : Type*) where
  hash : Input → Digest
  emptyInput : Input
  leafInput : Leaf → Input
  nodeInput : Digest → Digest → Input
  Regular : Digest → Prop
  regular_hash (i : Input) : Regular (hash i)
  leafInput_injective : Function.Injective leafInput
  nodeInput_inj {a b c d : Digest} (h : nodeInput a b = nodeInput c d)
    (hc : Regular c) (hd : Regular d) (hab : Regular a ∨ Regular b) : a = c ∧ b = d
  leaf_ne_empty (x : Leaf) : leafInput x ≠ emptyInput
  node_ne_empty (a b : Digest) : nodeInput a b ≠ emptyInput
  node_ne_leaf (a b : Digest) (x : Leaf) : nodeInput a b ≠ leafInput x

/-- Where a list of at least two leaves is divided. -/
structure SplitRule where
  split : ℕ → ℕ
  pos {n : ℕ} (h : 2 ≤ n) : 0 < split n
  lt {n : ℕ} (h : 2 ≤ n) : split n < n

inductive HashTree (Leaf Digest : Type*)
  | given (d : Digest)
  | empty
  | leaf (x : Leaf)
  | node (l r : HashTree Leaf Digest)

namespace HashTree
variable {Leaf Digest Input : Type*}

def digest (H : HashScheme Leaf Digest Input) : HashTree Leaf Digest → Digest
  | given d => d
  | empty => H.hash H.emptyInput
  | leaf x => H.hash (H.leafInput x)
  | node l r => H.hash (H.nodeInput (l.digest H) (r.digest H))

/-- The inputs hashed when the digest of the tree is computed. -/
def inputs (H : HashScheme Leaf Digest Input) : HashTree Leaf Digest → Set Input
  | given _ => ∅
  | empty => {H.emptyInput}
  | leaf x => {H.leafInput x}
  | node l r => insert (H.nodeInput (l.digest H) (r.digest H)) (l.inputs H ∪ r.inputs H)

def Computed : HashTree Leaf Digest → Prop
  | given _ => False
  | _ => True

theorem regular_digest (H : HashScheme Leaf Digest Input) {t : HashTree Leaf Digest}
    (h : t.Computed) : H.Regular (t.digest H) := by
  cases t with
  | given d => exact h.elim
  | empty => exact H.regular_hash _
  | leaf x => exact H.regular_hash _
  | node l r => exact H.regular_hash _

theorem nodeInput_mem_inputs (H : HashScheme Leaf Digest Input) (l r : HashTree Leaf Digest) :
    H.nodeInput (l.digest H) (r.digest H) ∈ (node l r).inputs H := Set.mem_insert _ _

theorem inputs_left_subset (H : HashScheme Leaf Digest Input) (l r : HashTree Leaf Digest) :
    l.inputs H ⊆ (node l r).inputs H := fun _ hi => Or.inr (Or.inl hi)

theorem inputs_right_subset (H : HashScheme Leaf Digest Input) (l r : HashTree Leaf Digest) :
    r.inputs H ⊆ (node l r).inputs H := fun _ hi => Or.inr (Or.inr hi)

/-! ## The tree over a list of leaves -/

def ofLeaves (s : SplitRule) : List Leaf → HashTree Leaf Digest
  | [] => empty
  | [x] => leaf x
  | x :: y :: xs =>
    node (ofLeaves s ((x :: y :: xs).take (s.split (xs.length + 2))))
      (ofLeaves s ((x :: y :: xs).drop (s.split (xs.length + 2))))
termination_by xs => xs.length
decreasing_by
  · have h := s.lt (by omega : 2 ≤ xs.length + 2)
    simp only [List.length_take, List.length_cons]
    omega
  · have h := s.pos (by omega : 2 ≤ xs.length + 2)
    simp only [List.length_drop, List.length_cons]
    omega

theorem ofLeaves_nil (s : SplitRule) : (ofLeaves s [] : HashTree Leaf Digest) = empty := by
  rw [ofLeaves]

theorem ofLeaves_singleton (s : SplitRule) (x : Leaf) :
    (ofLeaves s [x] : HashTree Leaf Digest) = leaf x := by
  rw [ofLeaves]

theorem ofLeaves_of_two_le (s : SplitRule) {xs : List Leaf} (h : 2 ≤ xs.length) :
    (ofLeaves s xs : HashTree Leaf Digest) =
      node (ofLeaves s (xs.take (s.split xs.length))) (ofLeaves s (xs.drop (s.split xs.length))) := by
  match xs, h with
  | x :: y :: xs, _ => rw [ofLeaves]; rfl

theorem computed_ofLeaves (s : SplitRule) (xs : List Leaf) :
    (ofLeaves s xs : HashTree Leaf Digest).Computed := by
  match xs with
  | [] => rw [ofLeaves_nil]; trivial
  | [x] => rw [ofLeaves_singleton]; trivial
  | x :: y :: xs => rw [ofLeaves_of_two_le s (by simp)]; trivial

section Collisions
variable {H : HashScheme Leaf Digest Input} {S : Set Input} {s : SplitRule}

/-- A node with the digest of a tree over leaves stands over a divided list, and
hashes the input that the division hashes. -/
theorem nodeInput_eq_of_digest_eq (hS : Set.InjOn H.hash S) {l r : HashTree Leaf Digest}
    {xs : List Leaf} (hn : (node l r).inputs H ⊆ S) (hxs : (ofLeaves s xs).inputs H ⊆ S)
    (h : (node l r).digest H = (ofLeaves s xs).digest H) :
    2 ≤ xs.length ∧ H.nodeInput (l.digest H) (r.digest H) =
      H.nodeInput ((ofLeaves s (xs.take (s.split xs.length))).digest H)
        ((ofLeaves s (xs.drop (s.split xs.length))).digest H) := by
  have hl := hn (nodeInput_mem_inputs H l r)
  match xs with
  | [] =>
    rw [ofLeaves_nil] at h hxs
    exact absurd (hS hl (hxs rfl) h) (H.node_ne_empty _ _)
  | [x] =>
    rw [ofLeaves_singleton] at h hxs
    exact absurd (hS hl (hxs rfl) h) (H.node_ne_leaf _ _ _)
  | x :: y :: xs =>
    have h2 : 2 ≤ (x :: y :: xs).length := by simp
    rw [ofLeaves_of_two_le s h2] at h hxs
    exact ⟨h2, hS hl (hxs (nodeInput_mem_inputs H _ _)) h⟩

theorem children_of_digest_eq (hS : Set.InjOn H.hash S) {l r : HashTree Leaf Digest}
    {xs : List Leaf} (hn : (node l r).inputs H ⊆ S) (hxs : (ofLeaves s xs).inputs H ⊆ S)
    (hlr : H.Regular (l.digest H) ∨ H.Regular (r.digest H))
    (h : (node l r).digest H = (ofLeaves s xs).digest H) :
    2 ≤ xs.length ∧ l.digest H = (ofLeaves s (xs.take (s.split xs.length))).digest H ∧
      r.digest H = (ofLeaves s (xs.drop (s.split xs.length))).digest H := by
  obtain ⟨h2, hi⟩ := nodeInput_eq_of_digest_eq hS hn hxs h
  exact ⟨h2, H.nodeInput_inj hi (regular_digest H (computed_ofLeaves s _))
    (regular_digest H (computed_ofLeaves s _)) hlr⟩

theorem inputs_take_subset {xs : List Leaf} (h2 : 2 ≤ xs.length)
    (hxs : (ofLeaves s xs).inputs H ⊆ S) :
    (ofLeaves s (xs.take (s.split xs.length))).inputs H ⊆ S := by
  rw [ofLeaves_of_two_le s h2] at hxs
  exact (inputs_left_subset H _ _).trans hxs

theorem inputs_drop_subset {xs : List Leaf} (h2 : 2 ≤ xs.length)
    (hxs : (ofLeaves s xs).inputs H ⊆ S) :
    (ofLeaves s (xs.drop (s.split xs.length))).inputs H ⊆ S := by
  rw [ofLeaves_of_two_le s h2] at hxs
  exact (inputs_right_subset H _ _).trans hxs

/-- Trees over leaves with one digest stand over one list. -/
theorem ofLeaves_digest_injective (hS : Set.InjOn H.hash S) {xs ys : List Leaf}
    (hxs : (ofLeaves s xs).inputs H ⊆ S) (hys : (ofLeaves s ys).inputs H ⊆ S)
    (h : (ofLeaves s xs).digest H = (ofLeaves s ys).digest H) : xs = ys := by
  induction hn : xs.length using Nat.strong_induction_on generalizing xs ys with
  | _ n ih =>
    by_cases h2 : 2 ≤ xs.length
    · have hx : (ofLeaves s xs : HashTree Leaf Digest) = _ := ofLeaves_of_two_le s h2
      have hnode := hx ▸ hxs
      obtain ⟨hy2, hl, hr⟩ := children_of_digest_eq hS hnode hys
        (Or.inl (regular_digest H (computed_ofLeaves s _))) (hx ▸ h)
      have hlt := s.lt h2
      have hpos := s.pos h2
      have htake := ih _ (by simp only [List.length_take]; omega) (inputs_take_subset h2 hxs)
        (inputs_take_subset hy2 hys) hl rfl
      have hdrop := ih _ (by simp only [List.length_drop]; omega) (inputs_drop_subset h2 hxs)
        (inputs_drop_subset hy2 hys) hr rfl
      calc xs = xs.take (s.split xs.length) ++ xs.drop (s.split xs.length) :=
            (List.take_append_drop _ _).symm
        _ = ys.take (s.split ys.length) ++ ys.drop (s.split ys.length) := by rw [htake, hdrop]
        _ = ys := List.take_append_drop _ _
    · by_cases hy2 : 2 ≤ ys.length
      · have hy : (ofLeaves s ys : HashTree Leaf Digest) = _ := ofLeaves_of_two_le s hy2
        exact absurd (nodeInput_eq_of_digest_eq hS (hy ▸ hys) hxs (hy ▸ h.symm)).1 h2
      · match xs, ys with
        | [], [] => rfl
        | [], [y] =>
          rw [ofLeaves_nil, ofLeaves_singleton] at *
          exact absurd (hS (hys rfl) (hxs rfl) h.symm) (H.leaf_ne_empty y)
        | [x], [] =>
          rw [ofLeaves_nil, ofLeaves_singleton] at *
          exact absurd (hS (hxs rfl) (hys rfl) h) (H.leaf_ne_empty x)
        | [x], [y] =>
          simp only [ofLeaves_singleton] at hxs hys h
          rw [H.leafInput_injective (hS (hxs rfl) (hys rfl) h)]
        | _ :: _ :: _, _ => simp at h2
        | _, _ :: _ :: _ => simp at hy2

end Collisions

/-! ## Frontiers

A frontier is folded from the right; a longer frontier over the same first trees
closes the later ones with whatever follows them. -/

def spine : List (HashTree Leaf Digest) → HashTree Leaf Digest
  | [] => empty
  | [t] => t
  | t :: u :: us => node t (spine (u :: us))

/-- `Extends us t`: the trees `us` come first in `t`, each the left child of a node
that holds all the later ones on its right. -/
inductive Extends : List (HashTree Leaf Digest) → HashTree Leaf Digest → Prop
  | nil (t : HashTree Leaf Digest) : Extends [] t
  | cons {us : List (HashTree Leaf Digest)} {t : HashTree Leaf Digest}
      (u : HashTree Leaf Digest) (h : Extends us t) : Extends (u :: us) (node u t)
  | right {us : List (HashTree Leaf Digest)} {t : HashTree Leaf Digest}
      (h : Extends us t) (z : HashTree Leaf Digest) : Extends us (node t z)

theorem Extends.computed {u : HashTree Leaf Digest} {us : List (HashTree Leaf Digest)}
    {t : HashTree Leaf Digest} (h : Extends (u :: us) t) : t.Computed := by
  cases h <;> trivial

/-- If a frontier folds to the root over `A` and an extension of it to the root over
`B`, then `A` is a prefix of `B`. -/
theorem prefix_of_extends {H : HashScheme Leaf Digest Input} {S : Set Input} {s : SplitRule}
    (hS : Set.InjOn H.hash S) {us : List (HashTree Leaf Digest)} {t : HashTree Leaf Digest}
    (hne : us ≠ []) (hext : Extends us t) {A B : List Leaf}
    (hus : (spine us).inputs H ⊆ S) (ht : t.inputs H ⊆ S)
    (hA : (ofLeaves s A).inputs H ⊆ S) (hB : (ofLeaves s B).inputs H ⊆ S)
    (heqA : (spine us).digest H = (ofLeaves s A).digest H)
    (heqB : t.digest H = (ofLeaves s B).digest H) : A <+: B := by
  induction hext generalizing A B with
  | nil t => exact absurd rfl hne
  | @right us t h z ih =>
    obtain ⟨u, us', rfl⟩ := List.exists_cons_of_ne_nil hne
    obtain ⟨h2, hl, -⟩ := children_of_digest_eq hS ht hB
      (Or.inl (regular_digest H h.computed)) heqB
    exact (ih hne hus ((inputs_left_subset H t z).trans ht) hA (inputs_take_subset h2 hB)
      heqA hl).trans (List.take_prefix _ _)
  | @cons us t u h ih =>
    cases us with
    | nil =>
      have hu : H.Regular (u.digest H) := by
        rw [spine] at heqA
        exact heqA ▸ regular_digest H (computed_ofLeaves s A)
      obtain ⟨h2, hl, -⟩ := children_of_digest_eq hS ht hB (Or.inl hu) heqB
      have hAB := ofLeaves_digest_injective hS hA (inputs_take_subset h2 hB) (heqA.symm.trans hl)
      exact hAB ▸ List.take_prefix _ _
    | cons v us =>
      -- the node over `u` in `t` has a computed right child, which settles where `u` ends
      obtain ⟨hB2, hBl, hBr⟩ := children_of_digest_eq hS ht hB
        (Or.inr (regular_digest H h.computed)) heqB
      have hu : H.Regular (u.digest H) := hBl ▸ regular_digest H (computed_ofLeaves s _)
      rw [spine] at hus heqA
      obtain ⟨hA2, hAl, hAr⟩ := children_of_digest_eq hS hus hA (Or.inl hu) heqA
      have hleft := ofLeaves_digest_injective hS (inputs_take_subset hA2 hA)
        (inputs_take_subset hB2 hB) (hAl.symm.trans hBl)
      have hright := ih (by simp) ((inputs_right_subset H _ _).trans hus)
        ((inputs_right_subset H _ _).trans ht) (inputs_drop_subset hA2 hA)
        (inputs_drop_subset hB2 hB) hAr hBr
      calc A = A.take (s.split A.length) ++ A.drop (s.split A.length) :=
            (List.take_append_drop _ _).symm
        _ <+: B.take (s.split B.length) ++ B.drop (s.split B.length) := by
            rw [hleft]; exact (List.prefix_append_right_inj _).mpr hright
        _ = B := List.take_append_drop _ _

end HashTree
