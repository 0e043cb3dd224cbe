import Mathlib.Data.List.Infix

/-! A word at the end of a longer text and in the middle of one: what a separator in front and
a map of the letters change of it. -/

namespace List
variable {α : Type}

theorem suffix_append_cons {word front back : List α} {c : α} (h : c ∉ word) :
    word <:+ front ++ c :: back ↔ word <:+ back := by
  constructor
  · intro hword
    rcases List.suffix_or_suffix_of_suffix hword (List.suffix_append front (c :: back)) with
      hin | hout
    · rcases List.suffix_cons_iff.mp hin with rfl | hback
      · exact absurd List.mem_cons_self h
      · exact hback
    · exact absurd (hout.subset List.mem_cons_self) h
  · intro hback
    exact hback.trans ((List.suffix_cons c back).trans (List.suffix_append front _))

theorem cons_suffix_append_cons {word front back : List α} {c : α} (h : c ∉ word) :
    c :: word <:+ front ++ c :: back ↔ c :: word <:+ c :: back := by
  constructor
  · intro hword
    rcases List.suffix_or_suffix_of_suffix hword (List.suffix_append front (c :: back)) with
      hin | hout
    · exact hin
    · rcases List.suffix_cons_iff.mp hout with heq | hrest
      · exact heq ▸ List.suffix_rfl
      · exact absurd (hrest.subset List.mem_cons_self) h
  · intro hback
    exact hback.trans (List.suffix_append front _)

theorem infix_append_cons {word front back : List α} {c : α} (h : c ∉ word) :
    word <:+: front ++ c :: back ↔ word <:+: front ∨ word <:+: back := by
  rw [List.infix_append_iff, List.infix_cons_iff]
  constructor
  · rintro (hfront | (hbefore | hback) | ⟨left, right, rfl, hleft, hright⟩)
    · exact Or.inl hfront
    · rcases List.prefix_cons_iff.mp hbefore with rfl | ⟨rest, rfl, -⟩
      · exact Or.inl List.nil_infix
      · exact absurd List.mem_cons_self h
    · exact Or.inr hback
    · -- what reaches over the separator would have it
      rcases List.prefix_cons_iff.mp hright with rfl | ⟨rest, rfl, -⟩
      · rw [List.append_nil]
        exact Or.inl hleft.isInfix
      · exact absurd (List.mem_append_right left List.mem_cons_self) h
  · rintro (hfront | hback)
    · exact Or.inl hfront
    · exact Or.inr (Or.inl (Or.inr hback))

/-- A map that keeps the letters of a word and makes them of no other letter makes no word. -/
theorem eq_of_map_eq {f : α → α} {part word : List α} (h : ∀ c, f c ∈ word → f c = c)
    (heq : word = part.map f) : word = part := by
  have hsame : part.map f = part.map id :=
    List.map_congr_left fun c hc => h c (heq ▸ List.mem_map_of_mem hc)
  rw [heq, hsame, List.map_id]

theorem suffix_map_of_fixed {f : α → α} {word text : List α} (hword : ∀ c ∈ word, f c = c)
    (h : ∀ c, f c ∈ word → f c = c) : word <:+ text.map f ↔ word <:+ text := by
  rw [List.suffix_map_iff]
  constructor
  · rintro ⟨part, hpart, heq⟩
    exact eq_of_map_eq h heq ▸ hpart
  · intro hpart
    exact ⟨word, hpart, (List.map_congr_left hword).trans (List.map_id _) |>.symm⟩

theorem infix_map_of_fixed {f : α → α} {word text : List α} (hword : ∀ c ∈ word, f c = c)
    (h : ∀ c, f c ∈ word → f c = c) : word <:+: text.map f ↔ word <:+: text := by
  rw [List.infix_map_iff]
  constructor
  · rintro ⟨part, hpart, heq⟩
    exact eq_of_map_eq h heq ▸ hpart
  · intro hpart
    exact ⟨word, hpart, (List.map_congr_left hword).trans (List.map_id _) |>.symm⟩

end List
