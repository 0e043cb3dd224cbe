import Mathlib.Data.List.DropRight
import Mathlib.Order.Lattice

/-! A text taken apart: what stands before the first occurrence of a word and after the last one,
and the pieces between separators, from the end. Joins folded over a list. -/

namespace Joins
variable {α β γ : Type*} [SemilatticeSup α]

theorem foldl_le_iff (f : β → α) (l : List β) (a c : α) :
    l.foldl (fun acc x => acc ⊔ f x) a ≤ c ↔ a ≤ c ∧ ∀ x ∈ l, f x ≤ c := by
  induction l generalizing a with
  | nil => simp
  | cons x rest ih =>
    rw [List.foldl_cons, ih, sup_le_iff, List.forall_mem_cons, and_assoc]

end Joins

namespace Pieces
variable {α : Type} [DecidableEq α]

/-- What stands before the first occurrence of a word. -/
def before (word : List α) : List α → Option (List α)
  | [] => none
  | a :: rest =>
    if word.isPrefixOf (a :: rest) then some [] else (before word rest).map (a :: ·)

/-- What stands after the last occurrence of a word. -/
def after (word : List α) : List α → Option (List α)
  | [] => none
  | a :: rest =>
    (after word rest).orElse fun _ =>
      if word.isPrefixOf (a :: rest) then some ((a :: rest).drop word.length) else none

/-! ## The last piece -/

def lastPiece (c : α) (text : List α) : List α := text.rtakeWhile (· ≠ c)

/-- What stands before the last place where the word stands. -/
def beforeLast (word : List α) : List α → Option (List α)
  | [] => none
  | a :: rest =>
    ((beforeLast word rest).map (a :: ·)).orElse fun _ =>
      if word.isPrefixOf (a :: rest) then some [] else none

/-- What stands before the last separator, nothing where there is no separator. -/
def front (c : α) (text : List α) : List α := (text.rdropWhile (· ≠ c)).dropLast

variable {c : α} {text base last : List α}

theorem notMem_lastPiece : c ∉ lastPiece c text := by
  intro h
  have hne := List.mem_rtakeWhile_imp h
  exact of_decide_eq_true hne rfl

theorem lastPiece_of_notMem (h : c ∉ text) : lastPiece c text = text := by
  refine List.rtakeWhile_eq_self_iff.mpr fun x hx => ?_
  exact decide_eq_true fun heq => h (heq ▸ hx)

theorem front_of_notMem (h : c ∉ text) : front c text = [] := by
  have hdrop : text.rdropWhile (· ≠ c) = [] :=
    List.rdropWhile_eq_nil_iff.mpr fun x hx => decide_eq_true fun heq => h (heq ▸ hx)
  rw [front, hdrop, List.dropLast_nil]

theorem lastPiece_append (h : c ∉ last) : lastPiece c (base ++ c :: last) = last := by
  induction last using List.reverseRecOn with
  | nil => exact List.rtakeWhile_concat_neg _ _ _ (by simp)
  | append_singleton last x ih =>
    rw [List.mem_append, List.mem_singleton, not_or] at h
    rw [← List.cons_append, ← List.append_assoc, lastPiece,
      List.rtakeWhile_concat_pos _ _ x (decide_eq_true (Ne.symm h.2))]
    exact congrArg (· ++ [x]) (ih h.1)

theorem front_append (h : c ∉ last) : front c (base ++ c :: last) = base := by
  have hdrop : (base ++ c :: last).rdropWhile (· ≠ c) = base ++ [c] := by
    induction last using List.reverseRecOn with
    | nil => exact List.rdropWhile_concat_neg _ _ _ (by simp)
    | append_singleton last x ih =>
      rw [List.mem_append, List.mem_singleton, not_or] at h
      rw [← List.cons_append, ← List.append_assoc,
        List.rdropWhile_concat_pos _ _ x (decide_eq_true (Ne.symm h.2))]
      exact ih h.1
  rw [front, hdrop, List.dropLast_concat]

omit [DecidableEq α] in
theorem exists_lastPiece (h : c ∈ text) : ∃ base last, text = base ++ c :: last ∧ c ∉ last := by
  obtain ⟨last, base, htext, hlast⟩ := List.eq_append_cons_of_mem (List.mem_reverse.mpr h)
  refine ⟨base.reverse, last.reverse, ?_, fun hmem => hlast (List.mem_reverse.mp hmem)⟩
  rw [← List.reverse_reverse text, htext, List.reverse_append, List.reverse_cons,
    List.append_assoc, List.singleton_append]

/-- With a separator put in front, every text ends in a separator and its last piece. -/
theorem cons_eq_lastPiece (c : α) (text : List α) :
    ∃ base, c :: text = base ++ c :: lastPiece c text ∧
      (base = [] ∧ front c text = [] ∨ base = c :: front c text) := by
  by_cases hmem : c ∈ text
  · obtain ⟨base, last, rfl, hlast⟩ := exists_lastPiece hmem
    refine ⟨c :: base, ?_, Or.inr ?_⟩
    · rw [lastPiece_append hlast, List.cons_append]
    · rw [front_append hlast]
  · refine ⟨[], ?_, Or.inl ⟨rfl, front_of_notMem hmem⟩⟩
    rw [lastPiece_of_notMem hmem, List.nil_append]

/-- There is only one way to split at the last separator. -/
theorem append_cons_inj {base' last' : List α} (h : c ∉ last) (h' : c ∉ last')
    (heq : base ++ c :: last = base' ++ c :: last') : base = base' ∧ last = last' := by
  constructor
  · have hfront : front c (base ++ c :: last) = base := front_append h
    rw [← hfront, heq, front_append h']
  · have hlast : lastPiece c (base ++ c :: last) = last := lastPiece_append h
    rw [← hlast, heq, lastPiece_append h']

theorem lastPiece_eq_of_cons (h : c ∉ last) (heq : c :: text = base ++ c :: last) :
    lastPiece c text = last := by
  obtain ⟨base', htext, -⟩ := cons_eq_lastPiece c text
  exact (append_cons_inj notMem_lastPiece h (htext.symm.trans heq)).2

/-- Of two pieces in a row at the end, the first is the last piece of what is before the other. -/
theorem lastPiece_front_eq_iff {piece : List α} (h : c ∉ last) (hpiece : c ∉ piece)
    (hne : piece ≠ []) (heq : c :: text = base ++ c :: last) :
    lastPiece c (front c text) = piece ↔ ∃ start, base = start ++ c :: piece := by
  obtain ⟨base', htext, hbase⟩ := cons_eq_lastPiece c text
  obtain ⟨rfl, rfl⟩ := append_cons_inj notMem_lastPiece h (htext.symm.trans heq)
  constructor
  · rintro rfl
    rcases hbase with ⟨-, hfront⟩ | rfl
    · rw [hfront] at hne
      exact absurd rfl hne
    · obtain ⟨start, hstart, -⟩ := cons_eq_lastPiece c (front c text)
      exact ⟨start, hstart⟩
  · rintro ⟨start, hstart⟩
    rcases hbase with ⟨hnil, -⟩ | hcons
    · rw [hnil] at hstart
      exact absurd hstart.symm (List.append_ne_nil_of_right_ne_nil start (List.cons_ne_nil c piece))
    · exact lastPiece_eq_of_cons hpiece (hcons.symm.trans hstart)

/-! ## The first piece -/

/-- The text is at its end or at a separator. -/
def AtEnd (c : α) (text : List α) : Prop := ∀ d, text.head? = some d → d = c

theorem takeWhile_append {piece rest : List α} (hpiece : c ∉ piece) (hrest : AtEnd c rest) :
    (piece ++ rest).takeWhile (· ≠ c) = piece := by
  have hin : ∀ x ∈ piece, decide (x ≠ c) = true := fun x hx =>
    decide_eq_true fun heq => hpiece (heq ▸ hx)
  rw [List.takeWhile_append_of_pos hin]
  cases rest with
  | nil => rw [List.takeWhile_nil, List.append_nil]
  | cons d rest =>
    have hd : d = c := hrest d rfl
    rw [List.takeWhile_cons_of_neg (by simp [hd]), List.append_nil]

theorem takeWhile_eq_iff {piece : List α} :
    text.takeWhile (· ≠ c) = piece ↔ ∃ rest, text = piece ++ rest ∧ c ∉ piece ∧ AtEnd c rest := by
  constructor
  · rintro rfl
    refine ⟨text.dropWhile (· ≠ c), List.takeWhile_append_dropWhile.symm, fun hmem => ?_,
      fun d hd => ?_⟩
    · have hne := List.mem_takeWhile_imp hmem
      exact of_decide_eq_true hne rfl
    · have hstop := List.head?_dropWhile_not (· ≠ c) text
      rw [hd] at hstop
      simpa using hstop
  · rintro ⟨rest, rfl, hpiece, hrest⟩
    exact takeWhile_append hpiece hrest

/-! ## The first and the last occurrence of a word -/

section Words
variable {word front rest : List α}

theorem isPrefixOf_append (h : word.length ≤ text.length) (rest : List α) :
    word.isPrefixOf (text ++ rest) = word.isPrefixOf text := by
  rw [Bool.eq_iff_iff, List.isPrefixOf_iff_prefix, List.isPrefixOf_iff_prefix]
  exact ⟨fun hstarts => List.prefix_of_prefix_length_le hstarts (List.prefix_append text rest) h,
    fun hstarts => hstarts.trans (List.prefix_append text rest)⟩

theorem length_le_of_before {piece : List α} (h : before word text = some piece) :
    word.length ≤ text.length := by
  induction text generalizing piece with
  | nil => cases h
  | cons a text ih =>
    rw [before] at h
    split_ifs at h with hstarts
    · exact (List.isPrefixOf_iff_prefix.mp hstarts).length_le
    · obtain ⟨more, hmore, -⟩ := Option.map_eq_some_iff.mp h
      exact (ih hmore).trans (Nat.le_succ _)

theorem before_append_of_some {piece : List α} (h : before word text = some piece)
    (rest : List α) : before word (text ++ rest) = some piece := by
  induction text generalizing piece with
  | nil => cases h
  | cons a text ih =>
    have hle := length_le_of_before h
    rw [before] at h
    rw [List.cons_append, before, ← List.cons_append, isPrefixOf_append hle]
    split_ifs at h with hstarts
    · rw [if_pos hstarts]
      exact h
    · obtain ⟨more, hmore, rfl⟩ := Option.map_eq_some_iff.mp h
      rw [if_neg hstarts, ih hmore]
      rfl

/-- A word that is not there before its last letter is first where it is put. -/
theorem before_append (hword : word ≠ []) (h : before word (front ++ word.dropLast) = none)
    (rest : List α) : before word (front ++ (word ++ rest)) = some front := by
  induction front with
  | nil =>
    obtain ⟨a, more, rfl⟩ := List.exists_cons_of_ne_nil hword
    have hstarts : (a :: more).isPrefixOf (a :: (more ++ rest)) = true :=
      List.isPrefixOf_iff_prefix.mpr (List.prefix_append (a :: more) rest)
    rw [List.nil_append, List.cons_append, before, if_pos hstarts]
  | cons a front ih =>
    have hlength : word.length ≤ (a :: front ++ word.dropLast).length := by
      rw [List.length_append, List.length_cons, List.length_dropLast]
      omega
    have htext : a :: front ++ (word ++ rest) =
        a :: front ++ word.dropLast ++ (word.getLast hword :: rest) := by
      rw [List.append_assoc, List.append_cons word.dropLast, List.dropLast_append_getLast]
    rw [List.cons_append, before] at h
    split_ifs at h with hstarts
    have hnot : ¬word.isPrefixOf (a :: (front ++ (word ++ rest))) = true := by
      rw [← List.cons_append, htext, isPrefixOf_append hlength]
      exact hstarts
    rw [List.cons_append, before, if_neg hnot, ih (Option.map_eq_none_iff.mp h)]
    rfl

theorem after_of_short (h : text.length < word.length) : after word text = none := by
  induction text with
  | nil => rfl
  | cons a text ih =>
    have hnot : ¬word.isPrefixOf (a :: text) = true := by
      intro hstarts
      exact absurd (List.isPrefixOf_iff_prefix.mp hstarts).length_le (not_le_of_gt h)
    rw [after, ih (Nat.lt_of_succ_lt h), if_neg hnot]
    rfl

theorem after_of_notMem (h : c ∉ text) : after (word ++ [c]) text = none := by
  induction text with
  | nil => rfl
  | cons a text ih =>
    rw [List.mem_cons, not_or] at h
    have hnot : ¬(word ++ [c]).isPrefixOf (a :: text) = true := by
      intro hstarts
      have hmem := (List.isPrefixOf_iff_prefix.mp hstarts).subset
        (List.mem_append_right word List.mem_cons_self)
      exact absurd (List.mem_cons.mp hmem) (not_or.mpr h)
    rw [after, ih h.2, if_neg hnot]
    rfl

/-- Neither behind a separator nor at it, the word with the separator is in front of it. -/
theorem isPrefixOf_append_cons (hlast : c ∉ last) (hword : word ≠ text) :
    (word ++ [c]).isPrefixOf (text ++ c :: last) = (word ++ [c]).isPrefixOf text := by
  by_cases hlength : (word ++ [c]).length ≤ text.length
  · exact isPrefixOf_append hlength _
  · rw [Bool.eq_iff_iff, List.isPrefixOf_iff_prefix, List.isPrefixOf_iff_prefix]
    refine ⟨fun hstarts => ?_, fun hstarts => absurd hstarts.length_le hlength⟩
    have hlong : text.length ≤ word.length := by
      rw [List.length_append, List.length_singleton] at hlength
      omega
    have htext : text <+: word := List.prefix_of_prefix_length_le (List.prefix_append text _)
      ((List.prefix_append word [c]).trans hstarts) hlong
    obtain ⟨more, rfl⟩ := htext
    rw [List.append_assoc, List.prefix_append_right_inj] at hstarts
    cases more with
    | nil => exact absurd (List.append_nil text) hword
    | cons d more =>
      have hmore : more ++ [c] <+: last := (List.cons_prefix_cons.mp hstarts).2
      exact absurd (hmore.subset (List.mem_append_right more List.mem_cons_self)) hlast

/-- The last occurrence of a word that ends in a separator is at the last separator or before it. -/
theorem after_append_cons (hlast : c ∉ last) :
    after (word ++ [c]) (base ++ c :: last) =
      if word <:+ base then some last else (after (word ++ [c]) base).map (· ++ c :: last) := by
  induction base with
  | nil =>
    have hnone : after (word ++ [c]) last = none := after_of_notMem hlast
    have hstep : after (word ++ [c]) (c :: last) =
        if (word ++ [c]).isPrefixOf (c :: last) then some ((c :: last).drop (word ++ [c]).length)
        else none := by
      rw [after, hnone]
      rfl
    have hbase : after (word ++ [c]) [] = none := rfl
    rw [List.nil_append, hstep, hbase, Option.map_none]
    by_cases hempty : word = []
    · have hstarts : ([] ++ [c]).isPrefixOf (c :: last) = true :=
        List.isPrefixOf_iff_prefix.mpr ⟨last, rfl⟩
      rw [hempty, if_pos hstarts, if_pos List.suffix_rfl]
      rfl
    · rw [if_neg (fun hends => hempty (List.suffix_nil.mp hends)), if_neg]
      intro hstarts
      obtain ⟨b, more, rfl⟩ := List.exists_cons_of_ne_nil hempty
      have hmore : more ++ [c] <+: last :=
        (List.cons_prefix_cons.mp (List.isPrefixOf_iff_prefix.mp hstarts)).2
      exact hlast (hmore.subset (List.mem_append_right more List.mem_cons_self))
  | cons a base ih =>
    rw [List.cons_append, after, ih]
    by_cases hends : word <:+ base
    · rw [if_pos hends, if_pos (hends.trans (List.suffix_cons a base))]
      rfl
    · rw [if_neg hends]
      by_cases hwhole : word = a :: base
      · have hshort : base.length < (word ++ [c]).length := by
          rw [hwhole, List.length_append, List.length_cons]
          omega
        have hstarts : (word ++ [c]).isPrefixOf (a :: (base ++ c :: last)) = true := by
          rw [List.isPrefixOf_iff_prefix, hwhole]
          exact ⟨last, by simp⟩
        have hdrop : (a :: (base ++ c :: last)).drop (word ++ [c]).length = last := by
          have htext : a :: (base ++ c :: last) = word ++ [c] ++ last := by
            rw [hwhole, List.append_assoc]
            rfl
          rw [htext, List.drop_left]
        rw [after_of_short hshort, if_pos hstarts, if_pos (hwhole ▸ List.suffix_refl word), hdrop]
        rfl
      · have hnot : ¬word <:+ a :: base := by
          rw [List.suffix_cons_iff]
          exact not_or.mpr ⟨hwhole, hends⟩
        rw [if_neg hnot, after, ← List.cons_append, isPrefixOf_append_cons hlast hwhole]
        cases after (word ++ [c]) base with
        | some found => rfl
        | none =>
          dsimp only [Option.orElse, Option.map_none]
          split_ifs with hstarts
          · have hle := (List.isPrefixOf_iff_prefix.mp hstarts).length_le
            rw [Option.map_some, List.drop_append_of_le_length hle]
          · rfl

omit [DecidableEq α] in
/-- A word that ends in the only separator ends what stands in front of it. -/
theorem infix_append_cons_iff (hbase : c ∉ base) (hlast : c ∉ last) :
    word ++ [c] <:+: base ++ c :: last ↔ word <:+ base := by
  constructor
  · rintro ⟨start, stop, heq⟩
    have hsplit : start ++ word ++ c :: stop = base ++ c :: last := by
      rw [← heq]
      simp
    rcases List.append_eq_append_iff.mp hsplit with ⟨more, rfl, hmore⟩ | ⟨more, hstart, hmore⟩
    · cases more with
      | nil => exact ⟨start, (List.append_nil _).symm⟩
      | cons d more =>
        obtain ⟨rfl, -⟩ := List.cons.inj hmore
        exact absurd (List.mem_append_right _ List.mem_cons_self) hbase
    · cases more with
      | nil =>
        rw [List.append_nil] at hstart
        exact ⟨start, hstart⟩
      | cons d more =>
        obtain ⟨-, rfl⟩ := List.cons.inj hmore
        exact absurd (List.mem_append_right more List.mem_cons_self) hlast
  · rintro ⟨start, rfl⟩
    exact ⟨start, last, by simp⟩

theorem beforeLast_eq_none (h : beforeLast word text = none) (hword : word ≠ []) :
    ¬ word <:+: text := by
  induction text with
  | nil => exact fun hinfix => hword (List.eq_nil_of_infix_nil hinfix)
  | cons a text ih =>
    rw [beforeLast] at h
    cases hrest : beforeLast word text with
    | some front =>
      rw [hrest] at h
      cases h
    | none =>
      rw [hrest] at h
      intro hinfix
      rcases List.infix_cons_iff.mp hinfix with hprefix | hinside
      · rw [Option.map_none, Option.orElse_none,
          if_pos (List.isPrefixOf_iff_prefix.mpr hprefix)] at h
        cases h
      · exact ih hrest hinside

/-- It is there, and nowhere behind. -/
theorem beforeLast_eq_some (h : beforeLast word text = some front) (hword : word ≠ []) :
    (∃ back, text = front ++ (word ++ back)) ∧
      ∀ front' back', text = front' ++ (word ++ back') → front'.length ≤ front.length := by
  induction text generalizing front with
  | nil => cases h
  | cons a text ih =>
    rw [beforeLast] at h
    cases hrest : beforeLast word text with
    | some inner =>
      rw [hrest] at h
      obtain rfl := Option.some.inj h
      obtain ⟨⟨back, rfl⟩, hlast⟩ := ih hrest
      refine ⟨⟨back, rfl⟩, fun front' back' heq => ?_⟩
      cases front' with
      | nil => exact Nat.zero_le _
      | cons b front' =>
        exact Nat.succ_le_succ (hlast front' back' (List.cons.inj heq).2)
    | none =>
      rw [hrest, Option.map_none, Option.orElse_none] at h
      split_ifs at h with hprefix
      obtain rfl := Option.some.inj h
      obtain ⟨back, hback⟩ := List.isPrefixOf_iff_prefix.mp hprefix
      refine ⟨⟨back, hback.symm⟩, fun front' back' heq => ?_⟩
      cases front' with
      | nil => exact le_rfl
      | cons b front' =>
        have hinside : word <:+: text :=
          ⟨front', back', (List.append_assoc _ _ _).trans (List.cons.inj heq).2.symm⟩
        exact absurd hinside (beforeLast_eq_none hrest hword)

end Words

end Pieces
