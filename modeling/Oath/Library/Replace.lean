import Mathlib.Data.List.Find
import Mathlib.Data.List.Infix
import Oath.Library.Utf8

/-! Replacing every occurrence of a word in a text, from left to right and without overlaps,
and what it is on texts whose words all start with the same mark: passes for several words,
one after the other, are one pass for all of them. -/

namespace Replace

section All
variable {α : Type} [DecidableEq α]

/-- The count says how many elements of the last occurrence are still to be passed over. -/
def replaceFrom (old new : List α) : ℕ → List α → List α
  | _, [] => []
  | skip + 1, _ :: rest => replaceFrom old new skip rest
  | 0, a :: rest =>
    if old.isPrefixOf (a :: rest) then new ++ replaceFrom old new (old.length - 1) rest
    else a :: replaceFrom old new 0 rest

def replaceAll (old new text : List α) : List α := replaceFrom old new 0 text

theorem replaceFrom_skip (old new : List α) (skip : ℕ) (text : List α) :
    replaceFrom old new skip text = replaceAll old new (text.drop skip) := by
  induction text generalizing skip with
  | nil => simp [replaceFrom, replaceAll]
  | cons a rest ih =>
    cases skip with
    | zero => rfl
    | succ skip => rw [replaceFrom, ih, List.drop_succ_cons]

theorem replaceAll_prefix {old : List α} (hne : old ≠ []) (new rest : List α) :
    replaceAll old new (old ++ rest) = new ++ replaceAll old new rest := by
  obtain ⟨a, tail, rfl⟩ := List.exists_cons_of_ne_nil hne
  have hprefix : (a :: tail).isPrefixOf (a :: (tail ++ rest)) := by
    rw [List.isPrefixOf_iff_prefix]
    exact ⟨rest, rfl⟩
  rw [List.cons_append, replaceAll, replaceFrom, if_pos hprefix, replaceFrom_skip]
  simp

theorem replaceAll_cons {old new : List α} {a : α} {rest : List α} (h : ¬ old <+: a :: rest) :
    replaceAll old new (a :: rest) = a :: replaceAll old new rest := by
  have hnot : ¬ old.isPrefixOf (a :: rest) = true := fun heq =>
    h (List.isPrefixOf_iff_prefix.mp heq)
  rw [replaceAll, replaceFrom, if_neg hnot]
  rfl

/-- Up to the first letter of the word nothing is replaced. -/
theorem replaceAll_append {old new front : List α} {a : α} (h : a ∉ front) (rest : List α) :
    replaceAll (a :: old) new (front ++ rest) = front ++ replaceAll (a :: old) new rest := by
  induction front with
  | nil => rfl
  | cons b front ih =>
    rw [List.mem_cons, not_or] at h
    have hnot : ¬a :: old <+: b :: (front ++ rest) := fun hstarts =>
      h.1 (List.cons_prefix_cons.mp hstarts).1
    rw [List.cons_append, replaceAll_cons hnot, ih h.2, List.cons_append]

theorem replaceAll_of_notMem {old new text : List α} {a : α} (h : a ∉ text) :
    replaceAll (a :: old) new text = text := by
  have hall : replaceAll (a :: old) new (text ++ []) = text ++ [] := replaceAll_append h []
  rwa [List.append_nil] at hall

end All

/-! ## In the bytes of a text -/

def encode (text : List Char) : List UInt8 := text.flatMap String.utf8EncodeChar

theorem utf8EncodeChar_ascii {c : Char} (h : c.toNat < 128) :
    String.utf8EncodeChar c = [.ofNat c.toNat] := by
  have hle : c.val.toNat ≤ 0x7f := Nat.lt_succ_iff.mp h
  unfold String.utf8EncodeChar
  dsimp only
  rw [if_pos hle]
  rfl

/-- The bytes of a character that is not ASCII have no ASCII among them. -/
theorem utf8EncodeChar_above {c : Char} (h : 128 ≤ c.toNat) :
    ∀ b ∈ String.utf8EncodeChar c, 0x80 ≤ b := by
  have hn : c.val.toNat = c.toNat := rfl
  have hmax : c.toNat < 0x110000 := by
    rcases c.valid with hlow | hhigh
    · exact lt_of_lt_of_le hlow (by decide)
    · exact hhigh.2
  have hbyte : ∀ n, 128 ≤ n → n < 256 → 0x80 ≤ UInt8.ofNat n := by
    intro n hlow hhigh
    rw [UInt8.le_iff_toNat_le, UInt8.toNat_ofNat']
    simp only [UInt8.reduceToNat]
    omega
  unfold String.utf8EncodeChar
  dsimp only
  split_ifs with h1 h2 h3
  · omega
  all_goals
    intro b hb
    simp only [List.mem_cons, List.not_mem_nil, or_false] at hb
    rcases hb with rfl | rfl | rfl | rfl <;> exact hbyte _ (by omega) (by omega)

theorem encode_cons (c : Char) (text : List Char) :
    encode (c :: text) = String.utf8EncodeChar c ++ encode text := List.flatMap_cons

theorem encode_append (a b : List Char) : encode (a ++ b) = encode a ++ encode b :=
  List.flatMap_append

theorem prefix_encode {word : List Char} (hword : ∀ c ∈ word, c.toNat < 128) (text : List Char) :
    encode word <+: encode text ↔ word <+: text := by
  induction word generalizing text with
  | nil => simp [encode]
  | cons c word ih =>
    obtain ⟨hc, hword⟩ := List.forall_mem_cons.mp hword
    rw [encode_cons, utf8EncodeChar_ascii hc, List.singleton_append]
    cases text with
    | nil => simp [encode]
    | cons d text =>
      rw [encode_cons, List.cons_prefix_cons]
      by_cases hd : d.toNat < 128
      · rw [utf8EncodeChar_ascii hd, List.singleton_append, List.cons_prefix_cons, ih hword]
        apply and_congr_left
        intro _
        constructor
        · intro heq
          have hval := congrArg UInt8.toNat heq
          rw [UInt8.toNat_ofNat', UInt8.toNat_ofNat'] at hval
          have hnat : c.toNat = d.toNat := by omega
          exact Char.toNat_inj.mp hnat
        · rintro rfl
          rfl
      · have habove := utf8EncodeChar_above (not_lt.mp hd)
        have hne : String.utf8EncodeChar d ≠ [] := by
          intro hnil
          have hlen := congrArg List.length hnil
          rw [String.length_utf8EncodeChar] at hlen
          exact absurd hlen (Nat.pos_iff_ne_zero.mp d.utf8Size_pos)
        obtain ⟨b, more, hbytes⟩ := List.exists_cons_of_ne_nil hne
        rw [hbytes] at habove ⊢
        have hb := (List.forall_mem_cons.mp habove).1
        rw [List.cons_append, List.cons_prefix_cons]
        constructor
        · rintro ⟨rfl, -⟩
          rw [UInt8.le_iff_toNat_le, UInt8.toNat_ofNat'] at hb
          simp only [UInt8.reduceToNat] at hb
          omega
        · rintro ⟨rfl, -⟩
          exact absurd hc hd

/-- No ASCII word starts in bytes above ASCII, so these are left as they are. -/
theorem replaceAll_above {old new above rest : List UInt8} (hne : old ≠ [])
    (hold : ∀ b ∈ old, b < 0x80) (habove : ∀ b ∈ above, 0x80 ≤ b) :
    replaceAll old new (above ++ rest) = above ++ replaceAll old new rest := by
  induction above with
  | nil => rfl
  | cons b above ih =>
    obtain ⟨hb, habove⟩ := List.forall_mem_cons.mp habove
    obtain ⟨a, tail, rfl⟩ := List.exists_cons_of_ne_nil hne
    have hnot : ¬ a :: tail <+: b :: (above ++ rest) := by
      rw [List.cons_prefix_cons]
      rintro ⟨rfl, -⟩
      exact absurd ((List.forall_mem_cons.mp hold).1) (UInt8.not_lt.mpr hb)
    rw [List.cons_append, replaceAll_cons hnot, ih habove, List.cons_append]

/-- An ASCII word may be replaced in the characters of a text or in their bytes. -/
theorem replaceAll_encode {old : List Char} (hne : old ≠ []) (hold : ∀ c ∈ old, c.toNat < 128)
    (new text : List Char) :
    replaceAll (encode old) (encode new) (encode text) = encode (replaceAll old new text) := by
  have hneBytes : encode old ≠ [] := by
    intro hnil
    have hprefix := (prefix_encode hold []).mp (by rw [hnil]; exact List.nil_prefix)
    exact hne (List.prefix_nil.mp hprefix)
  have holdBytes : ∀ b ∈ encode old, b < 0x80 := by
    intro b hb
    obtain ⟨c, hc, hb⟩ := List.mem_flatMap.mp hb
    rw [utf8EncodeChar_ascii (hold c hc), List.mem_singleton] at hb
    rw [hb, UInt8.lt_iff_toNat_lt, UInt8.toNat_ofNat']
    have hlt := hold c hc
    simp only [UInt8.reduceToNat]
    omega
  induction hlen : text.length using Nat.strong_induction_on generalizing text with
  | _ n ih =>
    cases text with
    | nil => rfl
    | cons c rest =>
      by_cases hprefix : old <+: c :: rest
      · obtain ⟨tail, htail⟩ := hprefix
        have hshort : tail.length < n := by
          rw [← hlen, ← htail, List.length_append]
          have hpos := List.length_pos_iff.mpr hne
          omega
        rw [← htail, encode_append, replaceAll_prefix hneBytes, replaceAll_prefix hne,
          encode_append, ih tail.length hshort tail rfl]
      · have hbytes : ¬ encode old <+: encode (c :: rest) := fun h =>
          hprefix ((prefix_encode hold _).mp h)
        have hshort : rest.length < n := by
          rw [← hlen, List.length_cons]
          exact Nat.lt_succ_self _
        rw [replaceAll_cons hprefix, encode_cons, encode_cons, ← ih rest.length hshort rest rfl]
        by_cases hc : c.toNat < 128
        · rw [encode_cons, utf8EncodeChar_ascii hc, List.singleton_append] at hbytes
          rw [utf8EncodeChar_ascii hc, List.singleton_append, replaceAll_cons hbytes,
            List.singleton_append]
        · exact replaceAll_above hneBytes holdBytes (utf8EncodeChar_above (not_lt.mp hc))

/-! ## Marked words -/

/-- Words to be replaced by a character where they stand after the mark. -/
abbrev Marked := List (List Char × Char)

/-- The words of the table, each after the mark, are replaced together. -/
def unmark (mark : Char) (table : Marked) : ℕ → List Char → List Char
  | _, [] => []
  | skip + 1, _ :: rest => unmark mark table skip rest
  | 0, c :: rest =>
    if c = mark then
      match table.find? fun entry => entry.1.isPrefixOf rest with
      | some entry => entry.2 :: unmark mark table entry.1.length rest
      | none => c :: unmark mark table 0 rest
    else c :: unmark mark table 0 rest

/-- No word holds the mark or a character that words are replaced by. -/
structure Separate (mark : Char) (table : Marked) : Prop where
  word : ∀ entry ∈ table, mark ∉ entry.1
  char : ∀ entry ∈ table, entry.2 ≠ mark
  apart : ∀ entry ∈ table, ∀ other ∈ table, other.2 ∉ entry.1

section Unmark
variable {mark : Char} {table : Marked}

theorem unmark_skip (skip : ℕ) (text : List Char) :
    unmark mark table skip text = unmark mark table 0 (text.drop skip) := by
  induction text generalizing skip with
  | nil => simp [unmark]
  | cons c rest ih =>
    cases skip with
    | zero => rfl
    | succ skip => rw [unmark, ih, List.drop_succ_cons]

theorem unmark_cons {c : Char} (h : c ≠ mark) (rest : List Char) :
    unmark mark table 0 (c :: rest) = c :: unmark mark table 0 rest := by
  rw [unmark, if_neg h]

theorem unmark_some {rest : List Char} {entry : List Char × Char}
    (h : (table.find? fun entry => entry.1.isPrefixOf rest) = some entry) :
    unmark mark table 0 (mark :: rest) =
      entry.2 :: unmark mark table 0 (rest.drop entry.1.length) := by
  rw [unmark, if_pos rfl, h]
  exact congrArg _ (unmark_skip _ _)

theorem unmark_none {rest : List Char}
    (h : (table.find? fun entry => entry.1.isPrefixOf rest) = none) :
    unmark mark table 0 (mark :: rest) = mark :: unmark mark table 0 rest := by
  rw [unmark, if_pos rfl, h]

theorem unmark_append {word : List Char} (h : mark ∉ word) (rest : List Char) :
    unmark mark table 0 (word ++ rest) = word ++ unmark mark table 0 rest := by
  induction word with
  | nil => rfl
  | cons c word ih =>
    have hc : c ≠ mark := fun heq => h (heq ▸ List.mem_cons_self)
    have hword : mark ∉ word := fun hmem => h (List.mem_cons_of_mem _ hmem)
    rw [List.cons_append, unmark_cons hc, ih hword, List.cons_append]

/-- A pass brings no word to the front that was not there. -/
theorem prefix_of_unmark {word text : List Char} (hmark : mark ∉ word)
    (hchar : ∀ entry ∈ table, entry.2 ∉ word) (h : word <+: unmark mark table 0 text) :
    word <+: text := by
  induction text generalizing word with
  | nil => simpa [unmark] using h
  | cons c rest ih =>
    cases word with
    | nil => exact List.nil_prefix
    | cons a word =>
      have ha : a ≠ mark := fun heq => hmark (heq ▸ List.mem_cons_self)
      by_cases hc : c = mark
      · subst hc
        exfalso
        cases hfind : table.find? fun entry => entry.1.isPrefixOf rest with
        | none =>
          rw [unmark_none hfind, List.cons_prefix_cons] at h
          exact ha h.1
        | some entry =>
          rw [unmark_some hfind, List.cons_prefix_cons] at h
          have hmem := List.mem_of_find?_eq_some hfind
          exact hchar entry hmem (h.1 ▸ List.mem_cons_self)
      · rw [unmark_cons hc, List.cons_prefix_cons] at h
        obtain ⟨rfl, h⟩ := h
        rw [List.cons_prefix_cons]
        refine ⟨rfl, ih ?_ ?_ h⟩
        · exact fun hmem => hmark (List.mem_cons_of_mem _ hmem)
        · exact fun entry hentry hmem => hchar entry hentry (List.mem_cons_of_mem _ hmem)

/-- What a word stands before is seen alike before and after a pass for other words. -/
theorem prefix_unmark_iff {word : List Char} (hmark : mark ∉ word)
    (hchar : ∀ entry ∈ table, entry.2 ∉ word) (text : List Char) :
    word <+: unmark mark table 0 text ↔ word <+: text := by
  constructor
  · exact prefix_of_unmark hmark hchar
  · rintro ⟨tail, rfl⟩
    rw [unmark_append hmark]
    exact List.prefix_append _ _

theorem find?_unmark {first second : Marked} (h : Separate mark (first ++ second))
    (rest : List Char) :
    (second.find? fun entry => entry.1.isPrefixOf (unmark mark first 0 rest)) =
      second.find? fun entry => entry.1.isPrefixOf rest := by
  have hsame : ∀ entry ∈ second, entry.1.isPrefixOf (unmark mark first 0 rest) =
      entry.1.isPrefixOf rest := by
    intro entry hmem
    have hentry := List.mem_append_right first hmem
    have hchar : ∀ other ∈ first, other.2 ∉ entry.1 := fun other hother =>
      h.apart entry hentry other (List.mem_append_left second hother)
    rw [Bool.eq_iff_iff, List.isPrefixOf_iff_prefix, List.isPrefixOf_iff_prefix]
    exact prefix_unmark_iff (h.word entry hentry) hchar rest
  exact List.find?_congr hsame

/-- Two passes are one. -/
theorem unmark_unmark {first second : Marked} (h : Separate mark (first ++ second))
    (text : List Char) :
    unmark mark second 0 (unmark mark first 0 text) = unmark mark (first ++ second) 0 text := by
  induction hlen : text.length using Nat.strong_induction_on generalizing text with
  | _ n ih =>
    cases text with
    | nil => rfl
    | cons c rest =>
      have hrest : rest.length < n := by
        rw [← hlen, List.length_cons]
        exact Nat.lt_succ_self _
      by_cases hc : c = mark
      · subst hc
        have hdrop : ∀ entry : List Char × Char, (rest.drop entry.1.length).length < n := by
          intro entry
          rw [List.length_drop]
          omega
        cases hfirst : first.find? fun entry => entry.1.isPrefixOf rest with
        | some entry =>
          have hboth : ((first ++ second).find? fun entry => entry.1.isPrefixOf rest) =
              some entry := by
            rw [List.find?_append, hfirst, Option.some_or]
          have hmem := List.mem_append_left second (List.mem_of_find?_eq_some hfirst)
          rw [unmark_some hfirst, unmark_some hboth, unmark_cons (h.char entry hmem),
            ih _ (hdrop entry) _ rfl]
        | none =>
          rw [unmark_none hfirst]
          -- the first pass leaves the mark, and what follows it, to the second
          have hseen := find?_unmark h rest
          have hboth : ((first ++ second).find? fun entry => entry.1.isPrefixOf rest) =
              second.find? fun entry => entry.1.isPrefixOf rest := by
            rw [List.find?_append, hfirst, Option.none_or]
          cases hsecond : second.find? fun entry => entry.1.isPrefixOf rest with
          | some entry =>
            rw [hsecond] at hseen hboth
            have hmem := List.mem_append_right first (List.mem_of_find?_eq_some hsecond)
            have hprefix : entry.1 <+: rest := by
              have hfound := List.find?_some hsecond
              exact List.isPrefixOf_iff_prefix.mp hfound
            rw [unmark_some hseen, unmark_some hboth]
            obtain ⟨tail, rfl⟩ := hprefix
            have htail : tail.length < n := by
              rw [List.length_append] at hrest
              omega
            rw [unmark_append (h.word entry hmem), List.drop_left, List.drop_left,
              ih tail.length htail tail rfl]
          | none =>
            rw [hsecond] at hseen hboth
            rw [unmark_none hseen, unmark_none hboth, ih rest.length hrest rest rfl]
      · rw [unmark_cons hc, unmark_cons hc, unmark_cons hc, ih rest.length hrest rest rfl]

/-- Replacing one marked word is a pass for it alone. -/
theorem replaceAll_eq_unmark (word : List Char) (ch : Char) (text : List Char) :
    replaceAll (mark :: word) [ch] text = unmark mark [(word, ch)] 0 text := by
  induction hlen : text.length using Nat.strong_induction_on generalizing text with
  | _ n ih =>
    cases text with
    | nil => rfl
    | cons c rest =>
      have hrest : rest.length < n := by
        rw [← hlen, List.length_cons]
        exact Nat.lt_succ_self _
      by_cases hprefix : mark :: word <+: c :: rest
      · rw [List.cons_prefix_cons] at hprefix
        obtain ⟨rfl, tail, rfl⟩ := hprefix
        have hfind : ([(word, ch)] : Marked).find?
            (fun entry => entry.1.isPrefixOf (word ++ tail)) = some (word, ch) := by
          rw [List.find?_cons_of_pos]
          exact List.isPrefixOf_iff_prefix.mpr (List.prefix_append _ _)
        have htail : tail.length < n := by
          rw [List.length_append] at hrest
          omega
        rw [unmark_some hfind, List.drop_left, ← List.cons_append,
          replaceAll_prefix (List.cons_ne_nil _ _), ih tail.length htail tail rfl]
        rfl
      · rw [replaceAll_cons hprefix, ih rest.length hrest rest rfl]
        by_cases hc : c = mark
        · subst hc
          have hfind : ([(word, ch)] : Marked).find?
              (fun entry => entry.1.isPrefixOf rest) = none := by
            rw [List.find?_cons_of_neg, List.find?_nil]
            intro hfound
            apply hprefix
            rw [List.cons_prefix_cons]
            exact ⟨rfl, List.isPrefixOf_iff_prefix.mp hfound⟩
          rw [unmark_none hfind]
        · rw [unmark_cons hc]

theorem unmark_nil (text : List Char) : unmark mark [] 0 text = text := by
  induction text with
  | nil => rfl
  | cons c rest ih =>
    by_cases hc : c = mark
    · subst hc
      rw [unmark_none List.find?_nil, ih]
    · rw [unmark_cons hc, ih]

theorem Separate.append_left {first second : Marked} (h : Separate mark (first ++ second)) :
    Separate mark first where
  word entry hentry := h.word entry (List.mem_append_left _ hentry)
  char entry hentry := h.char entry (List.mem_append_left _ hentry)
  apart entry hentry other hother :=
    h.apart entry (List.mem_append_left _ hentry) other (List.mem_append_left _ hother)

/-- Passes over the bytes, one word after the other, are one pass over the characters. -/
theorem foldl_replaceAll {done : Marked} (h : Separate mark (done ++ table))
    (hmark : mark.toNat < 128) (hword : ∀ entry ∈ table, ∀ c ∈ entry.1, c.toNat < 128)
    (text : List Char) :
    table.foldl (fun encoded entry =>
        replaceAll (encode (mark :: entry.1)) (encode [entry.2]) encoded)
        (encode (unmark mark done 0 text)) =
      encode (unmark mark (done ++ table) 0 text) := by
  induction table generalizing done with
  | nil => rw [List.foldl_nil, List.append_nil]
  | cons entry rest ih =>
    obtain ⟨hentry, hrest⟩ := List.forall_mem_cons.mp hword
    have hsplit : done ++ entry :: rest = (done ++ [entry]) ++ rest := by simp
    rw [hsplit] at h ⊢
    rw [List.foldl_cons, replaceAll_encode (List.cons_ne_nil _ _)
      (List.forall_mem_cons.mpr ⟨hmark, hentry⟩), replaceAll_eq_unmark,
      unmark_unmark h.append_left, ih h hrest]

end Unmark

end Replace
