import Oath.Library.Replace
import Oath.Library.ShellWords

/-! The arguments of a script. They are appended to its command as text, and the shell reads each
one back as one word. -/

namespace Oath.Cli
open ShellWords Replace

def safeByte (b : UInt8) : Bool :=
  (0x41 ≤ b && b ≤ 0x5a) || (0x61 ≤ b && b ≤ 0x7a) || (0x30 ≤ b && b ≤ 0x39) ||
    b ∈ "_-./:=,+@%".toList.map fun c => UInt8.ofNat c.toNat

/-- The quotes are closed around an apostrophe, which stands behind a backslash. -/
def quoteChar (c : Char) : List Char :=
  if c = apostrophe then [apostrophe, '\\', apostrophe, apostrophe] else [c]

def shellQuoteArg (arg : List Char) : List Char :=
  if arg.isEmpty then [apostrophe, apostrophe]
  else if (encode arg).all safeByte then arg
  else apostrophe :: arg.flatMap quoteChar ++ [apostrophe]

def shellQuoteArgs (args : List (List Char)) : List Char :=
  [' '].intercalate (args.map shellQuoteArg)

/-- The command that the shell is given. -/
def fullCommand (command : List Char) (args : List (List Char)) : List Char :=
  if args.isEmpty then command else command ++ ' ' :: shellQuoteArgs args

section Words
variable {arg : List Char} {c : Char} {word : List Piece}

theorem isOrdinary_of_safeByte (hascii : c.toNat < 128) (h : safeByte (.ofNat c.toNat)) :
    IsOrdinary c := by
  have hall : ∀ n < 128, safeByte (.ofNat n) → IsOrdinary (Char.ofNat n) := by decide
  have hchar : Char.ofNat c.toNat = c := Char.ofNat_toNat c
  rw [← hchar]
  exact hall c.toNat hascii h

theorem not_safeByte {b : UInt8} (h : 0x80 ≤ b) : ¬safeByte b := by
  have hall : ∀ n < 128, ¬safeByte (.ofNat (128 + n)) := by decide
  have hle : 128 ≤ b.toNat := UInt8.le_iff_toNat_le.mp h
  have hlt := b.toNat_lt
  have hb : UInt8.ofNat (128 + (b.toNat - 128)) = b := by
    rw [Nat.add_sub_cancel' hle]
    exact UInt8.ofNat_toNat
  rw [← hb]
  exact hall _ (by omega)

/-- The bytes of a character beyond ASCII are not safe. -/
theorem isOrdinary_of_safe (h : ∀ b ∈ String.utf8EncodeChar c, safeByte b) : IsOrdinary c := by
  by_cases hascii : c.toNat < 128
  · refine isOrdinary_of_safeByte hascii (h _ ?_)
    rw [utf8EncodeChar_ascii hascii]
    exact List.mem_singleton_self _
  · have hne : String.utf8EncodeChar c ≠ [] := by
      rw [← List.length_pos_iff_ne_nil, String.length_utf8EncodeChar]
      exact c.utf8Size_pos
    obtain ⟨b, hb⟩ := List.exists_mem_of_ne_nil _ hne
    have hhigh := utf8EncodeChar_above (Nat.not_lt.mp hascii) b hb
    exact absurd (h b hb) (not_safeByte hhigh)

theorem isOrdinary_of_all_safe (h : (encode arg).all safeByte) : ∀ c ∈ arg, IsOrdinary c := by
  intro c hc
  refine isOrdinary_of_safe fun b hb => ?_
  exact List.all_eq_true.mp h b (List.mem_flatMap_of_mem hc hb)

/-- Between its quotes an argument is read up to its last character. The pieces that were closed in
front of an apostrophe, and the text behind it, are the argument. -/
theorem scan_quoteChar (hnul : nul ∉ arg) (word : List Piece) (start : List Char) :
    ∃ pieces last, scan (.single word start) (arg.flatMap quoteChar) =
        some ([], .single pieces last) ∧
      removeQuotes pieces ++ last = removeQuotes word ++ start ++ arg ∧
      (Literal word → Literal pieces) := by
  induction arg generalizing word start with
  | nil => exact ⟨word, start, rfl, (List.append_nil _).symm, id⟩
  | cons c arg ih =>
    have hc : nul ≠ c := fun heq => hnul (heq ▸ List.mem_cons_self)
    have harg : nul ∉ arg := fun hmem => hnul (List.mem_cons_of_mem c hmem)
    rw [List.flatMap_cons]
    by_cases happ : c = apostrophe
    · have hquoted : quoteChar c = [apostrophe, '\\', apostrophe, apostrophe] := if_pos happ
      have hscan : scan (.single word start) (quoteChar c) =
          some ([], .single (word ++ [.single start] ++ [.escaped apostrophe]) []) := by
        rw [hquoted]
        rfl
      obtain ⟨pieces, last, hrest, htext, hliteral⟩ :=
        ih harg (word ++ [.single start] ++ [.escaped apostrophe]) []
      refine ⟨pieces, last, ?_, ?_, fun hword => hliteral ?_⟩
      · rw [scan_append_nil hscan, hrest]
      · rw [htext, removeQuotes_append, removeQuotes_append, happ]
        simp [removeQuotes, Piece.text]
      · have hsingle : ¬(Piece.single start).Expands := fun h => by cases h
        have hescaped : ¬(Piece.escaped apostrophe).Expands := fun h => by cases h
        rw [literal_append, literal_append]
        exact ⟨⟨hword, literal_singleton.mpr hsingle⟩, literal_singleton.mpr hescaped⟩
    · have hscan : scan (.single word start) (quoteChar c) =
          some ([], .single word (start ++ [c])) := by
        rw [quoteChar, if_neg happ, scan_cons_nil (Ne.symm hc) rfl, scan, readSingle, if_neg happ]
      obtain ⟨pieces, last, hrest, htext, hliteral⟩ := ih harg word (start ++ [c])
      refine ⟨pieces, last, ?_, ?_, hliteral⟩
      · rw [scan_append_nil hscan, hrest]
      · rw [htext]
        simp

theorem shellQuoteArg_word (hnul : nul ∉ arg) :
    ∃ word, IsWord (shellQuoteArg arg) word ∧ Literal word ∧ removeQuotes word = arg := by
  unfold shellQuoteArg
  split_ifs with hempty hsafe
  · have harg : arg = [] := List.isEmpty_iff.mp hempty
    have hliteral : Literal [.single []] := literal_singleton.mpr fun h => by cases h
    exact ⟨[.single []], rfl, hliteral, harg.symm⟩
  · have hordinary := isOrdinary_of_all_safe hsafe
    have hne : arg ≠ [] := fun heq => hempty (heq ▸ rfl)
    exact ⟨_, isWord_ordinary hne hordinary, literal_ordinary hordinary, removeQuotes_bare arg⟩
  · obtain ⟨pieces, last, hscan, htext, hliteral⟩ := scan_quoteChar hnul [] []
    have hsingle : ¬(Piece.single last).Expands := fun h => by cases h
    have hpieces : Literal pieces := hliteral fun _ hmem => absurd hmem List.not_mem_nil
    refine ⟨pieces ++ [.single last], ?_, literal_append.mpr
      ⟨hpieces, literal_singleton.mpr hsingle⟩, ?_⟩
    · have hopen : read apostrophe (.outside none) = some ([], .single [] []) := by decide
      rw [IsWord, List.cons_append, scan_cons_nil (by decide) hopen, scan_append_nil hscan]
      rfl
    · rw [removeQuotes_append]
      simpa [removeQuotes, Piece.text] using htext

theorem shellQuoteArg_words {args : List (List Char)} (hnul : ∀ arg ∈ args, nul ∉ arg) :
    ∃ words : List (List Piece), List.Forall₂ IsWord (args.map shellQuoteArg) words ∧
      (∀ word ∈ words, Literal word) ∧ words.map removeQuotes = args := by
  induction args with
  | nil => exact ⟨[], .nil, fun _ hmem => absurd hmem List.not_mem_nil, rfl⟩
  | cons arg args ih =>
    obtain ⟨word, hword, hliteral, htext⟩ := shellQuoteArg_word (hnul arg List.mem_cons_self)
    obtain ⟨words, hwords, hall, htexts⟩ := ih fun a ha => hnul a (List.mem_cons_of_mem arg ha)
    refine ⟨word :: words, .cons hword hwords, List.forall_mem_cons.mpr ⟨hliteral, hall⟩, ?_⟩
    rw [List.map_cons, htext, htexts]

end Words

/-! ## The command -/

section Commands
variable {args : List (List Char)}

/-- The shell reads the quoted arguments as words alone, puts nothing in the place of any of them,
and has the arguments when the quotes are removed. -/
theorem tokens_shellQuoteArgs (hnul : ∀ arg ∈ args, nul ∉ arg) :
    ∃ words : List (List Piece), tokens (shellQuoteArgs args) = some (words.map .word) ∧
      (∀ word ∈ words, Literal word) ∧ words.map removeQuotes = args := by
  obtain ⟨words, hwords, hliteral, htexts⟩ := shellQuoteArg_words hnul
  exact ⟨words, tokens_intercalate hwords, hliteral, htexts⟩

/-- A command line, an apostrophe and an argument of two lines. -/
theorem tokens_shellQuoteArgs_lines :
    ∃ words : List (List Piece),
      tokens (shellQuoteArgs ["$(rm *)".toList, ['i', 't', apostrophe, 's'], [],
        "a;\nb".toList]) = some (words.map .word) ∧
      (∀ word ∈ words, Literal word) ∧
      words.map removeQuotes =
        ["$(rm *)".toList, ['i', 't', apostrophe, 's'], [], "a;\nb".toList] :=
  tokens_shellQuoteArgs (by decide)

/-- The command of the script is read as without the arguments, which come behind it. -/
theorem tokens_fullCommand {command : List Char} {out : List Token} {last : Option (List Piece)}
    (hcommand : scan (.outside none) command = some (out, .outside last))
    (hnul : ∀ arg ∈ args, nul ∉ arg) :
    ∃ words : List (List Piece),
      tokens (fullCommand command args) = some (out ++ ended last ++ words.map .word) ∧
      (∀ word ∈ words, Literal word) ∧ words.map removeQuotes = args := by
  obtain ⟨words, hwords, hliteral, htexts⟩ := shellQuoteArg_words hnul
  refine ⟨words, ?_, hliteral, htexts⟩
  unfold fullCommand
  split_ifs with hempty
  · have hargs : args = [] := List.isEmpty_iff.mp hempty
    have hnone : words = [] := by
      rw [hargs] at htexts
      exact List.map_eq_nil_iff.mp htexts
    rw [hnone, List.map_nil, List.append_nil, tokens, hcommand]
    rfl
  · have hread := tokens_intercalate hwords
    rw [tokens_append hcommand, shellQuoteArgs, hread]
    rfl

end Commands

end Oath.Cli
