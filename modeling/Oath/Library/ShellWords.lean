import Mathlib.Data.List.Forall2

/-! The words of a shell command. A text is read character by character into words and operators,
with the quotes of the words still to be removed. What is neither closed nor read as it stands has
no tokens: a quote without its end, an expansion that starts with a dollar or a backtick. Of an
operator with several characters each one is a token. -/

namespace ShellWords

def apostrophe : Char := '\x27'

def nul : Char := '\x00'

def blanks : List Char := [' ', '\t']

def operators : List Char := ['|', '&', ';', '<', '>', '(', ')', '\n']

/-- What a shell expands also inside of double quotes. -/
def expansions : List Char := ['$', '`']

/-- What names files or a home directory where it is not quoted. -/
def patterns : List Char := ['*', '?', '[', '~']

/-- A character that stands for itself in any place of a word. -/
def IsOrdinary (c : Char) : Prop :=
  c ∉ [apostrophe, nul, '"', '\\', '#'] ++ blanks ++ operators ++ expansions ++ patterns

instance (c : Char) : Decidable (IsOrdinary c) := inferInstanceAs (Decidable (¬_))

/-- A character as it stands, one behind a backslash, or a text in quotes. -/
inductive Piece
  | bare (c : Char)
  | escaped (c : Char)
  | single (text : List Char)
  | double (text : List Char)
deriving DecidableEq

namespace Piece

def text : Piece → List Char
  | bare c => [c]
  | escaped c => [c]
  | single text => text
  | double text => text

/-- The shell puts something else in its place: file names, or a home directory. -/
inductive Expands : Piece → Prop
  | bare {c : Char} (h : c ∈ patterns) : Expands (bare c)

end Piece

/-- The shell puts nothing else in the place of any piece. -/
def Literal (word : List Piece) : Prop := ∀ piece ∈ word, ¬piece.Expands

def removeQuotes (word : List Piece) : List Char := word.flatMap Piece.text

inductive Token
  | word (pieces : List Piece)
  | operator (c : Char)
deriving DecidableEq

/-- What was read last. No word may have begun, which is not a word without pieces. -/
inductive Mode
  | outside (word : Option (List Piece))
  | escape (word : Option (List Piece))
  | single (word : List Piece) (text : List Char)
  | double (word : List Piece) (text : List Char)
  | doubleEscape (word : List Piece) (text : List Char)
  | comment
deriving DecidableEq

def ended (word : Option (List Piece)) : List Token := (word.map Token.word).toList

def readOutside (word : Option (List Piece)) (c : Char) : Option (List Token × Mode) :=
  if c = apostrophe then some ([], .single (word.getD []) [])
  else if c = '"' then some ([], .double (word.getD []) [])
  else if c = '\\' then some ([], .escape word)
  else if c ∈ expansions then none
  else if c ∈ blanks then some (ended word, .outside none)
  else if c ∈ operators then some (ended word ++ [.operator c], .outside none)
  else if c = '#' ∧ word = none then some ([], .comment)
  else some ([], .outside (some (word.getD [] ++ [.bare c])))

/-- A backslash with the line end behind it is dropped. -/
def readEscaped (word : Option (List Piece)) (c : Char) : Mode :=
  if c = '\n' then .outside word else .outside (some (word.getD [] ++ [.escaped c]))

def readSingle (word : List Piece) (text : List Char) (c : Char) : Mode :=
  if c = apostrophe then .outside (some (word ++ [.single text])) else .single word (text ++ [c])

def readDouble (word : List Piece) (text : List Char) (c : Char) : Option (List Token × Mode) :=
  if c = '"' then some ([], .outside (some (word ++ [.double text])))
  else if c = '\\' then some ([], .doubleEscape word text)
  else if c ∈ expansions then none
  else some ([], .double word (text ++ [c]))

/-- In double quotes a backslash stays in front of a character that needs none. -/
def readDoubleEscaped (word : List Piece) (text : List Char) (c : Char) : Mode :=
  if c = '\n' then .double word text
  else if c ∈ expansions ∨ c = '"' ∨ c = '\\' then .double word (text ++ [c])
  else .double word (text ++ ['\\', c])

def read (c : Char) : Mode → Option (List Token × Mode)
  | .outside word => readOutside word c
  | .escape word => some ([], readEscaped word c)
  | .single word text => some ([], readSingle word text c)
  | .double word text => readDouble word text c
  | .doubleEscape word text => some ([], readDoubleEscaped word text c)
  | .comment => some (if c = '\n' then ([.operator c], .outside none) else ([], .comment))

/-- No argument of a program has a NUL, and so no command of a shell. -/
def scan (mode : Mode) : List Char → Option (List Token × Mode)
  | [] => some ([], mode)
  | c :: rest => if c = nul then none else
    (read c mode).bind fun (front, next) =>
      (scan next rest).map fun (back, last) => (front ++ back, last)

def finish : Mode → Option (List Token)
  | .outside word => some (ended word)
  | .comment => some []
  | _ => none

def tokens (text : List Char) : Option (List Token) :=
  (scan (.outside none) text).bind fun (front, last) => (finish last).map (front ++ ·)

section Scan
variable {mode next : Mode} {out : List Token} {c : Char} {text rest : List Char}
  {word : List Piece}

theorem scan_cons (hnul : c ≠ nul) (h : read c mode = some (out, next)) (rest : List Char) :
    scan mode (c :: rest) = (scan next rest).map fun (back, last) => (out ++ back, last) := by
  rw [scan, if_neg hnul, h, Option.bind_some]

/-- A character that ends no word. -/
theorem scan_cons_nil (hnul : c ≠ nul) (h : read c mode = some ([], next)) (rest : List Char) :
    scan mode (c :: rest) = scan next rest := by
  rw [scan_cons hnul h]
  exact congrFun Option.map_id _

theorem scan_append (h : scan mode text = some (out, next)) (rest : List Char) :
    scan mode (text ++ rest) = (scan next rest).map fun (back, last) => (out ++ back, last) := by
  induction text generalizing mode out with
  | nil =>
    obtain ⟨rfl, rfl⟩ := Prod.mk.inj (Option.some.inj h)
    exact (congrFun Option.map_id _).symm
  | cons c text ih =>
    by_cases hnul : c = nul
    · rw [scan, if_pos hnul] at h
      exact absurd h.symm (Option.some_ne_none _)
    · cases hread : read c mode with
      | none =>
        rw [scan, if_neg hnul, hread, Option.bind_none] at h
        exact absurd h.symm (Option.some_ne_none _)
      | some step =>
        obtain ⟨front, middle⟩ := step
        rw [scan_cons hnul hread] at h
        obtain ⟨⟨back, last⟩, hscan, heq⟩ := Option.map_eq_some_iff.mp h
        obtain ⟨rfl, rfl⟩ := Prod.mk.inj heq
        rw [List.cons_append, scan_cons hnul hread, ih hscan, Option.map_map]
        congr 1
        funext ⟨tail, final⟩
        exact congrArg (·, final) (List.append_assoc front back tail).symm

/-- A text with no token in it yet. -/
theorem scan_append_nil (h : scan mode text = some ([], next)) (rest : List Char) :
    scan mode (text ++ rest) = scan next rest := by
  rw [scan_append h]
  exact congrFun Option.map_id _

/-! ## Words -/

theorem IsOrdinary.ne_nul (h : IsOrdinary c) : c ≠ nul := by
  intro heq
  subst heq
  exact absurd h (by decide)

theorem literal_append {left right : List Piece} :
    Literal (left ++ right) ↔ Literal left ∧ Literal right := List.forall_mem_append

theorem literal_singleton {piece : Piece} : Literal [piece] ↔ ¬piece.Expands :=
  List.forall_mem_singleton

theorem removeQuotes_append (left right : List Piece) :
    removeQuotes (left ++ right) = removeQuotes left ++ removeQuotes right :=
  List.flatMap_append

theorem IsOrdinary.not_expands (h : IsOrdinary c) : ¬(Piece.bare c).Expands := by
  intro hexpands
  cases hexpands with
  | bare hmem => exact h (List.mem_append_right _ hmem)

theorem read_ordinary (h : IsOrdinary c) (word : Option (List Piece)) :
    read c (.outside word) = some ([], .outside (some (word.getD [] ++ [.bare c]))) := by
  have hnot : ∀ d ∈ [apostrophe, nul, '"', '\\', '#'], c ≠ d := by
    intro d hd heq
    subst heq
    simp only [IsOrdinary, List.append_assoc] at h
    exact h (List.mem_append_left _ hd)
  have hblank : c ∉ blanks := fun hmem => h (by simp [hmem])
  have hoperator : c ∉ operators := fun hmem => h (by simp [hmem])
  have hexpansion : c ∉ expansions := fun hmem => h (by simp [hmem])
  have hcomment : ¬(c = '#' ∧ word = none) := fun hboth => hnot '#' (by decide) hboth.1
  rw [read, readOutside, if_neg (hnot _ (by decide)), if_neg (hnot _ (by decide)),
    if_neg (hnot _ (by decide)), if_neg hexpansion, if_neg hblank, if_neg hoperator,
    if_neg hcomment]

theorem scan_ordinary (h : ∀ c ∈ text, IsOrdinary c) (word : List Piece) :
    scan (.outside (some word)) text = some ([], .outside (some (word ++ text.map .bare))) := by
  induction text generalizing word with
  | nil => rw [scan, List.map_nil, List.append_nil]
  | cons c text ih =>
    have hc : IsOrdinary c := h c List.mem_cons_self
    have hrest : ∀ d ∈ text, IsOrdinary d := fun d hd => h d (List.mem_cons_of_mem c hd)
    rw [scan_cons_nil hc.ne_nul (read_ordinary hc _), ih hrest, Option.getD_some,
      List.append_assoc, List.map_cons, List.singleton_append]

/-- The text is one word, with nothing in front of it. -/
def IsWord (text : List Char) (word : List Piece) : Prop :=
  scan (.outside none) text = some ([], .outside (some word))

theorem isWord_ordinary (hne : text ≠ []) (h : ∀ c ∈ text, IsOrdinary c) :
    IsWord text (text.map .bare) := by
  cases text with
  | nil => exact absurd rfl hne
  | cons c text =>
    have hc : IsOrdinary c := h c List.mem_cons_self
    have hrest : ∀ d ∈ text, IsOrdinary d := fun d hd => h d (List.mem_cons_of_mem c hd)
    rw [IsWord, scan_cons_nil hc.ne_nul (read_ordinary hc _), scan_ordinary hrest]
    rfl

theorem literal_ordinary (h : ∀ c ∈ text, IsOrdinary c) : Literal (text.map .bare) := by
  intro piece hpiece
  obtain ⟨c, hc, rfl⟩ := List.mem_map.mp hpiece
  exact (h c hc).not_expands

theorem removeQuotes_bare (text : List Char) : removeQuotes (text.map .bare) = text := by
  induction text with
  | nil => rfl
  | cons c text ih =>
    rw [List.map_cons, removeQuotes, List.flatMap_cons, ← removeQuotes, ih]
    rfl

/-! ## Commands -/

/-- A blank ends the word in front of it. -/
theorem tokens_append {last : Option (List Piece)}
    (h : scan (.outside none) text = some (out, .outside last)) (rest : List Char) :
    tokens (text ++ ' ' :: rest) = (tokens rest).map (out ++ ended last ++ ·) := by
  have hblank : read ' ' (.outside last) = some (ended last, .outside none) := by rfl
  rw [tokens, tokens, scan_append h, scan_cons (by decide) hblank, Option.map_map]
  cases scan (.outside none) rest with
  | none => rfl
  | some step =>
    obtain ⟨back, final⟩ := step
    cases hfinish : finish final with
    | none => simp [hfinish]
    | some tail => simp [hfinish]

theorem IsWord.tokens_cons (h : IsWord text word) (rest : List Char) :
    tokens (text ++ ' ' :: rest) = (tokens rest).map (.word word :: ·) := tokens_append h rest

theorem IsWord.tokens (h : IsWord text word) : tokens text = some [.word word] := by
  rw [ShellWords.tokens, h]
  rfl

/-- Words with a blank between any two of them. -/
theorem tokens_intercalate {texts : List (List Char)} {words : List (List Piece)}
    (h : List.Forall₂ IsWord texts words) :
    tokens ([' '].intercalate texts) = some (words.map .word) := by
  induction h with
  | nil => rfl
  | @cons text word texts words hword hrest ih =>
    cases hrest with
    | nil =>
      rw [List.intercalate_singleton]
      exact hword.tokens
    | @cons next other texts words hnext hrest =>
      rw [List.intercalate_cons_cons, List.append_assoc, List.singleton_append,
        hword.tokens_cons, ih]
      rfl

end Scan

end ShellWords
