import Mathlib.Data.List.Basic

/-! The arguments of a program of the Microsoft C runtime. It reads its command line, which ends in
front of a NUL, character by character. The name of the program comes first and has no escapes. In
the arguments backslashes stand for themselves unless a double quote follows them. -/

namespace CommandLine

def blanks : List Char := [' ', '\t']

/-- What has been read of the argument, the backslashes at its end apart: two of them are one, and
an odd one takes its meaning from the quote, if a quote follows. -/
inductive Mode
  | program (quoted : Bool) (text : List Char)
  | between
  | argument (quoted : Bool) (backslashes : ℕ) (text : List Char)
  /-- Behind a quote that ends what is quoted, unless another one follows. -/
  | closed (text : List Char)
deriving DecidableEq

def readProgram (quoted : Bool) (text : List Char) (c : Char) : List (List Char) × Mode :=
  if c = '"' then ([], .program (!quoted) text)
  else if c ∈ blanks ∧ quoted = false then ([text], .between)
  else ([], .program quoted (text ++ [c]))

def readArgument (quoted : Bool) (backslashes : ℕ) (text : List Char) (c : Char) :
    List (List Char) × Mode :=
  if c = '\\' then ([], .argument quoted (backslashes + 1) text)
  else if c = '"' then
    let text := text ++ List.replicate (backslashes / 2) '\\'
    if backslashes % 2 = 1 then ([], .argument quoted 0 (text ++ ['"']))
    else if quoted then ([], .closed text)
    else ([], .argument true 0 text)
  else
    let text := text ++ List.replicate backslashes '\\'
    if c ∈ blanks ∧ quoted = false then ([text], .between)
    else ([], .argument quoted 0 (text ++ [c]))

def read (c : Char) : Mode → List (List Char) × Mode
  | .program quoted text => readProgram quoted text c
  | .between => if c ∈ blanks then ([], .between) else readArgument false 0 [] c
  | .argument quoted backslashes text => readArgument quoted backslashes text c
  | .closed text =>
    if c = '"' then ([], .argument true 0 (text ++ ['"'])) else readArgument false 0 text c

def finish : Mode → List (List Char)
  | .program _ text => [text]
  | .between => []
  | .argument _ backslashes text => [text ++ List.replicate backslashes '\\']
  | .closed text => [text]

def scan (mode : Mode) : List Char → List (List Char)
  | [] => finish mode
  | c :: rest => (read c mode).1 ++ scan (read c mode).2 rest

/-- The name of the program and its arguments. -/
def split (line : List Char) : List (List Char) := scan (.program false []) line

/-- What may follow an argument: nothing, or a blank. -/
def Ends (rest : List Char) : Prop := ∀ c, rest.head? = some c → c ∈ blanks

section Scan
variable {quoted : Bool} {backslashes : ℕ} {text rest : List Char} {c : Char}

theorem ends_nil : Ends [] := fun c hc => by cases hc

theorem ends_cons (h : c ∈ blanks) : Ends (c :: rest) := fun d hd => by
  obtain rfl := Option.some.inj hd
  exact h

theorem ne_quote_of_mem (h : c ∈ blanks) : c ≠ '"' := by
  rintro rfl
  exact absurd h (by decide)

theorem ne_backslash_of_mem (h : c ∈ blanks) : c ≠ '\\' := by
  rintro rfl
  exact absurd h (by decide)

/-! ## The name of the program -/

theorem scan_program (h : ∀ c ∈ text, c ≠ '"' ∧ (quoted = false → c ∉ blanks))
    (front : List Char) : scan (.program quoted front) (text ++ rest) =
      scan (.program quoted (front ++ text)) rest := by
  induction text generalizing front with
  | nil => rw [List.nil_append, List.append_nil]
  | cons c text ih =>
    obtain ⟨hquote, hblank⟩ := h c List.mem_cons_self
    have hread : readProgram quoted front c = ([], .program quoted (front ++ [c])) := by
      rw [readProgram, if_neg hquote, if_neg fun hboth => hblank hboth.2 hboth.1]
    rw [List.cons_append, scan, read, hread]
    dsimp only
    rw [List.nil_append, ih fun d hd => h d (List.mem_cons_of_mem c hd), List.append_assoc]
    rfl

theorem scan_program_quote (front : List Char) :
    scan (.program quoted front) ('"' :: rest) = scan (.program (!quoted) front) rest := rfl

theorem scan_program_ends (h : Ends rest) (front : List Char) :
    scan (.program false front) rest = front :: scan .between rest := by
  cases rest with
  | nil => rfl
  | cons c rest =>
    have hblank : c ∈ blanks := h c rfl
    have hread : readProgram false front c = ([front], .between) := by
      rw [readProgram, if_neg (ne_quote_of_mem hblank), if_pos ⟨hblank, rfl⟩]
    rw [scan, read, hread, scan, read, if_pos hblank]
    rfl

/-! ## Arguments -/

theorem scan_between_blank (h : c ∈ blanks) : scan .between (c :: rest) = scan .between rest := by
  rw [scan, read, if_pos h]
  rfl

theorem scan_between (h : c ∉ blanks) :
    scan .between (c :: rest) = scan (.argument false 0 []) (c :: rest) := by
  rw [scan, scan, read, if_neg h, read]

theorem scan_backslash : scan (.argument quoted backslashes text) ('\\' :: rest) =
    scan (.argument quoted (backslashes + 1) text) rest := rfl

theorem scan_backslashes (more : ℕ) :
    scan (.argument quoted backslashes text) (List.replicate more '\\' ++ rest) =
      scan (.argument quoted (backslashes + more) text) rest := by
  induction more generalizing backslashes with
  | zero => rfl
  | succ more ih =>
    rw [List.replicate_succ, List.cons_append, scan_backslash, ih, Nat.add_assoc,
      Nat.add_comm 1 more]

/-- A character that stands for itself, with the backslashes in front of it. -/
theorem scan_plain (hbackslash : c ≠ '\\') (hquote : c ≠ '"')
    (hblank : quoted = false → c ∉ blanks) :
    scan (.argument quoted backslashes text) (c :: rest) =
      scan (.argument quoted 0 (text ++ List.replicate backslashes '\\' ++ [c])) rest := by
  rw [scan, read, readArgument, if_neg hbackslash, if_neg hquote]
  dsimp only
  rw [if_neg fun hboth => hblank hboth.2 hboth.1]
  rfl

/-- A quote behind an odd number of backslashes is one of the characters. -/
theorem scan_odd : scan (.argument quoted (2 * backslashes + 1) text) ('"' :: rest) =
    scan (.argument quoted 0 (text ++ List.replicate backslashes '\\' ++ ['"'])) rest := by
  have hhalf : (2 * backslashes + 1) / 2 = backslashes := by omega
  have hodd : (2 * backslashes + 1) % 2 = 1 := by omega
  rw [scan, read, readArgument, if_neg (by decide), if_pos rfl]
  dsimp only
  rw [if_pos hodd, hhalf]
  rfl

theorem scan_close : scan (.argument true (2 * backslashes) text) ('"' :: rest) =
    scan (.closed (text ++ List.replicate backslashes '\\')) rest := by
  have hhalf : 2 * backslashes / 2 = backslashes := by omega
  have heven : ¬2 * backslashes % 2 = 1 := by omega
  rw [scan, read, readArgument, if_neg (by decide), if_pos rfl]
  dsimp only
  rw [if_neg heven, if_pos rfl, hhalf]
  rfl

theorem scan_argument_ends (h : Ends rest) : scan (.argument false backslashes text) rest =
    (text ++ List.replicate backslashes '\\') :: scan .between rest := by
  cases rest with
  | nil => rfl
  | cons c rest =>
    have hblank : c ∈ blanks := h c rfl
    rw [scan, read, readArgument, if_neg (ne_backslash_of_mem hblank),
      if_neg (ne_quote_of_mem hblank)]
    dsimp only
    rw [if_pos ⟨hblank, rfl⟩, scan_between_blank hblank]
    rfl

theorem scan_closed_ends (h : Ends rest) :
    scan (.closed text) rest = text :: scan .between rest := by
  have hargument : scan (.closed text) rest = scan (.argument false 0 text) rest := by
    cases rest with
    | nil =>
      rw [scan, scan, finish, finish, List.replicate_zero, List.append_nil]
    | cons c rest =>
      have hblank : c ∈ blanks := h c rfl
      rw [scan, scan, read, read, if_neg (ne_quote_of_mem hblank)]
  rw [hargument, scan_argument_ends h, List.replicate_zero, List.append_nil]

/-- A text without blanks and quotes is read as it stands. -/
theorem scan_unquoted {value : List Char} (h : ∀ c ∈ value, c ≠ '"' ∧ c ∉ blanks)
    (hrest : Ends rest) : scan (.argument false backslashes text) (value ++ rest) =
      (text ++ List.replicate backslashes '\\' ++ value) :: scan .between rest := by
  induction value generalizing backslashes text with
  | nil => rw [List.nil_append, List.append_nil, scan_argument_ends hrest]
  | cons c value ih =>
    obtain ⟨hquote, hblank⟩ := h c List.mem_cons_self
    have hvalue : ∀ d ∈ value, d ≠ '"' ∧ d ∉ blanks :=
      fun d hd => h d (List.mem_cons_of_mem c hd)
    by_cases hbackslash : c = '\\'
    · subst hbackslash
      rw [List.cons_append, scan_backslash, ih hvalue, List.replicate_succ', ← List.append_assoc,
        List.append_assoc _ ['\\'] value]
      rfl
    · rw [List.cons_append, scan_plain hbackslash hquote fun _ => hblank, ih hvalue,
        List.replicate_zero, List.append_nil, List.append_assoc _ [c] value]
      rfl

end Scan

end CommandLine
