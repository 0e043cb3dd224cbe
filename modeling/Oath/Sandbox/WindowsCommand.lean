import Oath.Core.Policy
import Oath.Library.CommandLine

/-! The command line for a program in the sandbox of Windows. The program finds its arguments in it
as they were given. -/

namespace Oath.Sandbox.Windows
open Core CommandLine

/-- What stands behind the opening quote, after so many backslashes that are still to be written. -/
def quoteFrom (backslashes : ℕ) : List Char → List Char
  | [] => List.replicate (backslashes * 2) '\\' ++ ['"']
  | ch :: rest =>
    if ch = '\\' then quoteFrom (backslashes + 1) rest
    else if ch = '"' then List.replicate (backslashes * 2 + 1) '\\' ++ '"' :: quoteFrom 0 rest
    else List.replicate backslashes '\\' ++ ch :: quoteFrom 0 rest

def quote (value : List Char) : List Char :=
  if value ≠ [] ∧ ¬value.any fun ch => isWhitespace ch || ch = '"' then value
  else '"' :: quoteFrom 0 value

/-- The text that `CreateProcessW` is given, without the NUL at its end. -/
def commandLine (program : List Char) (args : List (List Char)) : List Char :=
  quote program ++ args.flatMap fun arg => ' ' :: quote arg

section Quote
variable {value rest : List Char}

theorem isWhitespace_of_mem {c : Char} (h : c ∈ blanks) : isWhitespace c := by
  have hall : ∀ d ∈ blanks, isWhitespace d := List.all_eq_true.mp (by decide)
  exact hall c h

/-- What need not be quoted has neither quotes nor blanks. -/
theorem plain_of_not_any (h : ¬value.any fun ch => isWhitespace ch || ch = '"') :
    ∀ c ∈ value, c ≠ '"' ∧ c ∉ blanks := by
  intro c hc
  have hnot : ¬(isWhitespace c || decide (c = '"')) :=
    fun hsome => h (List.any_eq_true.mpr ⟨c, hc, hsome⟩)
  rw [Bool.or_eq_true, decide_eq_true_eq, not_or] at hnot
  exact ⟨hnot.2, fun hblank => hnot.1 (isWhitespace_of_mem hblank)⟩

/-- The characters behind the opening quote are read as the value, up to the closing quote. -/
theorem scan_quoteFrom (backslashes : ℕ) (text : List Char) :
    scan (.argument true 0 text) (quoteFrom backslashes value ++ rest) =
      scan (.closed (text ++ List.replicate backslashes '\\' ++ value)) rest := by
  induction value generalizing backslashes text with
  | nil =>
    rw [quoteFrom, List.append_assoc, scan_backslashes, Nat.zero_add, Nat.mul_comm,
      List.singleton_append, scan_close, List.append_nil]
  | cons ch value ih =>
    rw [quoteFrom]
    split_ifs with hbackslash hquote
    · rw [ih, List.replicate_succ', hbackslash, ← List.append_assoc,
        List.append_assoc _ ['\\'] value]
      rfl
    · rw [List.append_assoc, scan_backslashes, Nat.zero_add, Nat.mul_comm, List.cons_append,
        scan_odd, ih, hquote, List.replicate_zero, List.append_nil, List.append_assoc _ ['"'] value]
      rfl
    · rw [List.append_assoc, scan_backslashes, Nat.zero_add, List.cons_append,
        scan_plain hbackslash hquote fun h => Bool.noConfusion h, ih, List.replicate_zero,
        List.append_nil, List.append_assoc _ [ch] value]
      rfl

/-- A quoted argument is read as the argument. -/
theorem scan_quote (hrest : Ends rest) :
    scan .between (quote value ++ rest) = value :: scan .between rest := by
  unfold quote
  split_ifs with hplain
  · obtain ⟨hne, hany⟩ := hplain
    have hvalue := plain_of_not_any hany
    have hbegin : scan .between (value ++ rest) = scan (.argument false 0 []) (value ++ rest) := by
      cases value with
      | nil => exact absurd rfl hne
      | cons c value => exact scan_between (hvalue c List.mem_cons_self).2
    rw [hbegin, scan_unquoted hvalue hrest]
    rfl
  · have hopen : scan .between ('"' :: (quoteFrom 0 value ++ rest)) =
        scan (.argument true 0 []) (quoteFrom 0 value ++ rest) := rfl
    rw [List.cons_append, hopen, scan_quoteFrom, scan_closed_ends hrest]
    rfl

theorem ends_args (args : List (List Char)) :
    Ends (args.flatMap fun arg => ' ' :: quote arg) := by
  cases args with
  | nil => exact ends_nil
  | cons arg args =>
    have hblank : ' ' ∈ blanks := by decide
    rw [List.flatMap_cons, List.cons_append]
    exact ends_cons hblank

theorem scan_args (args : List (List Char)) :
    scan .between (args.flatMap fun arg => ' ' :: quote arg) = args := by
  induction args with
  | nil => rfl
  | cons arg args ih =>
    have hblank : ' ' ∈ blanks := by decide
    rw [List.flatMap_cons, List.cons_append, scan_between_blank hblank,
      scan_quote (ends_args args), ih]

/-- A text without quotes and without a backslash at its end is written as it stands. -/
theorem quoteFrom_plain (hquote : '"' ∉ value) (backslashes : ℕ)
    (hlast : ¬['\\'] <:+ List.replicate backslashes '\\' ++ value) :
    quoteFrom backslashes value = List.replicate backslashes '\\' ++ value ++ ['"'] := by
  induction value generalizing backslashes with
  | nil =>
    cases backslashes with
    | zero => rfl
    | succ more =>
      rw [List.append_nil, List.replicate_succ'] at hlast
      exact absurd (List.suffix_append _ _) hlast
  | cons ch value ih =>
    have hvalue : '"' ∉ value := fun hmem => hquote (List.mem_cons_of_mem ch hmem)
    rw [quoteFrom]
    split_ifs with hbackslash hch
    · subst hbackslash
      have hsame : List.replicate (backslashes + 1) '\\' ++ value =
          List.replicate backslashes '\\' ++ '\\' :: value := by
        rw [List.replicate_succ', List.append_assoc]
        rfl
      rw [ih hvalue _ (hsame ▸ hlast), hsame]
    · exact absurd (hch ▸ List.mem_cons_self) hquote
    · have hlater : ¬['\\'] <:+ List.replicate 0 '\\' ++ value := by
        intro hsuffix
        have hwhole : value <:+ List.replicate backslashes '\\' ++ ch :: value :=
          (List.suffix_cons ch value).trans (List.suffix_append _ _)
        exact hlast (hsuffix.trans hwhole)
      rw [ih hvalue 0 hlater, List.append_assoc, List.append_assoc]
      rfl

/-- The name of the program is read as it was given. -/
theorem split_quote (hquote : '"' ∉ value) (hlast : ¬['\\'] <:+ value) (hrest : Ends rest) :
    split (quote value ++ rest) = value :: scan .between rest := by
  unfold quote
  split_ifs with hplain
  · have hvalue := plain_of_not_any hplain.2
    rw [split, scan_program fun c hc => ⟨(hvalue c hc).1, fun _ => (hvalue c hc).2⟩,
      scan_program_ends hrest]
    rfl
  · have hvalue : ∀ c ∈ value, c ≠ '"' ∧ (true = false → c ∉ blanks) :=
      fun c hc => ⟨fun heq => hquote (heq ▸ hc), fun h => Bool.noConfusion h⟩
    have htext : '"' :: quoteFrom 0 value ++ rest = '"' :: (value ++ '"' :: rest) := by
      rw [quoteFrom_plain hquote 0 hlast, List.cons_append, List.append_assoc]
      rfl
    rw [split, htext, scan_program_quote, Bool.not_false, scan_program hvalue,
      scan_program_quote, Bool.not_true, scan_program_ends hrest]
    rfl

/-! ## The whole line -/

/-- The program finds its name and the arguments that it was given. -/
theorem split_commandLine (program : List Char) (args : List (List Char)) (hquote : '"' ∉ program)
    (hlast : ¬['\\'] <:+ program) : split (commandLine program args) = program :: args := by
  rw [commandLine, split_quote hquote hlast (ends_args args), scan_args]

theorem split_commandLine_cmd :
    split (commandLine "C:\\Program Files\\node.exe".toList
      ["".toList, "say \"hi\"\\".toList, "a\\\\b".toList]) =
    ["C:\\Program Files\\node.exe".toList, "".toList, "say \"hi\"\\".toList, "a\\\\b".toList] :=
  split_commandLine _ _ (by decide) (by decide)

end Quote

end Oath.Sandbox.Windows
