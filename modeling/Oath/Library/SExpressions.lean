import Mathlib.Data.Bool.AllAny
import Mathlib.Data.List.Basic

/-! S-expressions as text. In a string a backslash and a double quote stand behind a backslash; a
text is read character by character, with the lists that are still open on a stack. -/

namespace SExpressions

inductive Expr
  | atom (text : List Char)
  | string (text : List Char)
  | list (items : List Expr)

/-! ## Printing -/

def escape (text : List Char) : List Char :=
  text.flatMap fun c => if c = '\\' ∨ c = '"' then ['\\', c] else [c]

mutual

def Expr.print : Expr → List Char
  | .atom text => text
  | .string text => '"' :: (escape text ++ ['"'])
  | .list [] => ['(', ')']
  | .list (item :: items) => '(' :: (item.print ++ (printRest items ++ [')']))

/-- What stands behind the first item of a list. -/
def printRest : List Expr → List Char
  | [] => []
  | item :: items => ' ' :: (item.print ++ printRest items)

end

/-! ## Reading -/

inductive Mode
  | between
  | atom (text : List Char)
  | string (text : List Char)
  | escaped (text : List Char)

structure State where
  outer : List (List Expr)
  items : List Expr
  mode : Mode

def blanks : List Char := [' ', '\t', '\r', '\n']

/-- The characters that end an atom. -/
def delimiters : List Char := '(' :: ')' :: blanks

def IsPlain (c : Char) : Prop := c ∉ '"' :: delimiters

instance (c : Char) : Decidable (IsPlain c) := inferInstanceAs (Decidable (¬_))

theorem plain_of_all {text : List Char} (h : text.all fun c => decide (IsPlain c)) :
    ∀ c ∈ text, IsPlain c := List.all_iff_forall_prop.mp h

namespace State

def start : State := ⟨[], [], .between⟩

def push (s : State) (item : Expr) : State := ⟨s.outer, s.items ++ [item], .between⟩

/-- An atom that has been read is an item. -/
def settle (s : State) : State :=
  match s.mode with
  | .atom text => s.push (.atom text)
  | _ => s

/-- The list of the items is closed. -/
def close (s : State) : Option State :=
  match s.outer with
  | [] => none
  | items :: outer => some (State.push ⟨outer, items, .between⟩ (.list s.items))

/-- One character outside of strings. -/
def stepPlain (s : State) (c : Char) : Option State :=
  if c = '(' then some ⟨s.settle.items :: s.settle.outer, [], .between⟩
  else if c = ')' then s.settle.close
  else if c ∈ blanks then some s.settle
  else match s.mode with
    | .atom text => if c = '"' then none else some { s with mode := .atom (text ++ [c]) }
    | _ => if c = '"' then some { s with mode := .string [] } else some { s with mode := .atom [c] }

def step (s : State) (c : Char) : Option State :=
  match s.mode with
  | .string text =>
    if c = '"' then some (s.push (.string text))
    else if c = '\\' then some { s with mode := .escaped text }
    else some { s with mode := .string (text ++ [c]) }
  | .escaped text =>
    if c = '\\' ∨ c = '"' then some { s with mode := .string (text ++ [c]) } else none
  | _ => s.stepPlain c

def run (s : State) : List Char → Option State
  | [] => some s
  | c :: text => (s.step c).bind fun s => s.run text

/-- At the end no list and no string is open. -/
def finish (s : State) : Option (List Expr) :=
  match s.settle with
  | ⟨[], items, .between⟩ => some items
  | _ => none

end State

def read (text : List Char) : Option (List Expr) := (State.start.run text).bind State.finish

/-! ## What is printed is read -/

/-- An atom is a word. -/
inductive Proper : Expr → Prop
  | atom {text : List Char} (hne : text ≠ []) (hplain : ∀ c ∈ text, IsPlain c) :
      Proper (.atom text)
  | string {text : List Char} : Proper (.string text)
  | list {items : List Expr} (hitems : ∀ item ∈ items, Proper item) : Proper (.list items)

section Reading
variable {s s' t : State} {c : Char} {text rest : List Char}

theorem run_append (s : State) (text rest : List Char) :
    s.run (text ++ rest) = (s.run text).bind fun s => s.run rest := by
  induction text generalizing s with
  | nil => rfl
  | cons c text ih =>
    rw [List.cons_append, State.run, State.run, Option.bind_assoc]
    exact congrArg _ (funext fun s => ih s)

theorem run_cons (h : s.step c = some t) : s.run (c :: text) = t.run text := by
  rw [State.run, h, Option.bind_some]

theorem run_append_of (h : s.run text = some t) : s.run (text ++ rest) = t.run rest := by
  rw [run_append, h, Option.bind_some]

/-- Some item has been read, which may be an atom that goes on. -/
def Settled (s t : State) : Prop := s.settle = t ∧ t.mode = .between

theorem Settled.of_between (h : s.mode = .between) : Settled s s := by
  refine ⟨?_, h⟩
  unfold State.settle
  rw [h]

theorem settled_push (s : State) (item : Expr) : Settled (s.push item) (s.push item) :=
  .of_between rfl

/-- A delimiter sees the item as it is. -/
theorem Settled.step_eq (h : Settled s t) (hc : c ∈ delimiters) : s.step c = t.step c := by
  obtain ⟨hsettle, hmode⟩ := h
  have ht : t.settle = t := (Settled.of_between hmode).1
  have htstep : t.step c = t.stepPlain c := by
    unfold State.step
    rw [hmode]
  have hsstep : s.step c = s.stepPlain c := by
    unfold State.step
    cases hs : s.mode with
    | between => rfl
    | atom _ => rfl
    | _ =>
      have hsame : s.settle = s := by
        unfold State.settle
        rw [hs]
      rw [← hsettle, hsame, hs] at hmode
      cases hmode
  rw [htstep, hsstep]
  unfold State.stepPlain
  rw [hsettle, ht]
  rcases List.mem_cons.mp hc with rfl | hc
  · rfl
  rcases List.mem_cons.mp hc with rfl | hblank
  · rfl
  -- a blank is neither of the parentheses
  have hopen : c ≠ '(' := fun heq => absurd (heq ▸ hblank) (by decide)
  have hclose : c ≠ ')' := fun heq => absurd (heq ▸ hblank) (by decide)
  simp only [if_neg hopen, if_neg hclose, if_pos hblank]

theorem step_plain (hmode : s.mode = .between) (hc : IsPlain c) :
    s.step c = some { s with mode := .atom [c] } := by
  unfold IsPlain delimiters at hc
  simp only [List.mem_cons, not_or] at hc
  obtain ⟨hquote, hopen, hclose, hblank⟩ := hc
  unfold State.step
  rw [hmode]
  unfold State.stepPlain
  rw [if_neg hopen, if_neg hclose, if_neg (by simpa [blanks] using hblank), hmode]
  exact if_neg hquote

theorem step_atom (hmode : s.mode = .atom text) (hc : IsPlain c) :
    s.step c = some { s with mode := .atom (text ++ [c]) } := by
  unfold IsPlain delimiters at hc
  simp only [List.mem_cons, not_or] at hc
  obtain ⟨hquote, hopen, hclose, hblank⟩ := hc
  unfold State.step
  rw [hmode]
  unfold State.stepPlain
  rw [if_neg hopen, if_neg hclose, if_neg (by simpa [blanks] using hblank), hmode]
  exact if_neg hquote

theorem run_atom (word : List Char) (hmode : s.mode = .atom text) (hplain : ∀ c ∈ word, IsPlain c) :
    s.run word = some { s with mode := .atom (text ++ word) } := by
  induction word generalizing s text with
  | nil => rw [List.append_nil, ← hmode, State.run]
  | cons c word ih =>
    have hrest : ∀ c ∈ word, IsPlain c := fun d hd => hplain d (List.mem_cons_of_mem c hd)
    rw [run_cons (step_atom hmode (hplain c List.mem_cons_self)), ih rfl hrest, List.append_assoc,
      List.singleton_append]

/-- A string is read up to its closing quote. -/
theorem run_escape (word : List Char) (hmode : s.mode = .string text) :
    s.run (escape word) = some { s with mode := .string (text ++ word) } := by
  induction word generalizing s text with
  | nil => rw [List.append_nil, ← hmode, escape, List.flatMap_nil, State.run]
  | cons c word ih =>
    have hread : s.run (if c = '\\' ∨ c = '"' then ['\\', c] else [c]) =
        some { s with mode := .string (text ++ [c]) } := by
      split_ifs with hescaped
      · have hback : s.step '\\' = some { s with mode := .escaped text } := by
          unfold State.step
          rw [hmode]
          rfl
        have hkept : State.step { s with mode := .escaped text } c =
            some { s with mode := .string (text ++ [c]) } := if_pos hescaped
        rw [run_cons hback, run_cons hkept, State.run]
      · rw [not_or] at hescaped
        have hplain : s.step c = some { s with mode := .string (text ++ [c]) } := by
          unfold State.step
          rw [hmode]
          exact (if_neg hescaped.2).trans (if_neg hescaped.1)
        rw [run_cons hplain, State.run]
    have hcons : escape (c :: word) =
        (if c = '\\' ∨ c = '"' then ['\\', c] else [c]) ++ escape word := List.flatMap_cons
    rw [hcons, run_append_of hread, ih rfl, List.append_assoc, List.singleton_append]

theorem run_string (word : List Char) (hmode : s.mode = .between) :
    s.run (Expr.print (.string word)) = some (s.push (.string word)) := by
  have hopen : s.step '"' = some { s with mode := .string [] } := by
    unfold State.step
    rw [hmode]
    unfold State.stepPlain
    rw [hmode]
    rfl
  rw [Expr.print, run_cons hopen, run_append_of (run_escape word rfl), State.run]
  rfl

/-- The items behind the first one are read one after the other. -/
theorem run_printRest {items : List Expr}
    (ih : ∀ item ∈ items, ∀ s : State, s.mode = .between →
      ∃ s', s.run item.print = some s' ∧ Settled s' (s.push item)) :
    ∀ s t : State, Settled s t → ∃ s', s.run (printRest items) = some s' ∧
      Settled s' ⟨t.outer, t.items ++ items, .between⟩ := by
  induction items with
  | nil =>
    intro s t ⟨hsettle, hmode⟩
    refine ⟨s, rfl, ?_, rfl⟩
    rw [hsettle, List.append_nil, ← hmode]
  | cons item items ihitems =>
    intro s t hst
    have hblank : s.step ' ' = some t := by
      rw [hst.step_eq (by decide)]
      have ht := (Settled.of_between hst.2).1
      unfold State.step
      rw [hst.2]
      unfold State.stepPlain
      rw [ht]
      rfl
    obtain ⟨s₁, hrun, hsettled⟩ := ih item List.mem_cons_self t hst.2
    obtain ⟨s₂, hrest, hsettled'⟩ :=
      ihitems (fun other hother => ih other (List.mem_cons_of_mem item hother)) s₁ _ hsettled
    refine ⟨s₂, ?_, ?_⟩
    · rw [printRest, run_cons hblank, run_append_of hrun, hrest]
    · have hitems : (t.push item).items ++ items = t.items ++ item :: items := by
        rw [State.push, List.append_assoc, List.singleton_append]
      rw [← hitems]
      exact hsettled'

theorem step_open (hmode : s.mode = .between) :
    s.step '(' = some ⟨s.items :: s.outer, [], .between⟩ := by
  have hs := (Settled.of_between hmode).1
  unfold State.step
  rw [hmode]
  unfold State.stepPlain
  rw [hs]
  rfl

theorem step_close (hst : Settled s t) : s.step ')' = t.close := by
  have ht := (Settled.of_between hst.2).1
  rw [hst.step_eq (by decide)]
  unfold State.step
  rw [hst.2]
  unfold State.stepPlain
  rw [ht]
  rfl

theorem run_print {item : Expr} (h : Proper item) :
    ∀ s : State, s.mode = .between →
      ∃ s', s.run item.print = some s' ∧ Settled s' (s.push item) := by
  induction h with
  | @atom text hne hplain =>
    intro s hmode
    cases text with
    | nil => exact absurd rfl hne
    | cons c text =>
      have hrest : ∀ c ∈ text, IsPlain c := fun d hd => hplain d (List.mem_cons_of_mem c hd)
      refine ⟨{ s with mode := .atom (c :: text) }, ?_, rfl, rfl⟩
      rw [Expr.print, run_cons (step_plain hmode (hplain c List.mem_cons_self)),
        run_atom text rfl hrest, List.singleton_append]
  | string => exact fun s hmode => ⟨_, run_string _ hmode, settled_push s _⟩
  | @list items hitems ih =>
    intro s hmode
    cases items with
    | nil =>
      refine ⟨s.push (.list []), ?_, settled_push s _⟩
      rw [Expr.print, run_cons (step_open hmode), run_cons (step_close (.of_between rfl))]
      rfl
    | cons item items =>
      obtain ⟨s₁, hrun, hsettled⟩ :=
        ih item List.mem_cons_self ⟨s.items :: s.outer, [], .between⟩ rfl
      have ihrest : ∀ other ∈ items, ∀ s : State, s.mode = .between →
          ∃ s', s.run other.print = some s' ∧ Settled s' (s.push other) :=
        fun other hother => ih other (List.mem_cons_of_mem item hother)
      obtain ⟨s₂, hrest, hsettled'⟩ := run_printRest ihrest s₁ _ hsettled
      refine ⟨s.push (.list (item :: items)), ?_, settled_push s _⟩
      rw [Expr.print, run_cons (step_open hmode), run_append_of hrun, run_append_of hrest,
        run_cons (step_close hsettled')]
      rfl

/-- Expressions on lines of their own. -/
def printLines (items : List Expr) : List Char := items.flatMap fun item => item.print ++ ['\n']

theorem run_printLines {items : List Expr} (h : ∀ item ∈ items, Proper item)
    (hmode : s.mode = .between) :
    s.run (printLines items) = some ⟨s.outer, s.items ++ items, .between⟩ := by
  induction items generalizing s with
  | nil => rw [List.append_nil, ← hmode, printLines, List.flatMap_nil, State.run]
  | cons item items ih =>
    obtain ⟨s₁, hrun, hsettled⟩ := run_print (h item List.mem_cons_self) s hmode
    have hline : s₁.step '\n' = some (s.push item) := by
      have hpush := (settled_push s item).1
      rw [hsettled.step_eq (by decide)]
      unfold State.step State.stepPlain
      rw [hpush]
      rfl
    have hrest : ∀ item ∈ items, Proper item :=
      fun other hother => h other (List.mem_cons_of_mem _ hother)
    have hsplit : printLines (item :: items) = item.print ++ '\n' :: printLines items := by
      rw [printLines, List.flatMap_cons, List.append_assoc]
      rfl
    rw [hsplit, run_append_of hrun, run_cons hline, ih hrest rfl, State.push, List.append_assoc,
      List.singleton_append]

/-- What is printed on lines is read back. -/
theorem read_printLines {items : List Expr} (h : ∀ item ∈ items, Proper item) :
    read (printLines items) = some items := by
  rw [read, run_printLines h rfl, Option.bind_some]
  rfl

end Reading

end SExpressions
