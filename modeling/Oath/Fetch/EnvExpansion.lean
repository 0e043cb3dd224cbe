import Mathlib.Data.List.Infix
import Mathlib.Data.List.TakeWhile
import Oath.Fetch.Npmrc

/-! What the loop over the references of a value makes of it, beside one pass over the value that
reads no value of the environment again. -/

namespace Oath.Fetch

def opening : List Char := ['$', '\x7b']

def closing : Char := '\x7d'

/-- A reference that is opened and closed somewhere behind. -/
def HasReference (text : List Char) : Prop :=
  ∃ front back, text = front ++ opening ++ back ∧ closing ∈ back

/-- What is in front of the first reference, its name and what is behind it. -/
def splitReference (text : List Char) : Option (List Char × List Char × List Char) :=
  match findReference text with
  | none => none
  | some (before, after) => (splitOnce closing after).map fun (name, rest) => (before, name, rest)

section Split
variable {text before name rest after : List Char} {c : Char}

theorem expandStep_eq (env : List Char → List Char) (text : List Char) :
    expandStep env text =
      (splitReference text).map fun (before, name, rest) => before ++ env name ++ rest := by
  unfold expandStep splitReference
  cases findReference text with
  | none => rfl
  | some found =>
    obtain ⟨before, after⟩ := found
    dsimp only
    rw [closing]
    cases splitOnce '\x7d' after with
    | none => rfl
    | some parts => rfl

theorem findReference_cons (h : ¬opening <+: c :: text) : findReference (c :: text) =
    (findReference text).map fun found => (c :: found.1, found.2) := by
  rw [findReference]
  intro rest hc htext
  exact h ⟨rest, by rw [hc, htext]; rfl⟩

/-- An opening stands at the head of a text only where it did in front of another one. -/
theorem not_opens_append (h : ¬opening <:+: c :: before) (after : List Char) :
    ¬opening <+: c :: (before ++ opening ++ after) := by
  intro hopens
  cases before with
  | nil =>
    obtain ⟨-, hrest⟩ := List.cons_prefix_cons.mp hopens
    obtain ⟨hmark, -⟩ := List.cons_prefix_cons.mp hrest
    exact absurd hmark (by decide)
  | cons d before =>
    have hprefix : opening <+: c :: d :: before :=
      List.prefix_of_prefix_length_le hopens ⟨opening ++ after, by simp⟩ (by simp [opening])
    exact h hprefix.isInfix

theorem findReference_append (h : ¬opening <:+: before) (after : List Char) :
    findReference (before ++ opening ++ after) = some (before, after) := by
  induction before with
  | nil => rfl
  | cons c before ih =>
    have hbefore : ¬opening <:+: before := fun hinfix => h (List.infix_cons hinfix)
    rw [List.cons_append, List.cons_append, findReference_cons (not_opens_append h after),
      ih hbefore]
    rfl

theorem findReference_none (h : ¬opening <:+: text) : findReference text = none := by
  induction text with
  | nil => rfl
  | cons c text ih =>
    rw [findReference_cons fun hopens => h hopens.isInfix,
      ih fun hinfix => h (List.infix_cons hinfix)]
    rfl

theorem exists_first_opening (h : opening <:+: text) :
    ∃ before after, text = before ++ opening ++ after ∧ ¬opening <:+: before := by
  induction text with
  | nil => exact absurd (List.infix_nil.mp h) (by decide)
  | cons c text ih =>
    by_cases hopens : opening <+: c :: text
    · obtain ⟨after, hafter⟩ := hopens
      exact ⟨[], after, hafter.symm, fun hinfix => absurd (List.infix_nil.mp hinfix) (by decide)⟩
    · obtain hhead | hinfix := List.infix_cons_iff.mp h
      · exact absurd hhead hopens
      · obtain ⟨before, after, rfl, hbefore⟩ := ih hinfix
        refine ⟨c :: before, after, rfl, fun hin => ?_⟩
        rcases List.infix_cons_iff.mp hin with hhead | htail
        · refine hopens (hhead.trans ⟨opening ++ after, ?_⟩)
          simp
        · exact hbefore htail

theorem splitOnce_append (h : c ∉ name) (rest : List Char) :
    splitOnce c (name ++ c :: rest) = some (name, rest) := by
  have hall : ∀ d ∈ name, decide (d ≠ c) = true :=
    fun d hd => decide_eq_true fun heq => h (heq ▸ hd)
  rw [splitOnce, List.dropWhile_append_of_pos hall, List.takeWhile_append_of_pos hall]
  simp

theorem splitOnce_none (h : c ∉ text) : splitOnce c text = none := by
  have hdrop : text.dropWhile (· ≠ c) = [] :=
    List.dropWhile_eq_nil_iff.mpr fun d hd => decide_eq_true fun heq => h (heq ▸ hd)
  rw [splitOnce, hdrop]

theorem splitReference_append (hbefore : ¬opening <:+: before) (hname : closing ∉ name)
    (rest : List Char) : splitReference (before ++ opening ++ (name ++ closing :: rest)) =
      some (before, name, rest) := by
  rw [splitReference, findReference_append hbefore]
  dsimp only
  rw [splitOnce_append hname]
  rfl

theorem splitReference_none (h : ¬HasReference text) : splitReference text = none := by
  by_cases hinfix : opening <:+: text
  · obtain ⟨before, after, rfl, hbefore⟩ := exists_first_opening hinfix
    have hclosing : closing ∉ after := fun hmem => h ⟨before, after, rfl, hmem⟩
    rw [splitReference, findReference_append hbefore]
    dsimp only
    rw [splitOnce_none hclosing]
    rfl
  · rw [splitReference, findReference_none hinfix]

theorem not_hasReference_append (hbefore : ¬opening <:+: before) (hafter : closing ∉ after) :
    ¬HasReference (before ++ after) := by
  rintro ⟨front, back, heq, hmem⟩
  rcases List.append_eq_append_iff.mp heq with ⟨more, -, rfl⟩ | ⟨more, rfl, -⟩
  · exact hafter (List.mem_append_right more hmem)
  · exact hbefore ⟨front, more, rfl⟩

/-- The first reference of a text that has one. -/
theorem HasReference.exists_split (h : HasReference text) : ∃ before name rest,
    text = before ++ opening ++ (name ++ closing :: rest) ∧ ¬opening <:+: before ∧
      closing ∉ name := by
  have hinfix : opening <:+: text := by
    obtain ⟨front, back, heq, -⟩ := h
    exact ⟨front, back, heq.symm⟩
  obtain ⟨before, after, rfl, hbefore⟩ := exists_first_opening hinfix
  have hmem : closing ∈ after := by
    by_contra hnot
    have hafter : closing ∉ opening ++ after := by
      rw [List.mem_append, not_or]
      exact ⟨by decide, hnot⟩
    rw [List.append_assoc] at h
    exact not_hasReference_append hbefore hafter h
  obtain ⟨name, rest, rfl, hname⟩ := List.eq_append_cons_of_mem hmem
  exact ⟨before, name, rest, rfl, hbefore, hname⟩

theorem splitReference_length (h : splitReference text = some (before, name, rest)) :
    rest.length < text.length := by
  by_cases href : HasReference text
  · obtain ⟨before', name', rest', rfl, hbefore, hname⟩ := href.exists_split
    rw [splitReference_append hbefore hname] at h
    obtain ⟨-, -, rfl⟩ := h
    simp only [List.length_append, List.length_cons]
    omega
  · rw [splitReference_none href] at h
    exact absurd h.symm (Option.some_ne_none _)

end Split

/-! ## One pass -/

/-- The references of a text, each with what stands between it and the one in front of it, and what
is left behind the last one. -/
def references (text : List Char) : List (List Char × List Char) × List Char :=
  match _h : splitReference text with
  | none => ([], text)
  | some (before, name, rest) => ((before, name) :: (references rest).1, (references rest).2)
termination_by text.length
decreasing_by all_goals exact splitReference_length _h

def expandAll (env : List Char → List Char) (refs : List (List Char × List Char)) : List Char :=
  refs.flatMap fun (before, name) => before ++ env name

/-- Each reference of the text is replaced by its value. -/
def expandOnce (env : List Char → List Char) (text : List Char) : List Char :=
  expandAll env (references text).1 ++ (references text).2

/-- Behind a text that has been put together so far, no opening stands in front of a reference, and
none in the whole result is closed again. -/
structure Undisturbed (env : List Char → List Char) (front text : List Char) : Prop where
  before (done more : List (List Char × List Char)) (before name : List Char) :
    (references text).1 = done ++ (before, name) :: more →
      ¬opening <:+: front ++ expandAll env done ++ before
  result : ¬HasReference (front ++ expandOnce env text)

section Pass
variable {env : List Char → List Char} {text front before name rest out more : List Char} {fuel : ℕ}

/-- Texts are made of references and of a rest without any. -/
theorem reference_induction {P : List Char → Prop}
    (last : ∀ text, ¬HasReference text → P text)
    (reference : ∀ before name rest, ¬opening <:+: before → closing ∉ name → P rest →
      P (before ++ opening ++ (name ++ closing :: rest))) (text : List Char) : P text := by
  induction hlength : text.length using Nat.strong_induction_on generalizing text with
  | _ n ih =>
    by_cases href : HasReference text
    · obtain ⟨before, name, rest, rfl, hbefore, hname⟩ := href.exists_split
      refine reference before name rest hbefore hname (ih rest.length ?_ rest rfl)
      rw [← hlength]
      simp only [List.length_append, List.length_cons]
      omega
    · exact last text href

theorem references_none (h : ¬HasReference text) : references text = ([], text) := by
  rw [references]
  split
  · rfl
  · rename_i hsplit
    rw [splitReference_none h] at hsplit
    exact absurd hsplit.symm (Option.some_ne_none _)

theorem references_append (hbefore : ¬opening <:+: before) (hname : closing ∉ name)
    (rest : List Char) : references (before ++ opening ++ (name ++ closing :: rest)) =
      ((before, name) :: (references rest).1, (references rest).2) := by
  have hfound := splitReference_append hbefore hname rest
  rw [references]
  split
  · rename_i hsplit
    rw [hfound] at hsplit
    exact absurd hsplit (Option.some_ne_none _)
  · rename_i hsplit
    rw [hfound] at hsplit
    obtain ⟨rfl, rfl, rfl⟩ := hsplit
    rfl

theorem expandOnce_none (h : ¬HasReference text) : expandOnce env text = text := by
  rw [expandOnce, references_none h]
  rfl

theorem expandOnce_append (hbefore : ¬opening <:+: before) (hname : closing ∉ name)
    (rest : List Char) : expandOnce env (before ++ opening ++ (name ++ closing :: rest)) =
      before ++ env name ++ expandOnce env rest := by
  rw [expandOnce, references_append hbefore hname, expandAll, List.flatMap_cons, List.append_assoc]
  rfl

theorem undisturbed_append (hbefore : ¬opening <:+: before) (hname : closing ∉ name)
    (rest : List Char) :
    Undisturbed env front (before ++ opening ++ (name ++ closing :: rest)) ↔
      ¬opening <:+: front ++ before ∧ Undisturbed env (front ++ before ++ env name) rest := by
  have hrefs := references_append hbefore hname rest
  have hresult : front ++ expandOnce env (before ++ opening ++ (name ++ closing :: rest)) =
      front ++ before ++ env name ++ expandOnce env rest := by
    rw [expandOnce_append hbefore hname]
    simp
  have hdone : ∀ done, front ++ expandAll env ((before, name) :: done) =
      front ++ before ++ env name ++ expandAll env done := by
    intro done
    simp [expandAll]
  constructor
  · intro h
    have hhead := h.before [] (references rest).1 before name (by rw [hrefs]; rfl)
    refine ⟨by simpa [expandAll] using hhead, fun done more b n hmore => ?_, ?_⟩
    · have hnext := h.before ((before, name) :: done) more b n (by rw [hrefs, hmore]; rfl)
      rwa [hdone] at hnext
    · rw [← hresult]
      exact h.result
  · rintro ⟨hhead, htail⟩
    refine ⟨fun done more b n hmore => ?_, ?_⟩
    · rw [hrefs] at hmore
      cases done with
      | nil =>
        obtain ⟨hpair, -⟩ := List.cons.inj hmore
        obtain ⟨rfl, rfl⟩ := Prod.mk.inj hpair
        simpa [expandAll] using hhead
      | cons first done =>
        obtain ⟨rfl, hrest⟩ := List.cons.inj hmore
        rw [hdone]
        exact htail.before done more b n hrest
    · rw [hresult]
      exact htail.result

/-! ## The loop -/

theorem expandEnv_none (h : ¬HasReference text) (fuel : ℕ) :
    expandEnv env (fuel + 1) text = some text := by
  rw [expandEnv, expandStep_eq, splitReference_none h]
  rfl

theorem expandEnv_append (hbefore : ¬opening <:+: before) (hname : closing ∉ name)
    (rest : List Char) (fuel : ℕ) :
    expandEnv env (fuel + 1) (before ++ opening ++ (name ++ closing :: rest)) =
      expandEnv env fuel (before ++ env name ++ rest) := by
  rw [expandEnv, expandStep_eq, splitReference_append hbefore hname]
  rfl

/-- The loop goes on while there is a reference. -/
theorem not_hasReference_of_expandEnv (h : expandEnv env fuel text = some out) :
    ¬HasReference out := by
  induction fuel generalizing text with
  | zero => exact absurd h.symm (Option.some_ne_none _)
  | succ fuel ih =>
    by_cases href : HasReference text
    · obtain ⟨before, name, rest, rfl, hbefore, hname⟩ := href.exists_split
      rw [expandEnv_append hbefore hname] at h
      exact ih h
    · rw [expandEnv_none href] at h
      exact Option.some.inj h ▸ href

theorem Undisturbed.expandEnv (h : Undisturbed env front text) :
    ∃ fuel, expandEnv env fuel (front ++ text) = some (front ++ expandOnce env text) := by
  induction text using reference_induction generalizing front with
  | last text href =>
    have hresult := h.result
    rw [expandOnce_none href] at hresult ⊢
    exact ⟨1, expandEnv_none hresult 0⟩
  | reference before name rest hbefore hname ih =>
    obtain ⟨hfront, hrest⟩ := (undisturbed_append hbefore hname rest).mp h
    obtain ⟨fuel, hfuel⟩ := ih hrest
    refine ⟨fuel + 1, ?_⟩
    have htext : front ++ (before ++ opening ++ (name ++ closing :: rest)) =
        front ++ before ++ opening ++ (name ++ closing :: rest) := by simp
    rw [htext, expandEnv_append hfront hname, hfuel, expandOnce_append hbefore hname]
    simp

/-- An opening in front of a reference takes its name, which then names nothing: what stands between
the two is lost with it. -/
theorem expandEnv_disturbed (henv : ∀ name, opening <:+: name → env name = [])
    (hopen : opening <:+: front ++ before) (hname : closing ∉ name)
    (hresult : ¬HasReference (front ++ before ++ more)) :
    ∃ kept lost, front ++ before = kept ++ opening ++ lost ∧ ¬opening <:+: kept ∧
      closing ∉ more ∧ ∀ fuel rest,
        expandEnv env (fuel + 1) (front ++ (before ++ opening ++ (name ++ closing :: rest))) =
          expandEnv env fuel (kept ++ rest) := by
  obtain ⟨kept, lost, heq, hkept⟩ := exists_first_opening hopen
  have hclosing : closing ∉ lost ++ more := by
    intro hmem
    refine hresult ⟨kept, lost ++ more, ?_, hmem⟩
    rw [heq, List.append_assoc]
  rw [List.mem_append, not_or] at hclosing
  refine ⟨kept, lost, heq, hkept, hclosing.2, fun fuel rest => ?_⟩
  have hlong : closing ∉ lost ++ opening ++ name := by
    rw [List.mem_append, List.mem_append, not_or, not_or]
    exact ⟨⟨hclosing.1, by decide⟩, hname⟩
  have htext : front ++ (before ++ opening ++ (name ++ closing :: rest)) =
      kept ++ opening ++ (lost ++ opening ++ name ++ closing :: rest) := by
    calc front ++ (before ++ opening ++ (name ++ closing :: rest))
        = front ++ before ++ (opening ++ (name ++ closing :: rest)) := by simp
      _ = kept ++ opening ++ (lost ++ opening ++ name ++ closing :: rest) := by
        rw [heq]
        simp
  have hvalue : env (lost ++ opening ++ name) = [] := henv _ ⟨lost, name, rfl⟩
  rw [htext, expandEnv_append hkept hlong, hvalue, List.append_nil]

theorem expandEnv_length (henv : ∀ name, opening <:+: name → env name = [])
    (hresult : ¬HasReference (front ++ expandOnce env text))
    (h : expandEnv env fuel (front ++ text) = some out) :
    out.length ≤ front.length + (expandOnce env text).length := by
  induction text using reference_induction generalizing front fuel with
  | last text href =>
    rw [expandOnce_none href] at hresult ⊢
    cases fuel with
    | zero => exact absurd h.symm (Option.some_ne_none _)
    | succ fuel =>
      rw [expandEnv_none hresult] at h
      rw [← Option.some.inj h, List.length_append]
  | reference before name rest hbefore hname ih =>
    rw [expandOnce_append hbefore hname] at hresult ⊢
    cases fuel with
    | zero => exact absurd h.symm (Option.some_ne_none _)
    | succ fuel =>
      by_cases hopen : opening <:+: front ++ before
      · have hsplit : ¬HasReference (front ++ before ++ (env name ++ expandOnce env rest)) := by
          simpa using hresult
        obtain ⟨kept, lost, heq, hkept, hmore, hstep⟩ :=
          expandEnv_disturbed henv hopen hname hsplit
        have hrest : closing ∉ expandOnce env rest :=
          fun hmem => hmore (List.mem_append_right _ hmem)
        rw [hstep] at h
        have hle := ih (not_hasReference_append hkept hrest) h
        have hlength := congrArg List.length heq
        simp only [List.length_append] at hlength ⊢
        omega
      · have htext : front ++ (before ++ opening ++ (name ++ closing :: rest)) =
            front ++ before ++ opening ++ (name ++ closing :: rest) := by simp
        rw [htext, expandEnv_append hopen hname] at h
        have hsplit : ¬HasReference (front ++ before ++ env name ++ expandOnce env rest) := by
          simpa using hresult
        have hle := ih hsplit h
        simp only [List.length_append] at hle ⊢
        omega

/-- Where the loop ends with the text of one pass, no value disturbed it: what is lost to an opening
in front of a reference is missing in the result. -/
theorem undisturbed_of_expandEnv (henv : ∀ name, opening <:+: name → env name = [])
    (h : expandEnv env fuel (front ++ text) = some (front ++ expandOnce env text)) :
    Undisturbed env front text := by
  have hresult := not_hasReference_of_expandEnv h
  induction text using reference_induction generalizing front fuel with
  | last text href =>
    refine ⟨fun done more before name hmore => ?_, hresult⟩
    rw [references_none href] at hmore
    exact absurd hmore.symm (List.append_ne_nil_of_right_ne_nil _ (List.cons_ne_nil _ _))
  | reference before name rest hbefore hname ih =>
    rw [undisturbed_append hbefore hname]
    rw [expandOnce_append hbefore hname] at h hresult
    cases fuel with
    | zero => exact absurd h.symm (Option.some_ne_none _)
    | succ fuel =>
      by_cases hopen : opening <:+: front ++ before
      · have hsplit : ¬HasReference (front ++ before ++ (env name ++ expandOnce env rest)) := by
          simpa using hresult
        obtain ⟨kept, lost, heq, hkept, hmore, hstep⟩ :=
          expandEnv_disturbed henv hopen hname hsplit
        have hrest : closing ∉ expandOnce env rest :=
          fun hmem => hmore (List.mem_append_right _ hmem)
        rw [hstep] at h
        have hle := expandEnv_length henv (not_hasReference_append hkept hrest) h
        have hlength := congrArg List.length heq
        have hopening : opening.length = 2 := rfl
        simp only [List.length_append] at hlength hle
        omega
      · have htext : front ++ (before ++ opening ++ (name ++ closing :: rest)) =
            front ++ before ++ opening ++ (name ++ closing :: rest) := by simp
        have hsplit : front ++ (before ++ env name ++ expandOnce env rest) =
            front ++ before ++ env name ++ expandOnce env rest := by simp
        rw [htext, expandEnv_append hopen hname, hsplit] at h
        rw [hsplit] at hresult
        exact ⟨hopen, ih h hresult⟩

/-- The loop ends with the text of one pass where no value disturbs it, and there alone when no
variable has an opening in its name. -/
theorem expandEnv_eq_expandOnce (env : List Char → List Char) (text : List Char) :
    (Undisturbed env [] text → ∃ fuel, expandEnv env fuel text = some (expandOnce env text)) ∧
      ((∀ name, opening <:+: name → env name = []) →
        (∃ fuel, expandEnv env fuel text = some (expandOnce env text)) →
          Undisturbed env [] text) := by
  constructor
  · intro h
    exact h.expandEnv
  · rintro henv ⟨fuel, h⟩
    exact undisturbed_of_expandEnv henv h

end Pass

/-! ## A variable that refers to itself -/

def tokenReference : List Char := "$\x7bTOKEN\x7d".toList

def tokenEnv (name : List Char) : List Char := if name = "TOKEN".toList then tokenReference else []

/-- Every round puts back what it has replaced. -/
theorem expandEnv_self : ¬∃ fuel out, expandEnv tokenEnv fuel tokenReference = some out := by
  rintro ⟨fuel, out, h⟩
  induction fuel with
  | zero => exact absurd h.symm (Option.some_ne_none _)
  | succ fuel ih =>
    have hnil : ¬opening <:+: [] := by decide
    have htext : tokenReference = [] ++ opening ++ ("TOKEN".toList ++ closing :: []) := by decide
    have hvalue : [] ++ tokenEnv "TOKEN".toList ++ [] = tokenReference := by decide
    rw [htext, expandEnv_append hnil (by decide), hvalue] at h
    exact ih h

end Oath.Fetch
