import Mathlib.Data.List.TakeWhile
import Oath.Transparency.Entries

/-! An entry that is appended to a file of whole lines is read after the others. -/

namespace Oath.Transparency
open Contracts Contracts.Value Registry Replace

/-! ## Text without control characters -/

def Visible (text : List Char) : Prop := ∀ c ∈ text, 32 ≤ c.toNat

instance (text : List Char) : Decidable (Visible text) :=
  List.decidableBAll (fun c : Char => 32 ≤ c.toNat) text

theorem Visible.append {text more : List Char} (h : Visible text) (h' : Visible more) :
    Visible (text ++ more) := by
  intro c hc
  rcases List.mem_append.mp hc with hfirst | hsecond
  · exact h c hfirst
  · exact h' c hsecond

theorem Visible.cons {c : Char} {text : List Char} (hc : 32 ≤ c.toNat) (h : Visible text) :
    Visible (c :: text) := List.forall_mem_cons.mpr ⟨hc, h⟩

theorem visible_escape (c : Char) : Visible (escape c) := by
  have hdigits : ∀ n < 16, 32 ≤ (Nat.digitChar n).toNat := by decide
  unfold escape
  split_ifs with h1 h2 h3 h4 h5 h6 h7 h8
  · decide
  · decide
  · decide
  · decide
  · decide
  · decide
  · decide
  · intro d hd
    simp only [List.mem_cons, List.not_mem_nil, or_false] at hd
    rcases hd with rfl | rfl | rfl | rfl | rfl | rfl
    · decide
    · decide
    · decide
    · decide
    · exact hdigits _ (by omega)
    · exact hdigits _ (by omega)
  · intro d hd
    rw [List.mem_singleton.mp hd]
    omega

theorem visible_quoted (text : String) : Visible (quoted text) := by
  rw [quoted_eq]
  refine Visible.cons (by decide) (Visible.append ?_ ?_)
  · intro c hc
    obtain ⟨d, -, hd⟩ := List.mem_flatMap.mp hc
    exact visible_escape d c hd
  · exact Visible.cons (by decide) fun c hc => absurd hc List.not_mem_nil

theorem visible_int (n : ℤ) : Visible (toString n).toList := by
  intro c hc
  have hnumeral := isNumeral_toString n c hc
  rw [isNumeral, Bool.or_eq_true, decide_eq_true_eq] at hnumeral
  rcases hnumeral with hdigit | hminus
  · have hrange := Char.isDigit_iff_toNat.mp hdigit
    exact le_trans (by decide) hrange.1
  · rw [hminus]
    decide

mutual

/-- Compact text has no control characters: those in strings are escaped. -/
theorem visible_compact (value : Value) (h : value.isMachineIntegral) :
    Visible (compact value) := by
  cases value with
  | null => decide
  | bool value =>
    cases value with
    | false => decide
    | true => decide
  | int value => exact visible_int value
  | float text => cases h
  | string value => exact visible_quoted value
  | array values => exact Visible.cons (by decide) (visible_compactItems true values h)
  | object fields => exact Visible.cons (by decide) (visible_compactFields true fields h)

theorem visible_compactItems (first : Bool) (values : List Value)
    (h : isMachineIntegral (array values)) : Visible (compactItems first values) := by
  cases values with
  | nil => exact Visible.cons (by decide) fun c hc => absurd hc List.not_mem_nil
  | cons value values =>
    obtain ⟨hvalue, hvalues⟩ := isMachineIntegral_cons.mp h
    rw [compactItems]
    refine Visible.append ?_ ((visible_compact value hvalue).append
      (visible_compactItems false values hvalues))
    cases first <;> decide

theorem visible_compactFields (first : Bool) (fields : List (String × Value))
    (h : isMachineIntegral (object fields)) : Visible (compactFields first fields) := by
  cases fields with
  | nil => exact Visible.cons (by decide) fun c hc => absurd hc List.not_mem_nil
  | cons field fields =>
    obtain ⟨key, value⟩ := field
    obtain ⟨hvalue, hfields⟩ := isMachineIntegralFields_cons.mp h
    rw [compactFields]
    refine Visible.append ?_ ((visible_quoted key).append (Visible.cons (by decide)
      ((visible_compact value hvalue).append (visible_compactFields false fields hfields))))
    cases first <;> decide

end

/-! ## Lines -/

/-- What comes after the end of a line is read on its own. -/
theorem linesFrom_append (front text rest : List Char) :
    linesFrom front (text ++ '\n' :: rest) =
      linesFrom front (text ++ ['\n']) ++ linesFrom [] rest := by
  induction text generalizing front with
  | nil => simp [linesFrom]
  | cons c text ih =>
    rw [List.cons_append, List.cons_append, linesFrom, linesFrom]
    split_ifs
    · rw [ih, List.cons_append]
    · exact ih _

theorem linesFrom_line {text : List Char} (h : '\n' ∉ text) (front : List Char) :
    linesFrom front (text ++ ['\n']) = [stripReturn (front ++ text)] := by
  induction text generalizing front with
  | nil => simp [linesFrom]
  | cons c text ih =>
    rw [List.mem_cons, not_or] at h
    rw [List.cons_append, linesFrom, if_neg (Ne.symm h.1), ih h.2, List.append_assoc,
      List.singleton_append]

theorem Visible.newline_notMem {text : List Char} (h : Visible text) : '\n' ∉ text :=
  fun hmem => absurd (h _ hmem) (by decide)

theorem stripReturn_visible (front : List Char) {text : List Char} (h : Visible text)
    (hne : text ≠ []) : stripReturn (front ++ text) = front ++ text := by
  refine if_neg fun hlast => ?_
  rw [List.getLast?_append_of_ne_nil front hne] at hlast
  exact absurd (h _ (List.mem_of_getLast? hlast)) (by decide)

/-- A file in which every line has its end. -/
def Whole (content : String) : Prop := content = "" ∨ ∃ text, content.toList = text ++ ['\n']

theorem toList_whole {front : String} (h : Whole front) (rest : List Char) :
    linesFrom [] (front.toList ++ rest) = linesFrom [] front.toList ++ linesFrom [] rest := by
  rcases h with hempty | ⟨text, hfront⟩
  · rw [hempty]
    rfl
  · rw [hfront, List.append_assoc, List.singleton_append, linesFrom_append]

/-- A line that is appended stands behind what is on the last line already. -/
theorem lines_append {front line : String} {tail : List Char} (h : Whole front)
    (htail : '\n' ∉ tail) (hline : Visible line.toList) (hne : line.toList ≠ []) :
    lines (front ++ String.ofList tail ++ (line ++ "\n")) =
      lines front ++ [String.ofList (tail ++ line.toList)] := by
  have hnone : '\n' ∉ tail ++ line.toList := by
    rw [List.mem_append, not_or]
    exact ⟨htail, hline.newline_notMem⟩
  have hlast : linesFrom [] (tail ++ line.toList ++ ['\n']) = [tail ++ line.toList] := by
    rw [linesFrom_line hnone, List.nil_append, stripReturn_visible tail hline hne]
  have htext : (front ++ String.ofList tail ++ (line ++ "\n")).toList =
      front.toList ++ (tail ++ line.toList ++ ['\n']) := by
    rw [String.toList_append, String.toList_append, String.toList_append, String.toList_ofList,
      List.append_assoc, List.append_assoc]
    rfl
  rw [lines, htext, toList_whole h, hlast, List.map_append, List.map_singleton]
  rfl

theorem Whole.append {content : String} (line : String) : Whole (content ++ (line ++ "\n")) := by
  refine Or.inr ⟨content.toList ++ line.toList, ?_⟩
  rw [String.toList_append, String.toList_append, List.append_assoc]
  rfl

theorem trim_ne_empty {text : String} {c : Char} (hmem : c ∈ text.toList)
    (hc : Core.isWhitespace c = false) : (Core.trim text).isEmpty = false := by
  by_contra hempty
  rw [Bool.not_eq_false, String.isEmpty_iff, Core.trim, String.ofList_eq_empty_iff,
    List.reverse_eq_nil_iff, List.dropWhile_eq_nil_iff] at hempty
  have hkept : c ∈ text.toList.dropWhile Core.isWhitespace := by
    have hsplit := List.takeWhile_append_dropWhile (p := Core.isWhitespace) (l := text.toList)
    rw [← hsplit, List.mem_append] at hmem
    rcases hmem with hfront | hrest
    · have hspace := List.mem_takeWhile_imp hfront
      rw [hc] at hspace
      cases hspace
    · exact hrest
  have hspace := hempty c (List.mem_reverse.mpr hkept)
  rw [hc] at hspace
  cases hspace

/-! ## Entries -/

theorem TransparencyEntry.line_toList (e : TransparencyEntry) :
    e.line.toList = compact e.toValue := String.toList_ofList

theorem TransparencyEntry.visible_line (e : TransparencyEntry) : Visible e.line.toList := by
  rw [line_toList]
  exact visible_compact e.toValue e.isMachineIntegral_toValue

/-- A reader that takes the lines that are written. -/
def Reads (fromStr : String → Option TransparencyEntry) : Prop :=
  ∀ entry : TransparencyEntry, fromStr entry.line = some entry

section Append
variable {fromStr : String → Option TransparencyEntry}

/-- The entry of a line that is appended, when it can be read behind what is there. -/
theorem entriesOf_append {front : String} {tail : List Char} (h : Whole front)
    (htail : '\n' ∉ tail) (entry : TransparencyEntry) :
    entriesOf fromStr (front ++ String.ofList tail ++ (entry.line ++ "\n")) =
      entriesOf fromStr front ++ (fromStr (String.ofList (tail ++ entry.line.toList))).toList := by
  have hopen : '\x7b' ∈ entry.line.toList := by
    rw [entry.line_toList]
    exact List.mem_cons_self
  have hblank : (Core.trim (String.ofList (tail ++ entry.line.toList))).isEmpty = false := by
    refine trim_ne_empty (c := '\x7b') ?_ (by decide)
    rw [String.toList_ofList]
    exact List.mem_append_right tail hopen
  rw [entriesOf, lines_append h htail entry.visible_line (List.ne_nil_of_mem hopen),
    List.filter_append, List.filterMap_append, List.filter_singleton, hblank]
  change entriesOf fromStr front ++ List.filterMap fromStr
    [String.ofList (tail ++ entry.line.toList)] = _
  cases hread : fromStr (String.ofList (tail ++ entry.line.toList)) with
  | none => rw [List.filterMap_cons_none hread, List.filterMap_nil, Option.toList_none]
  | some other => rw [List.filterMap_cons_some hread, List.filterMap_nil, Option.toList_some]

/-- A log whose every line has its end. -/
def WholeFile (file : Option (List UInt8)) : Prop :=
  ∃ content, file.getD [] = asBytes content ∧ Whole content

theorem readAll_whole {file : Option (List UInt8)} {content : String}
    (h : file.getD [] = asBytes content) :
    readAll fromStr file = .ok (entriesOf fromStr content) := by
  cases file with
  | none =>
    have hempty : content = "" := asBytes_injective h.symm
    rw [hempty]
    rfl
  | some bytes =>
    have hbytes : bytes = asBytes content := h
    rw [hbytes, readAll, readToString_asBytes]
    rfl

theorem WholeFile.readAll_appendEntry (hreads : Reads fromStr) {file : Option (List UInt8)}
    (h : WholeFile file) (entry : TransparencyEntry) :
    WholeFile (some (appendEntry entry file)) ∧ ∃ entries,
      readAll fromStr file = .ok entries ∧
      readAll fromStr (some (appendEntry entry file)) = .ok (entries ++ [entry]) := by
  obtain ⟨content, hbytes, hwhole⟩ := h
  have happend : (some (appendEntry entry file)).getD [] =
      asBytes (content ++ (entry.line ++ "\n")) := by
    rw [Option.getD_some, appendEntry, hbytes, ← asBytes_append]
  have hentries := @entriesOf_append fromStr content [] hwhole List.not_mem_nil entry
  rw [String.ofList_nil, String.append_empty, List.nil_append, String.ofList_toList,
    hreads entry] at hentries
  refine ⟨⟨_, happend, Whole.append entry.line⟩, entriesOf fromStr content,
    readAll_whole hbytes, ?_⟩
  rw [readAll_whole happend, hentries]
  rfl

end Append

end Oath.Transparency
