import Oath.Contracts.CompactRead

/-! The text of a value with line breaks and two blanks for each level. It is read as the compact
text is. -/

namespace Oath.Contracts.Value
open Registry Replace

def newline (level : ℕ) : List Char := '\n' :: List.replicate (2 * level) ' '

mutual

/-- The text that `to_vec_pretty` writes. There is nothing between the brackets of an empty array
or object. -/
def pretty : Value → ℕ → List Char
  | null, _ => "null".toList
  | bool value, _ => (if value then "true" else "false").toList
  | int value, _ => (toString value).toList
  | float text, _ => text.toList
  | string value, _ => quoted value
  | array values, level => '[' :: prettyItems true values level
  | object fields, level => '\x7b' :: prettyFields true fields level

def prettyItems : Bool → List Value → ℕ → List Char
  | first, [], level => (if first then [] else newline level) ++ [']']
  | first, value :: rest, level =>
    (if first then [] else [',']) ++
      (newline (level + 1) ++ (pretty value (level + 1) ++ prettyItems false rest level))

def prettyFields : Bool → List (String × Value) → ℕ → List Char
  | first, [], level => (if first then [] else newline level) ++ ['\x7d']
  | first, (key, value) :: rest, level =>
    (if first then [] else [',']) ++
      (newline (level + 1) ++
        (quoted key ++ ':' :: ' ' :: (pretty value (level + 1) ++ prettyFields false rest level)))

end

/-! ## White space -/

theorem skipSpace_newline (level : ℕ) (cs : List Char) :
    skipSpace (newline level ++ cs) = skipSpace cs := by
  have hspaces : ∀ c ∈ newline level, isSpace c := by
    intro c hc
    rcases List.mem_cons.mp hc with rfl | hblank
    · decide
    · rw [List.eq_of_mem_replicate hblank]
      decide
  exact List.dropWhile_append_of_pos hspaces

theorem stops_prettyItems (values : List Value) (level : ℕ) (rest : List Char) :
    Stops (prettyItems false values level ++ rest) := by
  intro c hc
  cases values with
  | nil =>
    obtain rfl := Option.some.inj hc
    decide
  | cons value values =>
    obtain rfl := Option.some.inj hc
    decide

theorem stops_prettyFields (fields : List (String × Value)) (level : ℕ) (rest : List Char) :
    Stops (prettyFields false fields level ++ rest) := by
  intro c hc
  cases fields with
  | nil =>
    obtain rfl := Option.some.inj hc
    decide
  | cons field fields =>
    obtain rfl := Option.some.inj hc
    decide

section Reader
variable {readFloat : List Char → Option String}

theorem readValue_of_skipSpace {cs cs' : List Char} (h : skipSpace cs = skipSpace cs')
    (fuel limit : ℕ) : readValue readFloat fuel limit cs = readValue readFloat fuel limit cs' := by
  cases fuel with
  | zero => rfl
  | succ fuel => rw [readValue, readValue, h]

theorem readItems_newline (level fuel limit : ℕ) (cs : List Char) :
    readItems readFloat fuel limit (newline level ++ cs) = readItems readFloat fuel limit cs := by
  cases fuel with
  | zero => rfl
  | succ fuel =>
    rw [readItems_cons, readItems_cons, readValue_of_skipSpace (skipSpace_newline level cs)]

theorem readMembers_newline (level fuel limit : ℕ) (acc : List (String × Value)) (cs : List Char) :
    readMembers readFloat fuel limit acc (newline level ++ cs) =
      readMembers readFloat fuel limit acc cs := by
  cases fuel with
  | zero => rfl
  | succ fuel => rw [readMembers, readMembers, skipSpace_newline]

theorem readValue_blank (fuel limit : ℕ) (cs : List Char) :
    readValue readFloat fuel limit (' ' :: cs) = readValue readFloat fuel limit cs := by
  have hskip : skipSpace (' ' :: cs) = skipSpace cs := rfl
  exact readValue_of_skipSpace hskip fuel limit

/-! ## Values -/

variable (readFloat) in
/-- With this fuel every value is read whose steps it pays. -/
def ReadsPretty (fuel : ℕ) : Prop :=
  ∀ value : Value, value.isMachineIntegral → value.steps ≤ fuel →
    ∀ (level limit : ℕ) (rest : List Char), Stops rest →
      readValue readFloat fuel limit (value.pretty level ++ rest) =
        within value.depth limit (value.ordered, rest)

theorem readItems_pretty (value : Value) (values : List Value)
    (hmachine : isMachineIntegral (array (value :: values))) {fuel : ℕ}
    (hreads : ∀ less < fuel, ReadsPretty readFloat less)
    (hfuel : stepsItems (value :: values) ≤ fuel) (level limit : ℕ) (rest : List Char) :
    readItems readFloat fuel limit
        (value.pretty (level + 1) ++ (prettyItems false values level ++ rest)) =
      within (depthItems (value :: values)) limit (orderedItems (value :: values), rest) := by
  induction values generalizing value fuel with
  | nil =>
    rw [stepsItems] at hfuel
    obtain ⟨fuel, rfl⟩ : ∃ more, fuel = more + 1 := ⟨fuel - 1, by omega⟩
    have hfirst := hreads fuel (Nat.lt_succ_self fuel) value (isMachineIntegral_cons.mp hmachine).1
      (by omega) (level + 1) limit _ (stops_prettyItems [] level rest)
    have hclose : prettyItems false [] level ++ rest = newline level ++ (']' :: rest) :=
      List.append_assoc (newline level) [']'] rest
    rw [readItems_cons, hfirst, depthItems]
    refine within_bind (b := ([], rest)) (g := fun items => (value.ordered :: items.1, items.2)) ?_
    dsimp only
    rw [hclose, skipSpace_newline]
    rfl
  | cons next values ih =>
    rw [stepsItems] at hfuel
    obtain ⟨fuel, rfl⟩ : ∃ more, fuel = more + 1 := ⟨fuel - 1, by omega⟩
    obtain ⟨hvalue, hvalues⟩ := isMachineIntegral_cons.mp hmachine
    have hfirst := hreads fuel (Nat.lt_succ_self fuel) value hvalue (by omega) (level + 1) limit _
      (stops_prettyItems (next :: values) level rest)
    have hnext := ih next hvalues (fun less hless => hreads less (Nat.lt_succ_of_lt hless))
      (by omega)
    have hcomma : prettyItems false (next :: values) level ++ rest =
        ',' :: (newline (level + 1) ++
          (next.pretty (level + 1) ++ (prettyItems false values level ++ rest))) := by
      simp only [prettyItems, List.append_assoc]
      rfl
    rw [readItems_cons, hfirst, depthItems]
    refine within_bind (b := (orderedItems (next :: values), rest))
      (g := fun items => (value.ordered :: items.1, items.2)) ?_
    rw [← hnext, ← readItems_newline (level + 1), hcomma]
    rfl

theorem readMembers_pretty (acc : List (String × Value)) (field : String × Value)
    (fields : List (String × Value)) (hmachine : isMachineIntegral (object (field :: fields)))
    {fuel : ℕ} (hreads : ∀ less < fuel, ReadsPretty readFloat less)
    (hfuel : stepsFields (field :: fields) ≤ fuel) (level limit : ℕ) (rest : List Char) :
    readMembers readFloat fuel limit acc (quoted field.1 ++ ':' :: ' ' ::
        (field.2.pretty (level + 1) ++ (prettyFields false fields level ++ rest))) =
      within (depthFields (field :: fields)) limit
        (insertFields (orderedFields (field :: fields)) acc, rest) := by
  induction fields generalizing acc field fuel with
  | nil =>
    rw [stepsFields] at hfuel
    obtain ⟨fuel, rfl⟩ : ∃ more, fuel = more + 1 := ⟨fuel - 1, by omega⟩
    have hfirst := hreads fuel (Nat.lt_succ_self fuel) field.2
      (isMachineIntegralFields_cons.mp hmachine).1 (by omega) (level + 1) limit _
      (stops_prettyFields [] level rest)
    have hclose : prettyFields false [] level ++ rest = newline level ++ ('\x7d' :: rest) :=
      List.append_assoc (newline level) ['\x7d'] rest
    rw [quoted_append, readMembers_cons (readString_escaped field.1 _), readValue_blank, hfirst,
      depthFields]
    refine within_bind (b := (insertField field.1 field.2.ordered acc, rest)) (g := id) ?_
    dsimp only
    rw [hclose, skipSpace_newline]
    rfl
  | cons next fields ih =>
    rw [stepsFields] at hfuel
    obtain ⟨fuel, rfl⟩ : ∃ more, fuel = more + 1 := ⟨fuel - 1, by omega⟩
    obtain ⟨hvalue, hfields⟩ := isMachineIntegralFields_cons.mp hmachine
    have hfirst := hreads fuel (Nat.lt_succ_self fuel) field.2 hvalue (by omega) (level + 1) limit _
      (stops_prettyFields (next :: fields) level rest)
    have hnext := ih (insertField field.1 field.2.ordered acc) next hfields
      (fun less hless => hreads less (Nat.lt_succ_of_lt hless)) (by omega)
    have hcomma : prettyFields false (next :: fields) level ++ rest =
        ',' :: (newline (level + 1) ++ (quoted next.1 ++ ':' :: ' ' ::
          (next.2.pretty (level + 1) ++ (prettyFields false fields level ++ rest)))) := by
      simp only [prettyFields, List.append_assoc, List.cons_append]
      rfl
    rw [quoted_append, readMembers_cons (readString_escaped field.1 _), readValue_blank, hfirst,
      depthFields]
    refine within_bind (b := (insertFields (orderedFields (field :: next :: fields)) acc, rest))
      (g := id) ?_
    rw [Option.map_id, hcomma]
    refine Eq.trans ?_ hnext
    rw [← readMembers_newline (level + 1)]
    rfl

/-- The text of a value does not start with white space or a bracket that closes. -/
theorem pretty_head {value : Value} (h : value.isMachineIntegral) (level : ℕ) :
    ∃ c cs, value.pretty level = c :: cs ∧ isSpace c = false ∧ c ≠ ']' := by
  cases value with
  | array values => exact ⟨'[', _, rfl, by decide, by decide⟩
  | object fields => exact ⟨'\x7b', _, rfl, by decide, by decide⟩
  | null => exact compact_head h
  | bool value => exact compact_head h
  | int value => exact compact_head h
  | float text => exact compact_head h
  | string value => exact compact_head h

theorem readValue_pretty_array {value : Value} {values others : List Value} {rest : List Char}
    {fuel level limit levels : ℕ} (hvalue : value.isMachineIntegral)
    (h : readItems readFloat fuel (limit - 1)
      (value.pretty (level + 1) ++ (prettyItems false values level ++ rest)) =
        within levels (limit - 1) (others, rest)) :
    readValue readFloat (fuel + 1) limit ((array (value :: values)).pretty level ++ rest) =
      within (1 + levels) limit (array others, rest) := by
  have htext : (array (value :: values)).pretty level ++ rest = '[' :: (newline (level + 1) ++
      (value.pretty (level + 1) ++ (prettyItems false values level ++ rest))) := by
    simp only [pretty, prettyItems, List.append_assoc, List.cons_append]
    rfl
  rw [htext, readValue_array, skipSpace_newline, readItems_newline]
  rcases Nat.eq_zero_or_pos limit with rfl | hpos
  · rw [if_pos rfl, within_of_lt (by omega)]
  · have hlimit : ¬ limit = 0 := by omega
    obtain ⟨c, cs, hhead, hspace, hclosing⟩ := pretty_head hvalue (level + 1)
    have hskip : (skipSpace (value.pretty (level + 1) ++
        (prettyItems false values level ++ rest))).head? = some c := by
      rw [hhead, List.cons_append, skipSpace_cons hspace]
      rfl
    rw [if_neg hlimit, hskip, if_neg fun heq => hclosing (Option.some.inj heq), h, map_within,
      within_succ hlimit]

theorem readValue_pretty_object {field : String × Value} {fields others : List (String × Value)}
    {rest : List Char} {fuel level limit levels : ℕ}
    (h : readMembers readFloat fuel (limit - 1) [] (quoted field.1 ++ ':' :: ' ' ::
      (field.2.pretty (level + 1) ++ (prettyFields false fields level ++ rest))) =
        within levels (limit - 1) (others, rest)) :
    readValue readFloat (fuel + 1) limit ((object (field :: fields)).pretty level ++ rest) =
      within (1 + levels) limit (object others, rest) := by
  have htext : (object (field :: fields)).pretty level ++ rest = '\x7b' :: (newline (level + 1) ++
      (quoted field.1 ++ ':' :: ' ' ::
        (field.2.pretty (level + 1) ++ (prettyFields false fields level ++ rest)))) := by
    simp only [pretty, prettyFields, List.append_assoc, List.cons_append]
    rfl
  rw [htext, readValue_object, skipSpace_newline, readMembers_newline]
  rcases Nat.eq_zero_or_pos limit with rfl | hpos
  · rw [if_pos rfl, within_of_lt (by omega)]
  · have hlimit : ¬ limit = 0 := by omega
    have hopen : (skipSpace (quoted field.1 ++ ':' :: ' ' :: (field.2.pretty (level + 1) ++
        (prettyFields false fields level ++ rest)))).head? ≠ some '\x7d' := by
      rw [quoted_eq, List.cons_append, skipSpace_cons (by decide), List.head?_cons]
      decide
    rw [if_neg hlimit, if_neg hopen, h, map_within, within_succ hlimit]

/-- Pretty text is read back unless it is opened too deep. -/
theorem readValue_pretty (fuel : ℕ) : ReadsPretty readFloat fuel := by
  induction fuel using Nat.strong_induction_on with
  | _ fuel hreads =>
    intro value hmachine hfuel level limit rest hrest
    have hpos := steps_pos value
    obtain ⟨fuel, rfl⟩ : ∃ more, fuel = more + 1 := ⟨fuel - 1, by omega⟩
    have hless : ∀ less < fuel, ReadsPretty readFloat less :=
      fun less hless => hreads less (Nat.lt_succ_of_lt hless)
    cases value with
    | null => exact (within_zero limit _).symm
    | bool value =>
      cases value with
      | false => exact (within_zero limit _).symm
      | true => exact (within_zero limit _).symm
    | int value => exact (readValue_int hmachine hrest fuel limit).trans (within_zero limit _).symm
    | float text => cases hmachine
    | string value =>
      exact (readValue_string value rest fuel limit).trans (within_zero limit _).symm
    | array values =>
      rw [steps] at hfuel
      cases values with
      | nil => exact readValue_array_nil rest fuel limit
      | cons value values =>
        exact readValue_pretty_array (isMachineIntegral_cons.mp hmachine).1
          (readItems_pretty value values hmachine hless (by omega) level _ rest)
    | object fields =>
      rw [steps] at hfuel
      cases fields with
      | nil => exact readValue_object_nil rest fuel limit
      | cons field fields =>
        exact readValue_pretty_object
          (readMembers_pretty [] field fields hmachine hless (by omega) level _ rest)

end Reader

/-! ## The whole text -/

mutual

/-- White space only makes the text longer. -/
theorem compact_le_pretty (value : Value) (level : ℕ) :
    (compact value).length ≤ (value.pretty level).length := by
  cases value with
  | array values => exact Nat.succ_le_succ (compactItems_le_pretty true values level)
  | object fields => exact Nat.succ_le_succ (compactFields_le_pretty true fields level)
  | null => exact le_rfl
  | bool value => exact le_rfl
  | int value => exact le_rfl
  | float text => exact le_rfl
  | string value => exact le_rfl

theorem compactItems_le_pretty (first : Bool) (values : List Value) (level : ℕ) :
    (compactItems first values).length ≤ (prettyItems first values level).length := by
  cases values with
  | nil =>
    rw [compactItems, prettyItems, List.length_append]
    exact Nat.le_add_left _ _
  | cons value values =>
    have hvalue := compact_le_pretty value (level + 1)
    have hvalues := compactItems_le_pretty false values level
    rw [compactItems, prettyItems]
    simp only [List.length_append]
    omega

theorem compactFields_le_pretty (first : Bool) (fields : List (String × Value)) (level : ℕ) :
    (compactFields first fields).length ≤ (prettyFields first fields level).length := by
  cases fields with
  | nil =>
    rw [compactFields, prettyFields, List.length_append]
    exact Nat.le_add_left _ _
  | cons field fields =>
    obtain ⟨key, value⟩ := field
    have hvalue := compact_le_pretty value (level + 1)
    have hfields := compactFields_le_pretty false fields level
    rw [compactFields, prettyFields]
    simp only [List.length_append, List.length_cons]
    omega

end

/-- What the pretty text of a value is read as, like the compact one. -/
theorem fromSlice_pretty {value : Value} (readFloat : List Char → Option String)
    (hmachine : value.isMachineIntegral) (limit : ℕ) :
    fromSlice readFloat limit (encode (value.pretty 0)) =
      within value.depth limit value.ordered := by
  have hfuel := (steps_le value hmachine).trans (compact_le_pretty value 0)
  have hstops : Stops [] := by
    intro c hc
    cases hc
  exact fromSlice_encode readFloat
    (readValue_pretty _ value hmachine (Nat.le_succ_of_le hfuel) 0 limit [] hstops)

end Oath.Contracts.Value
