import Oath.Cli.MinimumAge
import Oath.Library.Gregorian
import Oath.Resolve.LockfileRoundTrip

/-! How long ago a timestamp was. The text is cut at fixed bytes and the numbers in it are taken as
they are, so a text that is no timestamp can end the program. -/

namespace Oath.Cli
open Core Resolve

/-! ## Slices -/

/-- What is left after the first bytes, none when the last of the bytes is inside a character. -/
def sliceFrom : ℕ → List Char → Option (List Char)
  | 0, text => some text
  | _ + 1, [] => none
  | bytes + 1, c :: rest =>
    if c.utf8Size ≤ bytes + 1 then sliceFrom (bytes + 1 - c.utf8Size) rest else none

/-- `&s[start..stop]`, none when an end of it is not on a character boundary. -/
def slice (text : List Char) (start stop : ℕ) : Option (List Char) :=
  (sliceFrom start text).bind (sliceTo (stop - start))

/-! ## Arithmetic -/

inductive Panic
  | charBoundary
  | overflow
deriving DecidableEq, Repr

/-- A debug build checks its 64-bit arithmetic, a release build wraps around. -/
inductive Profile
  | debug
  | release
deriving DecidableEq, Repr

namespace Profile

def wrapped (profile : Profile) (value : ℕ) : Except Panic ℕ :=
  match profile with
  | .debug => .error .overflow
  | .release => .ok (value % 2 ^ 64)

def add (profile : Profile) (a b : ℕ) : Except Panic ℕ :=
  if a + b < 2 ^ 64 then .ok (a + b) else profile.wrapped (a + b)

def sub (profile : Profile) (a b : ℕ) : Except Panic ℕ :=
  if b ≤ a then .ok (a - b) else profile.wrapped (a + 2 ^ 64 - b)

def mul (profile : Profile) (a b : ℕ) : Except Panic ℕ :=
  if a * b < 2 ^ 64 then .ok (a * b) else profile.wrapped (a * b)

/-- `if c { a += b }` -/
def addIf (profile : Profile) (c : Prop) [Decidable c] (a b : ℕ) : Except Panic ℕ :=
  if c then profile.add a b else .ok a

end Profile

/-! ## The timestamp -/

/-- The bytes of the year, month, day, hour, minute and second. -/
def isoFields : List (ℕ × ℕ) := [(0, 4), (5, 7), (8, 10), (11, 13), (14, 16), (17, 19)]

/-- The numbers at fixed bytes, up to the first that is none. -/
def readFields (text : List Char) : List (ℕ × ℕ) → Except Panic (Option (List ℕ))
  | [] => .ok (some [])
  | (start, stop) :: rest =>
    match slice text start stop with
    | none => .error .charBoundary
    | some field => match parseU64 (String.ofList field) with
      | none => .ok none
      | some number => do
        let numbers ← readFields text rest
        .ok (numbers.map (number.toNat :: ·))

def daysBeforeMonth : List ℕ := [0, 31, 59, 90, 120, 151, 181, 212, 243, 273, 304, 334]

section Publish
variable (profile : Profile)

/-- Days since 1970, with the leap days before the year counted every four years. -/
def publishDays (year month day : ℕ) : Except Panic ℕ := do
  let years ← profile.sub year 1970
  let yearDays ← profile.mul years 365
  let leapYears ← profile.sub year 1969
  let days ← profile.add yearDays (leapYears / 4)
  let days ← profile.addIf (1 ≤ month ∧ month ≤ 12) days (daysBeforeMonth.getD (month - 1) 0)
  let days ← profile.addIf
    (2 < month ∧ year % 4 = 0 ∧ (year % 100 ≠ 0 ∨ year % 400 = 0)) days 1
  let before ← profile.sub day 1
  profile.add days before

/-- How long before a time, in seconds. -/
def ageAt (publish now : ℕ) : ℕ := if publish < now then now - publish else 0

def publishTs (year month day hour min sec : ℕ) : Except Panic ℕ := do
  let days ← publishDays profile year month day
  let daySecs ← profile.mul days 86400
  let hourSecs ← profile.mul hour 3600
  let secs ← profile.add daySecs hourSecs
  let minSecs ← profile.mul min 60
  let secs ← profile.add secs minSecs
  profile.add secs sec

/-- The age of six numbers at a time, which is none when the clock stands before 1970. -/
def ageOf (now : Option ℕ) : Option (List ℕ) → Except Panic (Option ℕ)
  | some [year, month, day, hour, min, sec] => do
    let publish ← publishTs profile year month day hour min sec
    .ok (now.map (ageAt publish))
  | _ => .ok none

def parseIsoAgeSecs (now : Option ℕ) (iso : String) : Except Panic (Option ℕ) :=
  let text := (trim iso).toList
  if byteLength text < 19 then .ok none
  else do
    let numbers ← readFields text isoFields
    ageOf profile now numbers

end Publish

/-! ## Texts without a fault -/

/-- The fields lie between characters, up to the first that is no number. -/
def FieldsFit (text : List Char) : List (ℕ × ℕ) → Prop
  | [] => True
  | (start, stop) :: rest => ∃ field, slice text start stop = some field ∧
      (parseU64 (String.ofList field) = none ∨ FieldsFit text rest)

/-- The number at fixed bytes. -/
def numberAt (text : List Char) (field : ℕ × ℕ) : Option ℕ :=
  ((slice text field.1 field.2).bind fun cs => parseU64 (String.ofList cs)).map UInt64.toNat

/-- A text is short, or its fields lie between characters and, where all of them are numbers, the
year is not before 1970 and the day is not zero. -/
def Fits (iso : String) : Prop :=
  let text := (trim iso).toList
  byteLength text < 19 ∨ FieldsFit text isoFields ∧
    ((∀ field ∈ isoFields, numberAt text field ≠ none) →
      (∀ year, numberAt text (0, 4) = some year → 1970 ≤ year) ∧
        ∀ day, numberAt text (8, 10) = some day → 1 ≤ day)

section Read
variable {text : List Char} {fields : List (ℕ × ℕ)}

theorem readFields_fit : (∃ r, readFields text fields = .ok r) ↔ FieldsFit text fields := by
  induction fields with
  | nil => exact ⟨fun _ => trivial, fun _ => ⟨_, rfl⟩⟩
  | cons field rest ih =>
    obtain ⟨start, stop⟩ := field
    unfold readFields FieldsFit
    cases hslice : slice text start stop with
    | none =>
      refine ⟨fun ⟨_, h⟩ => ?_, fun ⟨_, h, _⟩ => ?_⟩
      · cases h
      · cases h
    | some piece =>
      simp only [Option.some_inj, exists_eq_left']
      cases hnumber : parseU64 (String.ofList piece) with
      | none => exact ⟨fun _ => Or.inl rfl, fun _ => ⟨none, rfl⟩⟩
      | some number =>
        have hsome : ¬some number = none := Option.some_ne_none number
        rw [or_iff_right hsome, ← ih]
        constructor
        · rintro ⟨r, h⟩
          obtain ⟨numbers, hnumbers, -⟩ := Except.bind_eq_ok.mp h
          exact ⟨numbers, hnumbers⟩
        · rintro ⟨numbers, hnumbers⟩
          exact ⟨_, Except.bind_eq_ok.mpr ⟨numbers, hnumbers, rfl⟩⟩

/-- All of the fields are numbers. -/
theorem readFields_some {numbers : List ℕ} : readFields text fields = .ok (some numbers) ↔
    List.Forall₂ (fun field number => numberAt text field = some number) fields numbers := by
  induction fields generalizing numbers with
  | nil =>
    rw [List.forall₂_nil_left_iff]
    exact ⟨fun h => (Option.some.inj (Except.ok.inj h)).symm, fun h => by rw [h]; rfl⟩
  | cons field rest ih =>
    obtain ⟨start, stop⟩ := field
    rw [List.forall₂_cons_left_iff]
    unfold readFields numberAt
    dsimp only
    cases slice text start stop with
    | none =>
      refine ⟨fun h => ?_, fun ⟨_, _, h, _⟩ => ?_⟩
      · cases h
      · cases h
    | some piece =>
      rw [Option.bind_some]
      dsimp only
      cases parseU64 (String.ofList piece) with
      | none =>
        refine ⟨fun h => ?_, fun ⟨_, _, h, _⟩ => ?_⟩
        · cases Except.ok.inj h
        · cases h
      | some first =>
        rw [Option.map_some]
        constructor
        · intro h
          obtain ⟨more, hmore, h1⟩ := Except.bind_eq_ok.mp h
          obtain ⟨rest', rfl, rfl⟩ := Option.map_eq_some_iff.mp (Except.ok.inj h1)
          exact ⟨first.toNat, rest', rfl, ih.mp hmore, rfl⟩
        · rintro ⟨number, rest', hfirst, hrest, rfl⟩
          obtain rfl := Option.some.inj hfirst
          exact Except.bind_eq_ok.mpr ⟨some rest', ih.mpr hrest, rfl⟩

theorem exists_numbers : (∃ numbers, readFields text fields = .ok (some numbers)) ↔
    ∀ field ∈ fields, numberAt text field ≠ none := by
  simp only [readFields_some]
  constructor
  · rintro ⟨numbers, hall⟩
    induction hall with
    | nil => exact fun _ hmem => absurd hmem List.not_mem_nil
    | cons hfirst _ ih =>
      refine List.forall_mem_cons.mpr ⟨?_, ih⟩
      rw [hfirst]
      exact Option.some_ne_none _
  · intro hall
    refine ⟨fields.map fun field => (numberAt text field).getD 0, ?_⟩
    rw [List.forall₂_map_right_iff, List.forall₂_same]
    intro field hmem
    obtain ⟨number, hnumber⟩ := Option.ne_none_iff_exists'.mp (hall field hmem)
    rw [hnumber, Option.getD_some]

end Read

/-! ## Numbers of few digits -/

theorem length_sliceTo {bytes : ℕ} {text piece : List Char} (h : sliceTo bytes text = some piece) :
    piece.length ≤ bytes := by
  induction bytes using Nat.strong_induction_on generalizing text piece with
  | _ bytes ih =>
    cases bytes with
    | zero =>
      rw [sliceTo] at h
      rw [← Option.some.inj h]
      exact le_refl 0
    | succ bytes =>
      cases text with
      | nil => cases h
      | cons c rest =>
        have hpos := c.utf8Size_pos
        rw [sliceTo] at h
        split_ifs at h with hle
        obtain ⟨more, hmore, rfl⟩ := Option.map_eq_some_iff.mp h
        have hlength := ih _ (by omega) hmore
        rw [List.length_cons]
        omega

theorem ofDigitChars_lt {digits : List Char} (h : digits.all Char.isDigit) (start : ℕ) :
    Nat.ofDigitChars 10 digits start < (start + 1) * 10 ^ digits.length := by
  induction digits generalizing start with
  | nil => rw [Nat.ofDigitChars_nil, List.length_nil]; omega
  | cons c rest ih =>
    rw [List.all_cons, Bool.and_eq_true] at h
    have hdigit : c.toNat - '0'.toNat ≤ 9 := by
      have hbounds := h.1
      simp only [Char.isDigit, Bool.and_eq_true, decide_eq_true_eq, UInt32.le_iff_toNat_le] at hbounds
      have hchar : c.toNat = c.val.toNat := rfl
      have hnine : '9'.val.toNat = 57 := rfl
      have hzero : '0'.toNat = 48 := rfl
      omega
    rw [Nat.ofDigitChars_cons, List.length_cons, pow_succ]
    calc Nat.ofDigitChars 10 rest (10 * start + (c.toNat - '0'.toNat))
        < (10 * start + (c.toNat - '0'.toNat) + 1) * 10 ^ rest.length := ih h.2 _
      _ ≤ (start + 1) * 10 * 10 ^ rest.length := Nat.mul_le_mul_right _ (by omega)
      _ = (start + 1) * (10 ^ rest.length * 10) := by ring

theorem parseU64_lt {cs : List Char} {n : UInt64} (h : parseU64 (String.ofList cs) = some n) :
    n.toNat < 10 ^ cs.length := by
  unfold parseU64 at h
  rw [String.toList_ofList] at h
  dsimp only at h
  split_ifs at h with hplus hbad hfits hbad hfits
  · obtain rfl := Option.some.inj h
    have hdigits : cs.tail.all Char.isDigit := by
      by_contra hno
      exact hbad (Or.inr hno)
    have hlt := ofDigitChars_lt hdigits 0
    have hle : 10 ^ cs.tail.length ≤ 10 ^ cs.length :=
      Nat.pow_le_pow_right (by decide) (List.length_tail.trans_le (Nat.sub_le _ _))
    rw [UInt64.toNat_ofNat', Nat.mod_eq_of_lt hfits]
    omega
  · obtain rfl := Option.some.inj h
    have hdigits : cs.all Char.isDigit := by
      by_contra hno
      exact hbad (Or.inr hno)
    have hlt := ofDigitChars_lt hdigits 0
    rw [UInt64.toNat_ofNat', Nat.mod_eq_of_lt hfits]
    omega

theorem numberAt_lt {text : List Char} {start stop number : ℕ}
    (h : numberAt text (start, stop) = some number) : number < 10 ^ (stop - start) := by
  obtain ⟨n, hn, rfl⟩ := Option.map_eq_some_iff.mp h
  obtain ⟨cs, hslice, hparse⟩ := Option.bind_eq_some_iff.mp hn
  obtain ⟨rest, -, hpiece⟩ := Option.bind_eq_some_iff.mp hslice
  exact (parseU64_lt hparse).trans_le (Nat.pow_le_pow_right (by decide) (length_sliceTo hpiece))

/-! ## The seconds of a date -/

namespace Profile
variable (profile : Profile) {a b : ℕ}

theorem add_of_lt (h : a + b < 2 ^ 64) : profile.add a b = .ok (a + b) := if_pos h

theorem sub_of_le (h : b ≤ a) : profile.sub a b = .ok (a - b) := if_pos h

theorem mul_of_lt (h : a * b < 2 ^ 64) : profile.mul a b = .ok (a * b) := if_pos h

theorem le_of_sub_debug {difference : ℕ} (h : debug.sub a b = .ok difference) : b ≤ a := by
  by_contra hlt
  rw [sub, if_neg hlt] at h
  cases h

end Profile

open Gregorian

/-- The days that are counted when nothing wraps around. -/
def countedDays (year month day : ℕ) : ℕ :=
  (year - 1970) * 365 + (year - 1969) / 4 +
    (if 1 ≤ month ∧ month ≤ 12 then daysBeforeMonth.getD (month - 1) 0 else 0) +
    (if 2 < month ∧ IsLeap year then 1 else 0) + (day - 1)

theorem daysBeforeMonth_le (index : ℕ) : daysBeforeMonth.getD index 0 ≤ 334 := by
  by_cases h : index < 12
  · interval_cases index <;> decide
  · rw [List.getD_eq_getElem?_getD, List.getElem?_eq_none (Nat.not_lt.mp h)]
    exact Nat.zero_le _

theorem countedDays_lt {year month day : ℕ} (hyear : year < 10000) (hday : day < 100) :
    countedDays year month day < 3000000 := by
  have hmonths := daysBeforeMonth_le (month - 1)
  unfold countedDays
  split_ifs <;> omega

theorem publishDays_eq (profile : Profile) {year month day : ℕ} (hyear : 1970 ≤ year)
    (hyear' : year < 10000) (hday : 1 ≤ day) (hday' : day < 100) :
    publishDays profile year month day = .ok (countedDays year month day) := by
  have hmonths := daysBeforeMonth_le (month - 1)
  have hyears := profile.sub_of_le hyear
  have hyearDays : profile.mul (year - 1970) 365 = .ok ((year - 1970) * 365) :=
    profile.mul_of_lt (by omega)
  have hleap : profile.sub year 1969 = .ok (year - 1969) := profile.sub_of_le (by omega)
  have hbefore := profile.sub_of_le hday
  unfold publishDays countedDays IsLeap
  rw [hyears, hleap, hbefore]
  simp only [bind, Except.bind, hyearDays]
  have hadd : ∀ {a b : ℕ}, a < 3700000 → b < 3700000 → profile.add a b = .ok (a + b) :=
    fun ha hb => profile.add_of_lt (by omega)
  unfold Profile.addIf
  by_cases hmonth : 1 ≤ month ∧ month ≤ 12
  · by_cases hday29 : 2 < month ∧ year % 4 = 0 ∧ (year % 100 ≠ 0 ∨ year % 400 = 0)
    · simp (disch := omega) only [hadd, if_pos hmonth, if_pos hday29]
    · simp (disch := omega) only [hadd, if_pos hmonth, if_neg hday29, Nat.add_zero]
  · by_cases hday29 : 2 < month ∧ year % 4 = 0 ∧ (year % 100 ≠ 0 ∨ year % 400 = 0)
    · simp (disch := omega) only [hadd, if_neg hmonth, if_pos hday29, Nat.add_zero]
    · simp (disch := omega) only [hadd, if_neg hmonth, if_neg hday29, Nat.add_zero]

def countedSecs (year month day hour min sec : ℕ) : ℕ :=
  countedDays year month day * 86400 + hour * 3600 + min * 60 + sec

theorem publishTs_eq (profile : Profile) {year month day hour min sec : ℕ} (hyear : 1970 ≤ year)
    (hyear' : year < 10000) (hday : 1 ≤ day) (hday' : day < 100) (hhour : hour < 100)
    (hmin : min < 100) (hsec : sec < 100) : publishTs profile year month day hour min sec =
      .ok (countedSecs year month day hour min sec) := by
  have hdays := @countedDays_lt year month day hyear' hday'
  have hadd : ∀ {a b : ℕ}, a < 300000000000 → b < 300000000000 → profile.add a b = .ok (a + b) :=
    fun ha hb => profile.add_of_lt (by omega)
  have hmul : ∀ {a b : ℕ}, a * b < 300000000000 → profile.mul a b = .ok (a * b) :=
    fun hab => profile.mul_of_lt (by omega)
  unfold publishTs countedSecs
  rw [publishDays_eq profile hyear hyear' hday hday']
  simp (disch := omega) only [bind, Except.bind, hadd, hmul]

theorem ageOf_eq (profile : Profile) (now : Option ℕ) {year day hour min sec : ℕ} (month : ℕ)
    (hyear : 1970 ≤ year) (hyear' : year < 10000) (hday : 1 ≤ day) (hday' : day < 100)
    (hhour : hour < 100) (hmin : min < 100) (hsec : sec < 100) :
    ageOf profile now (some [year, month, day, hour, min, sec]) =
      .ok (now.map (ageAt (countedSecs year month day hour min sec))) :=
  Except.bind_eq_ok.mpr
    ⟨_, publishTs_eq profile hyear hyear' hday hday' hhour hmin hsec, rfl⟩

/-- A debug build stops at a year before 1970 and at a day zero. -/
theorem of_publishTs_debug {year month day hour min sec secs : ℕ}
    (h : publishTs .debug year month day hour min sec = .ok secs) : 1970 ≤ year ∧ 1 ≤ day := by
  obtain ⟨days, hdays, -⟩ := Except.bind_eq_ok.mp h
  obtain ⟨years, hyears, h1⟩ := Except.bind_eq_ok.mp hdays
  obtain ⟨yearDays, -, h2⟩ := Except.bind_eq_ok.mp h1
  obtain ⟨leapYears, -, h3⟩ := Except.bind_eq_ok.mp h2
  obtain ⟨counted, -, h4⟩ := Except.bind_eq_ok.mp h3
  obtain ⟨withMonths, -, h5⟩ := Except.bind_eq_ok.mp h4
  obtain ⟨withLeapDay, -, h6⟩ := Except.bind_eq_ok.mp h5
  obtain ⟨before, hbefore, -⟩ := Except.bind_eq_ok.mp h6
  exact ⟨Profile.le_of_sub_debug hyears, Profile.le_of_sub_debug hbefore⟩

/-! ## When it returns -/

/-- The age, whatever the profile, so that no arithmetic wraps around. -/
def Returns (iso : String) : Prop :=
  ∀ now, ∃ age, ∀ profile, parseIsoAgeSecs profile now iso = .ok age

/-- Six numbers. -/
theorem readFields_isoFields {text : List Char} {numbers : List ℕ}
    (h : readFields text isoFields = .ok (some numbers)) :
    ∃ year month day hour min sec, numbers = [year, month, day, hour, min, sec] ∧
      numberAt text (0, 4) = some year ∧ numberAt text (8, 10) = some day ∧ year < 10000 ∧
      day < 100 ∧ hour < 100 ∧ min < 100 ∧ sec < 100 := by
  have hall := readFields_some.mp h
  simp only [isoFields, List.forall₂_cons_left_iff, List.forall₂_nil_left_iff] at hall
  obtain ⟨year, -, hyear, ⟨month, -, -, ⟨day, -, hday, ⟨hour, -, hhour, ⟨min, -, hmin, ⟨sec, -, hsec,
    rfl, rfl⟩, rfl⟩, rfl⟩, rfl⟩, rfl⟩, rfl⟩ := hall
  exact ⟨year, month, day, hour, min, sec, rfl, hyear, hday, numberAt_lt hyear, numberAt_lt hday,
    numberAt_lt hhour, numberAt_lt hmin, numberAt_lt hsec⟩

theorem returns_iff (iso : String) : Returns iso ↔ Fits iso := by
  unfold Returns Fits parseIsoAgeSecs
  dsimp only
  generalize (trim iso).toList = text
  by_cases hshort : byteLength text < 19
  · exact iff_of_true (fun _ => ⟨none, fun _ => if_pos hshort⟩) (Or.inl hshort)
  rw [or_iff_right hshort, ← readFields_fit]
  simp only [if_neg hshort]
  constructor
  · intro hreturns
    obtain ⟨age, hage⟩ := hreturns none
    obtain ⟨numbers, hread, hrun⟩ := Except.bind_eq_ok.mp (hage .debug)
    refine ⟨⟨numbers, hread⟩, fun hnumbers => ?_⟩
    obtain ⟨numbers', hread'⟩ := exists_numbers.mpr hnumbers
    obtain rfl := Except.ok.inj (hread'.symm.trans hread)
    obtain ⟨year, month, day, hour, min, sec, rfl, hyear, hday, -⟩ := readFields_isoFields hread
    obtain ⟨secs, hsecs, -⟩ := Except.bind_eq_ok.mp hrun
    obtain ⟨hfrom, hpos⟩ := of_publishTs_debug hsecs
    refine ⟨fun year' hyear' => ?_, fun day' hday' => ?_⟩
    · rwa [← Option.some.inj (hyear.symm.trans hyear')]
    · rwa [← Option.some.inj (hday.symm.trans hday')]
  · rintro ⟨⟨numbers, hread⟩, hdate⟩ now
    rw [hread]
    cases numbers with
    | none => exact ⟨none, fun _ => rfl⟩
    | some numbers =>
      obtain ⟨year, month, day, hour, min, sec, rfl, hyear, hday, hyear', hday', hhour, hmin, hsec⟩ :=
        readFields_isoFields hread
      obtain ⟨hfrom, hpos⟩ := hdate (exists_numbers.mp ⟨_, hread⟩)
      refine ⟨now.map (ageAt (countedSecs year month day hour min sec)), fun profile => ?_⟩
      exact ageOf_eq profile now month (hfrom year hyear) hyear' (hpos day hday) hday' hhour hmin hsec

/-! ## Timestamps -/

/-- A UTC timestamp of RFC 3339. -/
structure Timestamp where
  year : ℕ
  month : ℕ
  day : ℕ
  hour : ℕ
  minute : ℕ
  second : ℕ
  separator : Char
  fraction : List Char
  offset : List Char

def twoDigits (n : ℕ) : List Char := [Nat.digitChar (n / 10), Nat.digitChar (n % 10)]

def fourDigits (n : ℕ) : List Char := twoDigits (n / 100) ++ twoDigits (n % 100)

namespace Timestamp

def fromSecond (t : Timestamp) : List Char := twoDigits t.second ++ (t.fraction ++ t.offset)

def fromMinute (t : Timestamp) : List Char := twoDigits t.minute ++ ':' :: t.fromSecond

def fromHour (t : Timestamp) : List Char := twoDigits t.hour ++ ':' :: t.fromMinute

def fromDay (t : Timestamp) : List Char := twoDigits t.day ++ t.separator :: t.fromHour

def fromMonth (t : Timestamp) : List Char := twoDigits t.month ++ '-' :: t.fromDay

def text (t : Timestamp) : List Char := fourDigits t.year ++ '-' :: t.fromMonth

/-- A second may be a leap second. -/
structure Valid (t : Timestamp) : Prop where
  date : IsDate t.year t.month t.day
  year_lt : t.year < 10000
  hour_lt : t.hour < 24
  minute_lt : t.minute < 60
  second_le : t.second ≤ 60
  separator : t.separator ∈ ['T', 't', ' ']
  fraction : t.fraction = [] ∨
    ∃ digits : List Char, digits ≠ [] ∧ digits.all Char.isDigit ∧ t.fraction = '.' :: digits
  offset : t.offset ∈ [['Z'], ['z'], ['+', '0', '0', ':', '0', '0'], ['-', '0', '0', ':', '0', '0']]

/-- The seconds since 1970, by the calendar. -/
def secs (t : Timestamp) : ℕ :=
  dayCount t.year t.month t.day * 86400 + t.hour * 3600 + t.minute * 60 + t.second

end Timestamp

/-! ### Digits -/

theorem digitChar_plain {n : ℕ} (h : n < 10) : (Nat.digitChar n).utf8Size = 1 ∧
    (Nat.digitChar n).isDigit = true ∧ isWhitespace (Nat.digitChar n) = false := by
  have hall : ∀ n < 10, (Nat.digitChar n).utf8Size = 1 ∧ (Nat.digitChar n).isDigit = true ∧
      isWhitespace (Nat.digitChar n) = false := by decide
  exact hall n h

theorem byteLength_append (front rest : List Char) :
    byteLength (front ++ rest) = byteLength front + byteLength rest := by
  rw [byteLength, List.map_append, List.sum_append]
  rfl

theorem byteLength_cons (c : Char) (rest : List Char) :
    byteLength (c :: rest) = c.utf8Size + byteLength rest := List.sum_cons

/-- Digits that are read as a number. -/
structure Reads (digits : List Char) (number : ℕ) : Prop where
  nonempty : digits ≠ []
  allDigits : digits.all Char.isDigit
  value : Nat.ofDigitChars 10 digits 0 = number
  bytes : byteLength digits = digits.length

theorem twoDigits_reads {n : ℕ} (h : n < 100) : Reads (twoDigits n) n where
  nonempty := List.cons_ne_nil _ _
  allDigits := by
    have htens : n / 10 < 10 := by omega
    have hones : n % 10 < 10 := Nat.mod_lt n (by decide)
    simp [twoDigits, (digitChar_plain htens).2.1, (digitChar_plain hones).2.1]
  value := by
    have htens : n / 10 < 10 := by omega
    have hones : n % 10 < 10 := Nat.mod_lt n (by decide)
    unfold twoDigits
    rw [Nat.ofDigitChars_cons_digitChar_of_lt_ten htens,
      Nat.ofDigitChars_cons_digitChar_of_lt_ten hones, Nat.ofDigitChars_nil]
    omega
  bytes := by
    have htens : n / 10 < 10 := by omega
    have hones : n % 10 < 10 := Nat.mod_lt n (by decide)
    unfold twoDigits
    rw [byteLength_cons, byteLength_cons, (digitChar_plain htens).1,
      (digitChar_plain hones).1]
    rfl

theorem fourDigits_reads {n : ℕ} (h : n < 10000) : Reads (fourDigits n) n where
  nonempty := List.cons_ne_nil _ _
  allDigits := by
    have hfirst : n / 100 < 100 := by omega
    have hlast : n % 100 < 100 := Nat.mod_lt n (by decide)
    have hfront := (twoDigits_reads hfirst).allDigits
    have hrest := (twoDigits_reads hlast).allDigits
    unfold fourDigits
    rw [List.all_append, hfront, hrest]
    rfl
  value := by
    have hdigits : fourDigits n = [Nat.digitChar (n / 100 / 10), Nat.digitChar (n / 100 % 10),
        Nat.digitChar (n % 100 / 10), Nat.digitChar (n % 100 % 10)] := rfl
    have hthousands : n / 100 / 10 < 10 := by omega
    have hhundreds : n / 100 % 10 < 10 := Nat.mod_lt _ (by decide)
    have htens : n % 100 / 10 < 10 := by omega
    have hones : n % 100 % 10 < 10 := Nat.mod_lt _ (by decide)
    rw [hdigits, Nat.ofDigitChars_cons_digitChar_of_lt_ten hthousands,
      Nat.ofDigitChars_cons_digitChar_of_lt_ten hhundreds,
      Nat.ofDigitChars_cons_digitChar_of_lt_ten htens,
      Nat.ofDigitChars_cons_digitChar_of_lt_ten hones, Nat.ofDigitChars_nil]
    omega
  bytes := by
    have hfirst : n / 100 < 100 := by omega
    have hlast : n % 100 < 100 := Nat.mod_lt n (by decide)
    have hfront := (twoDigits_reads hfirst).bytes
    have hrest := (twoDigits_reads hlast).bytes
    unfold fourDigits
    rw [byteLength_append, hfront, hrest]
    rfl

theorem Reads.parseU64 {digits : List Char} {number : ℕ} (h : Reads digits number)
    (hfit : number < 2 ^ 64) : parseU64 (String.ofList digits) = some (UInt64.ofNat number) := by
  have hplus : digits.head? ≠ some '+' := by
    intro hhead
    obtain ⟨rest, hdigits⟩ := List.head?_eq_some_iff.mp hhead
    have hall := h.allDigits
    rw [hdigits] at hall
    cases hall
  have hgood : ¬(digits = [] ∨ ¬digits.all Char.isDigit) := by
    rintro (hempty | hno)
    · exact h.nonempty hempty
    · exact hno h.allDigits
  unfold Cli.parseU64
  rw [String.toList_ofList]
  dsimp only
  rw [if_neg hplus, if_neg hgood, h.value, if_pos hfit]

/-! ### Slices of a text in parts -/

theorem sliceFrom_append (front rest : List Char) (bytes : ℕ) :
    sliceFrom (byteLength front + bytes) (front ++ rest) = sliceFrom bytes rest := by
  induction front with
  | nil =>
    have hzero : byteLength [] + bytes = bytes := Nat.zero_add bytes
    rw [hzero, List.nil_append]
  | cons c front ih =>
    have hpos := c.utf8Size_pos
    have hlength := byteLength_cons c front
    obtain ⟨more, hmore⟩ : ∃ more, byteLength (c :: front) + bytes = more + 1 :=
      ⟨byteLength (c :: front) + bytes - 1, by omega⟩
    have hle : c.utf8Size ≤ more + 1 := by omega
    have hrest : more + 1 - c.utf8Size = byteLength front + bytes := by omega
    rw [hmore, List.cons_append, sliceFrom, if_pos hle, hrest]
    exact ih

/-- Behind what stands in front, the bytes count from there. -/
theorem numberAt_append {front : List Char} {bytes : ℕ} (hfront : byteLength front = bytes)
    (rest : List Char) (start stop : ℕ) :
    numberAt (front ++ rest) (bytes + start, bytes + stop) = numberAt rest (start, stop) := by
  rw [numberAt, slice, ← hfront, sliceFrom_append, Nat.add_sub_add_left]
  rfl

theorem Reads.numberAt_behind {digits : List Char} {number : ℕ} (h : Reads digits number) {c : Char}
    (hc : c.utf8Size = 1) (rest : List Char) (start stop : ℕ) :
    Cli.numberAt (digits ++ c :: rest) (digits.length + 1 + start, digits.length + 1 + stop) =
      Cli.numberAt rest (start, stop) := by
  have hfront : byteLength (digits ++ [c]) = digits.length + 1 := by
    rw [byteLength_append, h.bytes, byteLength_cons, hc]
    rfl
  rw [List.append_cons]
  exact numberAt_append hfront rest start stop

theorem Reads.numberAt {digits : List Char} {number : ℕ} (h : Reads digits number)
    (hfit : number < 2 ^ 64) (rest : List Char) :
    numberAt (digits ++ rest) (0, digits.length) = some number := by
  have hpiece := sliceTo_append digits rest 0
  rw [Nat.add_zero, sliceTo, Option.map_some, List.append_nil] at hpiece
  have hslice : slice (digits ++ rest) 0 digits.length = some digits := by
    rw [slice, sliceFrom, Option.bind_some, Nat.sub_zero, ← h.bytes, hpiece]
  rw [Cli.numberAt, hslice, Option.bind_some, h.parseU64 hfit, Option.map_some,
    UInt64.toNat_ofNat', Nat.mod_eq_of_lt hfit]

/-! ### The text of a timestamp -/

theorem trim_ofList {text : List Char} {first last : Char} (hfirst : text.head? = some first)
    (hlast : text.getLast? = some last) (hfirst' : isWhitespace first = false)
    (hlast' : isWhitespace last = false) : trim (String.ofList text) = String.ofList text := by
  have hfront : text.dropWhile isWhitespace = text := by
    obtain ⟨rest, rfl⟩ := List.head?_eq_some_iff.mp hfirst
    rw [List.dropWhile_cons, hfirst', if_neg Bool.false_ne_true]
  have hback : text.reverse.dropWhile isWhitespace = text.reverse := by
    obtain ⟨front, rfl⟩ := List.getLast?_eq_some_iff.mp hlast
    rw [List.reverse_append, List.reverse_singleton, List.singleton_append, List.dropWhile_cons,
      hlast', if_neg Bool.false_ne_true]
  rw [trim, String.toList_ofList, hfront, hback, List.reverse_reverse]

namespace Timestamp.Valid
variable {t : Timestamp} (h : t.Valid)
include h

theorem trim_text : trim (String.ofList t.text) = String.ofList t.text := by
  have hyear := h.year_lt
  have hlast : ∃ front last, t.offset = front ++ [last] ∧ isWhitespace last = false := by
    have hoffset := h.offset
    simp only [List.mem_cons, List.not_mem_nil, or_false] at hoffset
    rcases hoffset with hz | hz | hz | hz
    · exact ⟨[], 'Z', hz, rfl⟩
    · exact ⟨[], 'z', hz, rfl⟩
    · exact ⟨['+', '0', '0', ':', '0'], '0', hz, rfl⟩
    · exact ⟨['-', '0', '0', ':', '0'], '0', hz, rfl⟩
  obtain ⟨front, last, hoffset, hplain⟩ := hlast
  have hthousands : t.year / 100 / 10 < 10 := by omega
  have htext : t.text = { t with offset := front }.text ++ [last] := by
    simp [text, fromMonth, fromDay, fromHour, fromMinute, fromSecond, hoffset]
  have hhead : t.text.head? = some (Nat.digitChar (t.year / 100 / 10)) := rfl
  exact trim_ofList hhead (List.getLast?_eq_some_iff.mpr ⟨_, htext⟩)
    (digitChar_plain hthousands).2.2 hplain

theorem day_lt : t.day < 100 := by
  have hle := h.date.day_le
  have hmonth := daysInMonth_le t.year t.month
  omega

theorem month_lt : t.month < 100 := by
  have hle := h.date.month_le
  omega

theorem separator_bytes : t.separator.utf8Size = 1 := by
  have hseparator := h.separator
  simp only [List.mem_cons, List.not_mem_nil, or_false] at hseparator
  rcases hseparator with hT | ht | hspace
  · rw [hT]; rfl
  · rw [ht]; rfl
  · rw [hspace]; rfl

/-- The six numbers stand at their bytes. -/
theorem readFields_text : readFields t.text isoFields =
    .ok (some [t.year, t.month, t.day, t.hour, t.minute, t.second]) := by
  have hyear := fourDigits_reads h.year_lt
  have hmonth := twoDigits_reads h.month_lt
  have hday := twoDigits_reads h.day_lt
  have hhour := twoDigits_reads (h.hour_lt.trans (by decide))
  have hminute := twoDigits_reads (h.minute_lt.trans (by decide))
  have hsecond := twoDigits_reads (h.second_le.trans_lt (by decide))
  have hbehindYear := hyear.numberAt_behind (c := '-') rfl t.fromMonth
  have hbehindMonth := hmonth.numberAt_behind (c := '-') rfl t.fromDay
  have hbehindDay := hday.numberAt_behind h.separator_bytes t.fromHour
  have hbehindHour := hhour.numberAt_behind (c := ':') rfl t.fromMinute
  have hbehindMinute := hminute.numberAt_behind (c := ':') rfl t.fromSecond
  have hfit : ∀ {n m : ℕ}, n < m → m ≤ 10000 → n < 2 ^ 64 := fun hlt hle => by omega
  refine readFields_some.mpr (.cons ?_ (.cons ?_ (.cons ?_ (.cons ?_ (.cons ?_ (.cons ?_ .nil))))))
  · exact hyear.numberAt (hfit h.year_lt (by decide)) _
  · exact (hbehindYear 0 2).trans (hmonth.numberAt (hfit h.month_lt (by decide)) _)
  · calc numberAt t.text (8, 10) = numberAt t.fromMonth (3, 5) := hbehindYear 3 5
      _ = numberAt t.fromDay (0, 2) := hbehindMonth 0 2
      _ = some t.day := hday.numberAt (hfit h.day_lt (by decide)) _
  · calc numberAt t.text (11, 13) = numberAt t.fromMonth (6, 8) := hbehindYear 6 8
      _ = numberAt t.fromDay (3, 5) := hbehindMonth 3 5
      _ = numberAt t.fromHour (0, 2) := hbehindDay 0 2
      _ = some t.hour := hhour.numberAt (hfit h.hour_lt (by decide)) _
  · calc numberAt t.text (14, 16) = numberAt t.fromMonth (9, 11) := hbehindYear 9 11
      _ = numberAt t.fromDay (6, 8) := hbehindMonth 6 8
      _ = numberAt t.fromHour (3, 5) := hbehindDay 3 5
      _ = numberAt t.fromMinute (0, 2) := hbehindHour 0 2
      _ = some t.minute := hminute.numberAt (hfit h.minute_lt (by decide)) _
  · calc numberAt t.text (17, 19) = numberAt t.fromMonth (12, 14) := hbehindYear 12 14
      _ = numberAt t.fromDay (9, 11) := hbehindMonth 9 11
      _ = numberAt t.fromHour (6, 8) := hbehindDay 6 8
      _ = numberAt t.fromMinute (3, 5) := hbehindHour 3 5
      _ = numberAt t.fromSecond (0, 2) := hbehindMinute 0 2
      _ = some t.second := hsecond.numberAt (hfit (Nat.lt_succ_of_le h.second_le) (by decide)) _

theorem long : ¬byteLength t.text < 19 := by
  have hyear : byteLength (fourDigits t.year) = 4 := (fourDigits_reads h.year_lt).bytes
  have hmonth : byteLength (twoDigits t.month) = 2 := (twoDigits_reads h.month_lt).bytes
  have hday : byteLength (twoDigits t.day) = 2 := (twoDigits_reads h.day_lt).bytes
  have hhour : byteLength (twoDigits t.hour) = 2 :=
    (twoDigits_reads (h.hour_lt.trans (by decide))).bytes
  have hminute : byteLength (twoDigits t.minute) = 2 :=
    (twoDigits_reads (h.minute_lt.trans (by decide))).bytes
  have hsecond : byteLength (twoDigits t.second) = 2 :=
    (twoDigits_reads (h.second_le.trans_lt (by decide))).bytes
  have hdash : '-'.utf8Size = 1 := rfl
  have hcolon : ':'.utf8Size = 1 := rfl
  simp only [text, fromMonth, fromDay, fromHour, fromMinute, fromSecond, byteLength_append,
    byteLength_cons, hyear, hmonth, hday, hhour, hminute, hsecond, hdash, hcolon,
    h.separator_bytes]
  omega

end Timestamp.Valid

/-! ## The calendar -/

/-- `days_from_date`, with the year beginning in March. -/
def daysFromDate (year month day : ℤ) : ℤ :=
  let y := if month ≤ 2 then year - 1 else year
  let m := if month ≤ 2 then month + 12 else month
  let era := y.tdiv 400
  let yoe := y - era * 400
  let doy := (153 * (m - 3) + 2).tdiv 5 + day - 1
  let doe := yoe * 365 + yoe.tdiv 4 - yoe.tdiv 100 + doy
  era * 146097 + doe - 719468

section Calendar
variable {year month day : ℕ}

theorem dayCount_eq (hdate : IsDate year month day) (hfrom : 1970 ≤ year) (hto : year ≤ 2099) :
    dayCount year month day = (year - 1970) * 365 + (year - 1969) / 4 +
      ([0, 31, 59, 90, 120, 151, 181, 212, 243, 273, 304, 334].getD (month - 1) 0 +
        if 2 < month then leapDays year else 0) + (day - 1) := by
  rw [dayCount, daysOfYears_eq (by omega), daysOfMonths_eq year hdate.month_pos hdate.month_le]
  omega

theorem countedDays_eq (hdate : IsDate year month day) (hfrom : 1970 ≤ year)
    (hto : year ≤ 2099) : countedDays year month day = dayCount year month day := by
  have hmonth : 1 ≤ month ∧ month ≤ 12 := ⟨hdate.month_pos, hdate.month_le⟩
  have hleap : (if 2 < month ∧ IsLeap year then 1 else 0) =
      if 2 < month then leapDays year else 0 := by
    rw [leapDays]
    split_ifs <;> simp_all
  rw [dayCount_eq hdate hfrom hto, countedDays, if_pos hmonth, hleap, daysBeforeMonth]
  omega

/-- From March on the months before take 153 days in five months. -/
theorem daysBeforeMonth_eq (hpos : 1 ≤ month) (hle : month ≤ 12) :
    ([0, 31, 59, 90, 120, 151, 181, 212, 243, 273, 304, 334] : List ℕ).getD (month - 1) 0 =
      if 2 < month then (153 * (month - 3) + 2) / 5 + 59 else 31 * (month - 1) := by
  interval_cases month <;> rfl

theorem daysFromDate_eq (hdate : IsDate year month day) (hfrom : 1970 ≤ year)
    (hto : year ≤ 2099) : daysFromDate year month day = dayCount year month day := by
  have hmonth := hdate.month_pos
  have hday := hdate.day_pos
  have htdiv : ∀ a b : ℤ, 0 ≤ a → a.tdiv b = a / b := fun a b ha => Int.tdiv_eq_ediv_of_nonneg ha
  rw [dayCount_eq hdate hfrom hto, leapDays_eq hfrom hto,
    daysBeforeMonth_eq hmonth hdate.month_le, daysFromDate]
  by_cases hmarch : 2 < month
  · have hlate : ¬(month : ℤ) ≤ 2 := by omega
    rw [if_neg hlate, if_neg hlate, if_pos hmarch, if_pos hmarch, htdiv _ _ (by omega),
      htdiv _ _ (by omega), htdiv _ _ (by omega), htdiv _ _ (by omega)]
    split_ifs <;> omega
  · have hearly : (month : ℤ) ≤ 2 := by omega
    rw [if_pos hearly, if_pos hearly, if_neg hmarch, if_neg hmarch, htdiv _ _ (by omega),
      htdiv _ _ (by omega), htdiv _ _ (by omega), htdiv _ _ (by omega)]
    omega

end Calendar

/-! ## The age of a timestamp -/

theorem Timestamp.Valid.parseIsoAgeSecs {t : Timestamp} (h : t.Valid) (hfrom : 1970 ≤ t.year)
    (hto : t.year ≤ 2099) (profile : Profile) (now : Option ℕ) :
    parseIsoAgeSecs profile now (String.ofList t.text) = .ok (now.map (ageAt t.secs)) := by
  have hsecs : countedSecs t.year t.month t.day t.hour t.minute t.second = t.secs := by
    rw [countedSecs, countedDays_eq h.date hfrom hto]
    rfl
  have hage := ageOf_eq profile now t.month hfrom h.year_lt h.date.day_pos h.day_lt
    (h.hour_lt.trans (by decide)) (h.minute_lt.trans (by decide))
    (h.second_le.trans_lt (by decide))
  unfold Cli.parseIsoAgeSecs
  rw [h.trim_text, String.toList_ofList]
  dsimp only
  rw [if_neg h.long, h.readFields_text, ← hsecs]
  exact hage

/-- A text is read without a fault exactly when its fields fit; a timestamp of the years up to 2099
has the age that the calendar gives it. -/
theorem parseIsoAgeSecs_sound_iff (iso : String) :
    (Returns iso ∧ ∀ t : Timestamp, t.Valid → 1970 ≤ t.year → t.year ≤ 2099 →
      iso = String.ofList t.text →
        (∀ profile now, parseIsoAgeSecs profile now iso = .ok (now.map (ageAt t.secs))) ∧
          daysFromDate t.year t.month t.day = dayCount t.year t.month t.day) ↔ Fits iso := by
  refine (and_iff_left ?_).trans (returns_iff iso)
  rintro t hvalid hfrom hto rfl
  exact ⟨hvalid.parseIsoAgeSecs hfrom hto, daysFromDate_eq hvalid.date hfrom hto⟩

/-- A year before 1970 underflows, and a character may lie across the end of a field. -/
theorem parseIsoAgeSecs_panics :
    parseIsoAgeSecs .debug (some 1700000000) "1969-12-31T23:59:59Z" = .error .overflow ∧
      parseIsoAgeSecs .release (some 1700000000) "202é-01-01T00:00:00Z" = .error .charBoundary ∧
      ¬Returns "1969-12-31T23:59:59Z" ∧ ¬Returns "202é-01-01T00:00:00Z" := by
  have hunderflow : parseIsoAgeSecs .debug (some 1700000000) "1969-12-31T23:59:59Z" =
      .error .overflow := by decide
  have hboundary : parseIsoAgeSecs .release (some 1700000000) "202é-01-01T00:00:00Z" =
      .error .charBoundary := by decide
  refine ⟨hunderflow, hboundary, fun hreturns => ?_, fun hreturns => ?_⟩
  · obtain ⟨age, hage⟩ := hreturns (some 1700000000)
    rw [hage .debug] at hunderflow
    cases hunderflow
  · obtain ⟨age, hage⟩ := hreturns (some 1700000000)
    rw [hage .release] at hboundary
    cases hboundary

end Oath.Cli
