import Mathlib.Data.Bool.AllAny
import Oath.Analyze.FindingDedup
import Oath.Analyze.ScoreSoundness

/-! What the occurrences of the advanced patterns in a file cost its package. The scanner drops
repeated findings before they are counted again. -/

namespace Oath.Analyze
open Contracts Machine Unix KeyedLists

/-- The patterns with a penalty of their own. -/
inductive Advanced
  | base64
  | dynamicRequire
  | hexExecution
  | envExfiltration
  | wallet
deriving DecidableEq, Repr

namespace Advanced

def factor : Advanced → String
  | base64 => "base64_payload"
  | dynamicRequire => "dynamic_require_obfuscation"
  | hexExecution => "hex_string_execution"
  | envExfiltration => "env_exfiltration_combo"
  | wallet => "crypto_wallet_patterns"

def unit : Advanced → ℕ
  | base64 => 30
  | dynamicRequire => 25
  | hexExecution => 40
  | envExfiltration => 35
  | wallet => 20

def cap : Advanced → ℕ
  | base64 => 60
  | dynamicRequire => 50
  | hexExecution => 80
  | envExfiltration => 70
  | wallet => 60

def kind : Advanced → FindingKind
  | base64 | dynamicRequire | hexExecution => .obfuscation
  | envExfiltration => .dataExfiltration
  | wallet => .cryptoMiner

/-- The text that the score looks for in the messages. -/
def wanted : Advanced → String
  | base64 => "Base64 payload"
  | dynamicRequire => "Dynamic require"
  | hexExecution => "Hex string execution"
  | envExfiltration => "Environment variable exfiltration"
  | wallet => "wallet address"

/-- How often the pattern is found in a text. -/
def count (facts : SourceFacts) (text : List Char) : Advanced → ℕ
  | base64 => b64Count facts text
  | dynamicRequire => dynReqCount facts text
  | hexExecution => hexExecCount facts text
  | envExfiltration => exfilCount text
  | wallet => walletCount facts text

/-- How often the score finds it in the report. -/
def found (p : Advanced) (findings : List Finding) : ℕ := patternCount p.kind p.wanted findings

end Advanced

/-! ## Weights -/

/-- What the factors of one name weigh together. -/
def weightOf (name : String) (factors : List ScoreFactor) : ℤ :=
  ((factors.filter fun factor => factor.name = name).map ScoreFactor.weight).sum

theorem weightOf_append (name : String) (factors more : List ScoreFactor) :
    weightOf name (factors ++ more) = weightOf name factors + weightOf name more := by
  unfold weightOf
  rw [List.filter_append, List.map_append, List.sum_append]

/-- The computation adds this to the factors of the name. -/
def Adds (name : String) (tally : Tally) (weight : ℤ) (x : Checked Tally) : Prop :=
  weightOf name x.value.factors = weightOf name tally.factors + weight

section Weights
variable {name other : String} {tally : Tally} {weight first second : ℤ} {x : Checked Tally}

theorem Adds.bind {f : Tally → Checked Tally} (hx : Adds name tally first x)
    (hf : ∀ next, Adds name next second (f next)) : Adds name tally (first + second) (x >>= f) := by
  have hnext : weightOf name (x >>= f).value.factors =
      weightOf name x.value.factors + second := hf x.value
  unfold Adds
  rw [hnext, hx, add_assoc]

/-- A step that does not touch the name comes first. -/
theorem Adds.skip {f : Tally → Checked Tally} (hx : Adds name tally 0 x)
    (hf : ∀ next, Adds name next weight (f next)) : Adds name tally weight (x >>= f) := by
  have hboth := hx.bind hf
  rwa [zero_add] at hboth

/-- A step that does not touch the name comes last. -/
theorem Adds.keep {f : Tally → Checked Tally} (hx : Adds name tally weight x)
    (hf : ∀ next, Adds name next 0 (f next)) : Adds name tally weight (x >>= f) := by
  have hboth := hx.bind hf
  rwa [add_zero] at hboth

theorem adds_after {α : Type} {number : Checked α} {f : α → Checked Tally}
    (hf : Adds name tally weight (f number.value)) : Adds name tally weight (number >>= f) := hf

theorem adds_pure : Adds name tally 0 (pure tally) := (add_zero _).symm

theorem adds_push (description : String) :
    Adds name tally weight (tally.push name description weight) := by
  have hfactors : (tally.push name description weight).value.factors =
      tally.factors ++ [⟨name, weight, description⟩] := rfl
  have hown : weightOf name [⟨name, weight, description⟩] = weight := by
    simp [weightOf]
  unfold Adds
  rw [hfactors, weightOf_append, hown]

theorem adds_push_of_ne (hne : other ≠ name) (description : String) (weight : ℤ) :
    Adds name tally 0 (tally.push other description weight) := by
  have hfactors : (tally.push other description weight).value.factors =
      tally.factors ++ [⟨other, weight, description⟩] := rfl
  have hnone : weightOf name [⟨other, weight, description⟩] = 0 := by
    simp [weightOf, hne]
  unfold Adds
  rw [hfactors, weightOf_append, hnone]

theorem adds_riskPenalty (hne : other ≠ name) (noun : String) (unit : ℤ) (count : ℕ) :
    Adds name tally 0 (riskPenalty other noun unit count tally) := by
  unfold riskPenalty
  split_ifs
  · exact adds_after (adds_after (adds_after (adds_push_of_ne hne _ _)))
  · exact adds_pure

theorem adds_flagFactor (hne : other ≠ name) (description : String) (weight : ℤ)
    (applies : Bool) : Adds name tally 0 (flagFactor other description weight applies tally) := by
  unfold flagFactor
  split_ifs
  · exact adds_push_of_ne hne description weight
  · exact adds_pure

theorem adds_patternPenalty_of_ne (hne : other ≠ name) (noun : String) (unit cap : ℤ)
    (found : ℕ) : Adds name tally 0 (patternPenalty other noun unit cap found tally) := by
  unfold patternPenalty
  refine adds_after ?_
  split_ifs
  · exact adds_after (adds_after (adds_after (adds_push_of_ne hne _ _)))
  · exact adds_pure

theorem signed_value {bits : ℕ} {n : ℤ} (hbits : 0 < bits) (hfits : FitsSigned bits n) :
    (signed bits n).value = n := bmod_of_fits hbits hfits

theorem adds_patternPenalty (noun : String) {unit cap : ℤ} {found : ℕ} (hunit : 0 < unit)
    (hcap : 0 ≤ cap) (hsmall : cap ≤ 32767) (hfound : found * unit < 2 ^ 31) :
    Adds name tally (cappedWeight unit cap found)
      (patternPenalty name noun unit cap found tally) := by
  have hle : (found : ℤ) ≤ found * unit := le_mul_of_one_le_right (by omega) hunit
  have hcount : FitsSigned 32 found := by
    unfold FitsSigned
    omega
  have hproduct : FitsSigned 32 (found * unit) := by
    unfold FitsSigned
    omega
  have hnegated : FitsSigned 32 (-(min (found * unit) cap)) := by
    unfold FitsSigned
    omega
  have hpenalty : FitsSigned 16 (-(min (found * unit) cap)) := by
    unfold FitsSigned
    omega
  unfold patternPenalty
  refine adds_after ?_
  rw [signed_value (by decide) hcount]
  split_ifs with hpos
  · refine adds_after (adds_after (adds_after ?_))
    rw [signed_value (by decide) hproduct, signed_value (by decide) hnegated,
      signed_value (by decide) hpenalty]
    exact adds_push _
  · have hzero : found = 0 := by omega
    have hnone : cappedWeight unit cap found = 0 := by
      rw [cappedWeight, hzero, Nat.cast_zero, zero_mul, min_eq_left hcap, neg_zero]
    rw [hnone]
    exact adds_pure

end Weights

/-! ## Penalties -/

/-- The names of the other factors. -/
def otherFactors : List String :=
  ["critical_findings", "high_findings", "medium_findings", "low_findings", "install_scripts",
    "network_env_combo", "dynamic_exec", "obfuscated_code", "no_readme", "large_surface_area",
    "readable_source", "typescript_types", "has_license", "has_tests", "behavioral_verdict"]

theorem Advanced.factor_not_mem (p : Advanced) : p.factor ∉ otherFactors := by
  cases p <;> decide

section Penalties
variable {name : String} {tally : Tally} {report : AnalysisReport}

theorem factor_ne (hname : name ∉ otherFactors) {other : String} (hother : other ∈ otherFactors) :
    other ≠ name := fun heq => hname (heq ▸ hother)

theorem adds_riskPenalties (hname : name ∉ otherFactors) (counts : RiskCounts) :
    Adds name tally 0 (riskPenalties counts tally) := by
  have hrisk {other : String} (hother : other ∈ otherFactors) (noun : String) (unit : ℤ)
      (count : ℕ) (tally : Tally) : Adds name tally 0 (riskPenalty other noun unit count tally) :=
    adds_riskPenalty (factor_ne hname hother) noun unit count
  unfold riskPenalties
  refine (hrisk (by decide) _ _ _ _).skip fun tally => ?_
  refine (hrisk (by decide) _ _ _ _).skip fun tally => ?_
  refine (hrisk (by decide) _ _ _ _).skip fun tally => ?_
  exact hrisk (by decide) _ _ _ _

theorem adds_capabilityPenalties (hname : name ∉ otherFactors) :
    Adds name tally 0 (capabilityPenalties report tally) := by
  have hflag {other : String} (hother : other ∈ otherFactors) (description : String) (weight : ℤ)
      (applies : Bool) (tally : Tally) :
      Adds name tally 0 (flagFactor other description weight applies tally) :=
    adds_flagFactor (factor_ne hname hother) description weight applies
  unfold capabilityPenalties
  refine (hflag (by decide) _ _ _ _).skip fun tally => ?_
  refine (hflag (by decide) _ _ _ _).skip fun tally => ?_
  refine (hflag (by decide) _ _ _ _).skip fun tally => ?_
  exact hflag (by decide) _ _ _ _

theorem adds_directoryFactors (hname : name ∉ otherFactors) (dir : PackageDir) :
    Adds name tally 0 (directoryFactors dir tally) := by
  have hflag {other : String} (hother : other ∈ otherFactors) (description : String) (weight : ℤ)
      (applies : Bool) (tally : Tally) :
      Adds name tally 0 (flagFactor other description weight applies tally) :=
    adds_flagFactor (factor_ne hname hother) description weight applies
  unfold directoryFactors
  refine (hflag (by decide) _ _ _ _).skip fun tally => ?_
  refine (hflag (by decide) _ _ _ _).skip fun tally => ?_
  refine (hflag (by decide) _ _ _ _).skip fun tally => ?_
  refine (hflag (by decide) _ _ _ _).skip fun tally => ?_
  refine (hflag (by decide) _ _ _ _).skip fun tally => ?_
  exact hflag (by decide) _ _ _ _

theorem adds_behavioralVerdict (hname : name ∉ otherFactors) :
    Adds name tally 0 (behavioralVerdict report tally) := by
  have hne : "behavioral_verdict" ≠ name := factor_ne hname (by decide)
  unfold behavioralVerdict
  cases verdictFloor report.overallRisk with
  | none => exact adds_pure
  | some floor =>
    dsimp only
    split_ifs
    · refine adds_after (adds_after ?_)
      unfold Adds
      have hnone : weightOf name [⟨"behavioral_verdict",
          (signed 16 (clamp 0 32767 (signed 32 (floor.1 - max tally.rawScore 0)).value)).value,
          floor.2⟩] = 0 := by
        simp [weightOf, hne]
      exact (weightOf_append name tally.factors _).trans (congrArg (_ + ·) hnone)
    · exact adds_pure

/-- The pattern adds what was found of it, and the others do not touch its factor. -/
theorem adds_patternPenalties (p : Advanced) (hfound : p.found report.findings ≤ 1) :
    Adds p.factor tally (cappedWeight p.unit p.cap (p.found report.findings))
      (patternPenalties report tally) := by
  have hown (noun : String) (tally : Tally) : Adds p.factor tally
      (cappedWeight p.unit p.cap (p.found report.findings))
      (patternPenalty p.factor noun p.unit p.cap (p.found report.findings) tally) := by
    refine adds_patternPenalty noun ?_ ?_ ?_ ?_
    · cases p <;> decide
    · cases p <;> decide
    · cases p <;> decide
    · have hunit : p.unit ≤ 40 := by cases p <;> decide
      have hproduct := Nat.mul_le_mul hfound hunit
      push_cast at hproduct ⊢
      omega
  have hstep (q : Advanced) (noun : String) (tally : Tally) : Adds p.factor tally
      (if q = p then cappedWeight p.unit p.cap (p.found report.findings) else 0)
      (patternPenalty q.factor noun q.unit q.cap (q.found report.findings) tally) := by
    split_ifs with hsame
    · rw [hsame]
      exact hown noun tally
    · refine adds_patternPenalty_of_ne ?_ noun _ _ _
      revert hsame
      cases p <;> cases q <;> decide
  have hall : Adds p.factor tally _ (patternPenalties report tally) :=
    (hstep .base64 _ tally).bind fun tally => (hstep .dynamicRequire _ tally).bind fun tally =>
      (hstep .hexExecution _ tally).bind fun tally =>
        (hstep .envExfiltration _ tally).bind fun tally => hstep .wallet _ tally
  convert hall using 1
  cases p <;> simp

/-- What the pattern costs a package. -/
def contribution (p : Advanced) (score : SafetyScore) : ℤ := -weightOf p.factor score.factors

theorem contribution_eq (p : Advanced) (dir : PackageDir) (hfound : p.found report.findings ≤ 1) :
    contribution p (computeSafetyScore report dir).value =
      min ((p.found report.findings * p.unit : ℕ) : ℤ) p.cap := by
  have hname := p.factor_not_mem
  have htally : Adds p.factor ⟨100, []⟩ (cappedWeight p.unit p.cap (p.found report.findings)) (do
      let tally ← riskPenalties (countRisks report.findings).value ⟨100, []⟩
      let tally ← capabilityPenalties report tally
      let tally ← patternPenalties report tally
      let tally ← directoryFactors dir tally
      behavioralVerdict report tally) := by
    refine (adds_riskPenalties hname _).skip fun tally => ?_
    refine (adds_capabilityPenalties hname).skip fun tally => ?_
    refine (adds_patternPenalties p hfound).keep fun tally => ?_
    refine (adds_directoryFactors hname dir).skip fun tally => ?_
    exact adds_behavioralVerdict hname
  have hweight : weightOf p.factor (computeSafetyScore report dir).value.factors =
      0 + cappedWeight p.unit p.cap (p.found report.findings) := htally
  rw [contribution, hweight, zero_add, cappedWeight, neg_neg, Nat.cast_mul]

end Penalties

/-! ## Messages -/

namespace Advanced

/-- What the score counts for the pattern. -/
def counts (p : Advanced) (f : Finding) : Bool :=
  f.kind = p.kind && containsStr f.message.toList p.wanted

theorem found_eq (p : Advanced) (findings : List Finding) :
    p.found findings = findings.countP p.counts := rfl

theorem counts_of_kind_ne {p : Advanced} {f : Finding} (h : f.kind ≠ p.kind) :
    p.counts f = false := by
  rw [counts, decide_eq_false h, Bool.false_and]

/-- A text is not found where one of its characters does not occur. -/
theorem counts_of_not_mem {p : Advanced} {f : Finding} {c : Char} (hwanted : c ∈ p.wanted.toList)
    (hmessage : c ∉ f.message.toList) : p.counts f = false := by
  have hnot : containsStr f.message.toList p.wanted = false :=
    decide_eq_false fun hwithin => hmessage (hwithin.subset hwanted)
  rw [counts, hnot, Bool.and_false]

end Advanced

theorem not_mem_number {c : Char} (n : ℕ) (hdigit : c.isDigit = false) :
    c ∉ (toString n).toList := by
  have hdigits : (toString n).toList = Nat.toDigits 10 n := String.toList_ofList
  intro hc
  rw [hdigits] at hc
  have h : c.isDigit = true := Nat.isDigit_of_mem_toDigits (by decide) (by decide) hc
  rw [hdigit] at h
  cases h

theorem not_mem_append {c : Char} {front back : String} (hfront : c ∉ front.toList)
    (hback : c ∉ back.toList) : c ∉ (front ++ back).toList := by
  rw [String.toList_append, List.mem_append, not_or]
  exact ⟨hfront, hback⟩

theorem not_mem_tenths {c : Char} (n : ℕ) (hdigit : c.isDigit = false) (hpoint : c ∉ ".".toList) :
    c ∉ (tenths n).toList :=
  not_mem_append (not_mem_append (not_mem_number _ hdigit) hpoint) (not_mem_number _ hdigit)

/-- Characters that tell the texts of three patterns from a message. -/
structure Lacks (chars : List Char) (f : Finding) : Prop where
  kind : f.kind = .obfuscation
  message : ∀ c ∈ chars, c ∉ f.message.toList

theorem Lacks.counts {chars : List Char} {f : Finding} (h : Lacks chars f)
    (hchars : ∀ p : Advanced, p.kind = .obfuscation → ∃ c ∈ chars, c ∈ p.wanted.toList)
    (p : Advanced) : p.counts f = false := by
  by_cases hkind : p.kind = .obfuscation
  · obtain ⟨c, hc, hwanted⟩ := hchars p hkind
    exact Advanced.counts_of_not_mem hwanted (h.message c hc)
  · exact Advanced.counts_of_kind_ne fun heq => hkind (heq.symm.trans h.kind)

section Files
variable {facts : SourceFacts} {text relative : List Char} {f : Finding}

theorem lacks_minification (h : f ∈ minification text relative) : Lacks ['p', 'D', 'x'] f := by
  have hfixed : ∀ c ∈ ['p', 'D', 'x'], c.isDigit = false ∧
      c ∉ "Minified vendor bundle detected".toList ∧
      c ∉ "Minified source code detected (not vendor)".toList ∧
      c ∉ ": avg line length ".toList ∧ c ∉ " chars across ".toList ∧ c ∉ " lines".toList :=
    List.all_iff_forall_prop.mp (by decide)
  unfold minification at h
  dsimp only at h
  split_ifs at h
  · rw [List.mem_singleton.mp h]
    refine ⟨rfl, fun c hc => ?_⟩
    obtain ⟨hdigit, hvendor, -, hlength, hacross, hlines⟩ := hfixed c hc
    exact not_mem_append (not_mem_append (not_mem_append (not_mem_append (not_mem_append
      hvendor hlength) (not_mem_number _ hdigit)) hacross) (not_mem_number _ hdigit)) hlines
  · rw [List.mem_singleton.mp h]
    refine ⟨rfl, fun c hc => ?_⟩
    obtain ⟨hdigit, -, hsource, hlength, hacross, hlines⟩ := hfixed c hc
    exact not_mem_append (not_mem_append (not_mem_append (not_mem_append (not_mem_append
      hsource hlength) (not_mem_number _ hdigit)) hacross) (not_mem_number _ hdigit)) hlines
  · exact absurd h List.not_mem_nil

theorem lacks_hexEncoding (h : f ∈ hexEncoding facts text relative) :
    Lacks ['p', 'D', 'u'] f := by
  have hfixed : ∀ c ∈ ['p', 'D', 'u'], c.isDigit = false ∧ c ∉ ".".toList ∧
      c ∉ "High hex encoding density: ".toList ∧
      c ∉ "% of string content is \\\\xNN encoded".toList :=
    List.all_iff_forall_prop.mp (by decide)
  obtain ⟨density, -, rfl⟩ := Option.map_eq_some_iff.mp (Option.mem_toList.mp h)
  refine ⟨rfl, fun c hc => ?_⟩
  obtain ⟨hdigit, hpoint, hfront, hback⟩ := hfixed c hc
  exact not_mem_append (not_mem_append hfront (not_mem_tenths _ hdigit hpoint)) hback

theorem lacks_charCodes (h : f ∈ charCodes text relative) : Lacks ['p', 'D', 'x'] f := by
  have hfixed : ∀ c ∈ ['p', 'D', 'x'], c.isDigit = false ∧ c ∉ "Builds ".toList ∧
      c ∉ " strings from char codes (informational)".toList :=
    List.all_iff_forall_prop.mp (by decide)
  unfold charCodes at h
  dsimp only at h
  split_ifs at h
  · rw [List.mem_singleton.mp h]
    refine ⟨rfl, fun c hc => ?_⟩
    obtain ⟨hdigit, hfront, hback⟩ := hfixed c hc
    exact not_mem_append (not_mem_append hfront (not_mem_number _ hdigit)) hback
  · exact absurd h List.not_mem_nil

theorem lacks_shortVariableNames (h : f ∈ shortVariableNames facts text relative) :
    Lacks ['p', 'D', 'x'] f := by
  have hfixed : ∀ c ∈ ['p', 'D', 'x'], c.isDigit = false ∧ c ∉ ".".toList ∧
      c ∉ "Short variable names: avg identifier length ".toList ∧ c ∉ " chars ".toList ∧
      c ∉ "across ".toList ∧ c ∉ " identifiers".toList :=
    List.all_iff_forall_prop.mp (by decide)
  obtain ⟨⟨average, count⟩, -, rfl⟩ := Option.map_eq_some_iff.mp (Option.mem_toList.mp h)
  refine ⟨rfl, fun c hc => ?_⟩
  obtain ⟨hdigit, hpoint, hfront, hchars, hacross, hback⟩ := hfixed c hc
  exact not_mem_append
    (not_mem_append (not_mem_append hfront (not_mem_tenths _ hdigit hpoint)) hchars)
    (not_mem_append (not_mem_append hacross (not_mem_number _ hdigit)) hback)

/-- The first pass reports nothing that the score looks for. -/
theorem counts_detectObfuscation (h : f ∈ detectObfuscation facts text relative) :
    f.kind = .obfuscation ∧ ∀ p : Advanced, p.counts f = false := by
  have hhex : ∀ p : Advanced, p.kind = .obfuscation →
      ∃ c ∈ ['p', 'D', 'x'], c ∈ p.wanted.toList := by
    intro p
    rw [← List.any_iff_exists_prop]
    cases p <;> decide
  have hother : ∀ p : Advanced, p.kind = .obfuscation →
      ∃ c ∈ ['p', 'D', 'u'], c ∈ p.wanted.toList := by
    intro p
    rw [← List.any_iff_exists_prop]
    cases p <;> decide
  unfold detectObfuscation at h
  rcases List.mem_append.mp h with h | hnames
  · rcases List.mem_append.mp h with h | hcodes
    · rcases List.mem_append.mp h with hminified | hencoded
      · have hlacks := lacks_minification hminified
        exact ⟨hlacks.kind, hlacks.counts hhex⟩
      · have hlacks := lacks_hexEncoding hencoded
        exact ⟨hlacks.kind, hlacks.counts hother⟩
    · have hlacks := lacks_charCodes hcodes
      exact ⟨hlacks.kind, hlacks.counts hhex⟩
  · have hlacks := lacks_shortVariableNames hnames
    exact ⟨hlacks.kind, hlacks.counts hhex⟩

/-- Nor does the analyzer. -/
theorem counts_analyzer (h : f ∈ stringScan text relative ++ astScan facts text relative)
    (p : Advanced) : p.counts f = false := by
  have hpatterns : ∀ pattern ∈ patterns, ∀ p ∈ [Advanced.base64, .dynamicRequire, .hexExecution,
      .envExfiltration, .wallet],
      (decide (pattern.kind = p.kind) && containsStr pattern.description.toList p.wanted) =
        false := by
    decide +kernel
  have hall : p ∈ [Advanced.base64, .dynamicRequire, .hexExecution, .envExfiltration, .wallet] := by
    cases p <;> decide +kernel
  rcases List.mem_append.mp h with hscan | hvisit
  · obtain ⟨pattern, hpattern, hfinding⟩ := List.mem_filterMap.mp hscan
    obtain ⟨before, -, rfl⟩ := Option.map_eq_some_iff.mp hfinding
    exact hpatterns pattern hpattern p hall
  · obtain ⟨⟨visited, line⟩, -, rfl⟩ := List.mem_map.mp hvisit
    have hvisited : (decide (visited.kind = p.kind) &&
        containsStr visited.message.toList p.wanted) = false := by
      cases visited <;> cases p <;> decide +kernel
    exact hvisited

theorem counts_base64Finding (p : Advanced) :
    p.counts (base64Finding relative) = decide (p = .base64) := by
  have hclosed : p.counts (base64Finding relative) = p.counts (base64Finding []) := rfl
  rw [hclosed]
  cases p <;> decide +kernel

theorem counts_dynamicRequireFinding (p : Advanced) :
    p.counts (dynamicRequireFinding relative) = decide (p = .dynamicRequire) := by
  have hclosed : p.counts (dynamicRequireFinding relative) =
      p.counts (dynamicRequireFinding []) := rfl
  rw [hclosed]
  cases p <;> decide +kernel

theorem counts_hexExecFinding (p : Advanced) :
    p.counts (hexExecFinding relative) = decide (p = .hexExecution) := by
  have hclosed : p.counts (hexExecFinding relative) = p.counts (hexExecFinding []) := rfl
  rw [hclosed]
  cases p <;> decide +kernel

/-- The score looks for another text. -/
theorem counts_exfilFinding (p : Advanced) : p.counts (exfilFinding relative) = false := by
  have hclosed : p.counts (exfilFinding relative) = p.counts (exfilFinding []) := rfl
  rw [hclosed]
  cases p <;> decide +kernel

theorem counts_decodeExecFinding (p : Advanced) :
    p.counts (decodeExecFinding relative) = false := by
  have hclosed : p.counts (decodeExecFinding relative) = p.counts (decodeExecFinding []) := rfl
  rw [hclosed]
  cases p <;> decide

theorem counts_walletFinding (p : Advanced) :
    p.counts (walletFinding relative) = decide (p = .wallet) := by
  have hclosed : p.counts (walletFinding relative) = p.counts (walletFinding []) := rfl
  rw [hclosed]
  cases p <;> decide

/-! ## What is left of the findings -/

/-- All that is reported as obfuscation on the first line, before the analyzer. -/
def lead (facts : SourceFacts) (text relative : List Char) : List Finding :=
  detectObfuscation facts text relative ++
    (List.replicate (b64Count facts text) (base64Finding relative) ++
      (List.replicate (dynReqCount facts text) (dynamicRequireFinding relative) ++
        List.replicate (hexExecCount facts text) (hexExecFinding relative)))

/-- How often a pattern is counted: once, when nothing of its kind was reported before. -/
def kept (facts : SourceFacts) (text relative : List Char) : Advanced → ℕ
  | .base64 => if detectObfuscation facts text relative = [] ∧ 0 < b64Count facts text then 1 else 0
  | .dynamicRequire =>
    if detectObfuscation facts text relative = [] ∧ b64Count facts text = 0 ∧
      0 < dynReqCount facts text then 1 else 0
  | .hexExecution =>
    if detectObfuscation facts text relative = [] ∧ b64Count facts text = 0 ∧
      dynReqCount facts text = 0 ∧ 0 < hexExecCount facts text then 1 else 0
  | .envExfiltration => 0
  | .wallet => if 0 < walletCount facts text then 1 else 0

theorem findingKey_lead (h : f ∈ lead facts text relative) :
    findingKey f = (.obfuscation, String.ofList relative, 1) := by
  have hcopy {n : ℕ} {g : Finding}
      (hg : findingKey g = (.obfuscation, String.ofList relative, 1))
      (hmem : f ∈ List.replicate n g) :
      findingKey f = (.obfuscation, String.ofList relative, 1) := by
    rw [List.eq_of_mem_replicate hmem]
    exact hg
  rcases List.mem_append.mp h with hfirst | h
  · have honLine := onFirstLine_detectObfuscation hfirst
    rw [findingKey, (counts_detectObfuscation hfirst).1, honLine.1, honLine.2]
  · rcases List.mem_append.mp h with hbase64 | h
    · exact hcopy rfl hbase64
    · rcases List.mem_append.mp h with hdynamic | hhex
      · exact hcopy rfl hdynamic
      · exact hcopy rfl hhex

/-- Which pattern the first of them counts for. -/
theorem countP_head_lead {p : Advanced} (hp : p.kind = .obfuscation) :
    (lead facts text relative).head?.toList.countP p.counts = kept facts text relative p := by
  have hone {g : Finding} : [g].countP p.counts = if p.counts g then 1 else 0 := by
    rw [List.countP_singleton]
  unfold lead
  cases hfirst : detectObfuscation facts text relative with
  | cons f more =>
    have hf : f ∈ detectObfuscation facts text relative := hfirst ▸ List.mem_cons_self
    have hnone := (counts_detectObfuscation hf).2 p
    rw [List.cons_append, List.head?_cons, Option.toList_some, hone, hnone]
    cases p <;> simp_all [kept, Advanced.kind]
  | nil =>
    rw [List.nil_append]
    cases hbase64 : b64Count facts text with
    | succ n =>
      rw [List.replicate_succ, List.cons_append, List.head?_cons, Option.toList_some, hone,
        counts_base64Finding]
      cases p <;> simp_all [kept, Advanced.kind]
    | zero =>
      rw [List.replicate_zero, List.nil_append]
      cases hdynamic : dynReqCount facts text with
      | succ n =>
        rw [List.replicate_succ, List.cons_append, List.head?_cons, Option.toList_some, hone,
          counts_dynamicRequireFinding]
        cases p <;> simp_all [kept, Advanced.kind]
      | zero =>
        rw [List.replicate_zero, List.nil_append]
        cases hhex : hexExecCount facts text with
        | succ n =>
          rw [List.replicate_succ, List.head?_cons, Option.toList_some, hone,
            counts_hexExecFinding]
          cases p <;> simp_all [kept, Advanced.kind]
        | zero => cases p <;> simp_all [kept, Advanced.kind]

end Files

/-! ## The report and the score -/

section Report
variable {facts : SourceFacts} {analyzeFile : List UInt8 → List Char → Behavior}
  {source : List UInt8} {relative : List Char} {scripts : List (String × String)}

theorem fileFindings_lead :
    fileFindings (fileAnalysis facts analyzeFile) source relative =
      lead facts (Utf8.lossy source) relative ++
        (List.replicate (exfilCount (Utf8.lossy source)) (exfilFinding relative) ++
          List.replicate (decodeExecCount (Utf8.lossy source)) (decodeExecFinding relative) ++
        (List.replicate (walletCount facts (Utf8.lossy source)) (walletFinding relative) ++
          keepFirst findingKey (stringScan (Utf8.lossy source) relative ++
            astScan facts (Utf8.lossy source) relative))) := by
  rw [fileFindings_eq]
  unfold lead detectAdvancedObfuscation
  simp only [List.append_assoc]

theorem counts_hook {hook : Finding} (h : hook ∈ scripts.map hookFinding) (p : Advanced) :
    hook.kind = .installScript ∧ p.counts hook = false := by
  obtain ⟨script, -, rfl⟩ := List.mem_map.mp h
  have hkind : FindingKind.installScript ≠ p.kind := by cases p <;> decide
  exact ⟨rfl, Advanced.counts_of_kind_ne hkind⟩

theorem counts_keepFirst {text : List Char} {f : Finding}
    (h : f ∈ keepFirst findingKey (stringScan text relative ++ astScan facts text relative))
    (p : Advanced) : p.counts f = false := counts_analyzer (mem_of_mem_keepFirst h) p

/-- What the score finds of a pattern in the report of one file. -/
theorem found_file (p : Advanced) :
    p.found (dedupFindings none (scripts.map hookFinding ++
        fileFindings (fileAnalysis facts analyzeFile) source relative)) =
      kept facts (Utf8.lossy source) relative p := by
  have hmiddle {f : Finding}
      (h : f ∈ List.replicate (exfilCount (Utf8.lossy source)) (exfilFinding relative) ++
        List.replicate (decodeExecCount (Utf8.lossy source)) (decodeExecFinding relative)) :
      f.kind ≠ .cryptoMiner ∧ p.counts f = false := by
    rcases List.mem_append.mp h with hexfil | hdecode
    · rw [List.eq_of_mem_replicate hexfil]
      exact ⟨(fun heq => by cases heq), counts_exfilFinding p⟩
    · rw [List.eq_of_mem_replicate hdecode]
      exact ⟨(fun heq => by cases heq), counts_decodeExecFinding p⟩
  rw [Advanced.found_eq, fileFindings_lead, dedupFindings_eq, Option.map_none]
  by_cases hkind : p.kind = .obfuscation
  · rw [← countP_head_lead hkind]
    refine countP_dropRepeats (k := (.obfuscation, String.ofList relative, 1))
      (fun f hf => ⟨fun heq => ?_, (counts_hook hf p).2⟩) (fun f hf => findingKey_lead hf)
      fun f hf => ?_
    · have hobfuscation : f.kind = .obfuscation := congrArg Prod.fst heq
      rw [(counts_hook hf p).1] at hobfuscation
      cases hobfuscation
    · rcases List.mem_append.mp hf with hfront | hback
      · exact (hmiddle hfront).2
      · rcases List.mem_append.mp hback with hwallet | hanalyzer
        · rw [List.eq_of_mem_replicate hwallet, counts_walletFinding]
          refine decide_eq_false fun heq => ?_
          rw [heq] at hkind
          cases hkind
        · exact counts_keepFirst hanalyzer p
  · have hlead {f : Finding} (h : f ∈ lead facts (Utf8.lossy source) relative) :
        f.kind ≠ .cryptoMiner ∧ p.counts f = false := by
      have hobfuscation : f.kind = .obfuscation := congrArg Prod.fst (findingKey_lead h)
      refine ⟨fun heq => ?_, Advanced.counts_of_kind_ne fun heq => hkind ?_⟩
      · rw [hobfuscation] at heq
        cases heq
      · exact heq.symm.trans hobfuscation
    have hwallets : (List.replicate (walletCount facts (Utf8.lossy source))
        (walletFinding relative)).head?.toList.countP p.counts =
          kept facts (Utf8.lossy source) relative p := by
      cases hcount : walletCount facts (Utf8.lossy source) with
      | zero => cases p <;> simp_all [kept, Advanced.kind]
      | succ n =>
        rw [List.replicate_succ, List.head?_cons, Option.toList_some, List.countP_singleton,
          counts_walletFinding]
        cases p <;> simp_all [kept, Advanced.kind]
    rw [← hwallets, ← List.append_assoc, ← List.append_assoc]
    refine countP_dropRepeats (k := (.cryptoMiner, String.ofList relative, 1))
      (fun f hf => ?_) (fun f hf => ?_) fun f hf => counts_keepFirst hf p
    · have hf : f.kind ≠ .cryptoMiner ∧ p.counts f = false := by
        rcases List.mem_append.mp hf with hfront | hback
        · rcases List.mem_append.mp hfront with hhook | hfirst
          · obtain ⟨hinstall, hnot⟩ := counts_hook hhook p
            refine ⟨fun heq => ?_, hnot⟩
            rw [hinstall] at heq
            cases heq
          · exact hlead hfirst
        · exact hmiddle hback
      exact ⟨fun heq => hf.1 (congrArg Prod.fst heq), hf.2⟩
    · rw [List.eq_of_mem_replicate hf]
      rfl

section Tree
variable (facts) (fs : FileSystem) (packageDir : Location) (rel : List Name)

/-- How often a pattern is found in the file, when it is analysed at all. -/
def counted (p : Advanced) : ℕ :=
  ((source? fs packageDir rel).map fun source => p.count facts (Utf8.lossy source)).getD 0

/-- What the first pass reports on the file. -/
def obfuscationFindings : List Finding :=
  ((source? fs packageDir rel).map fun source =>
    detectObfuscation facts (Utf8.lossy source) (relativePath rel)).getD []

end Tree

/-- Of the patterns that are reported as obfuscation there is one occurrence at most, and none when
the first pass reports anything; there is no exfiltration, and one wallet at most. -/
structure CountedOnce (obfuscation : List Finding) (n : Advanced → ℕ) : Prop where
  one : n .base64 + n .dynamicRequire + n .hexExecution ≤ 1
  first : obfuscation ≠ [] → n .base64 + n .dynamicRequire + n .hexExecution = 0
  envExfiltration : n .envExfiltration = 0
  wallet : n .wallet ≤ 1

theorem kept_le_one (facts : SourceFacts) (text relative : List Char) (p : Advanced) :
    kept facts text relative p ≤ 1 := by
  cases p <;> unfold kept <;> split_ifs <;> decide

/-- The cap of a pattern is more than one occurrence costs. -/
theorem min_unit_eq_iff (p : Advanced) {found n : ℕ} (hfound : found ≤ 1) :
    min ((found * p.unit : ℕ) : ℤ) p.cap = min ((n * p.unit : ℕ) : ℤ) p.cap ↔ n = found := by
  have hunit : 0 < p.unit := by cases p <;> decide
  have hcap : 2 * p.unit ≤ p.cap := by cases p <;> decide
  constructor
  · intro heq
    have hlow : found * p.unit < p.cap := by
      have hle := Nat.mul_le_mul_right p.unit hfound
      omega
    have hsame : n * p.unit = found * p.unit := by omega
    exact Nat.eq_of_mul_eq_mul_right hunit hsame
  · rintro rfl
    rfl

/-- Every pattern is counted as often as it occurs. -/
theorem kept_eq_iff (text relative : List Char) :
    (∀ p : Advanced, p.count facts text = kept facts text relative p) ↔
      CountedOnce (detectObfuscation facts text relative) (Advanced.count facts text) := by
  constructor
  · intro hall
    have hbase64 := hall .base64
    have hdynamic := hall .dynamicRequire
    have hhex := hall .hexExecution
    have hwallet := hall .wallet
    simp only [Advanced.count, kept] at hbase64 hdynamic hhex hwallet
    refine ⟨?_, fun hfirst => ?_, hall .envExfiltration, ?_⟩
    · simp only [Advanced.count]
      split_ifs at hbase64 hdynamic hhex <;> omega
    · simp only [Advanced.count]
      rw [if_neg fun h => hfirst h.1] at hbase64 hdynamic hhex
      omega
    · simp only [Advanced.count]
      split_ifs at hwallet <;> omega
  · intro honce p
    have hone := honce.one
    have hfirst := honce.first
    have hwallet := honce.wallet
    simp only [Advanced.count] at hone hfirst hwallet
    cases p with
    | envExfiltration => exact honce.envExfiltration
    | wallet =>
      simp only [Advanced.count, kept]
      split_ifs <;> omega
    | base64 =>
      simp only [Advanced.count, kept]
      split_ifs <;> grind
    | dynamicRequire =>
      simp only [Advanced.count, kept]
      split_ifs <;> grind
    | hexExecution =>
      simp only [Advanced.count, kept]
      split_ifs <;> grind

section Scan
variable {parseJson : List UInt8 → Except String Value} {fs : FileSystem} {packageDir : Location}
  {rel : List Name} {name version : String} {report : AnalysisReport}

theorem found_report (hfile : fs.walkFiles packageDir = [rel])
    (hscan : scan parseJson (fileAnalysis facts analyzeFile) fs packageDir name version =
      .ok report) (p : Advanced) :
    p.found report.findings = ((source? fs packageDir rel).map fun source =>
      kept facts (Utf8.lossy source) (relativePath rel) p).getD 0 := by
  obtain ⟨scripts, hhooks, -⟩ := Except.bind_eq_ok.mp hscan
  rw [scan_eq_scanInOrder, hfile] at hscan
  rw [findings_eq hhooks hscan, List.flatMap_cons, List.flatMap_nil, List.append_nil]
  unfold findingsAt
  cases source? fs packageDir rel with
  | none =>
    rw [Option.map_none, Option.getD_none, Option.map_none, Option.getD_none, List.append_nil,
      p.found_eq, dedupFindings_eq]
    refine List.countP_eq_zero.mpr fun f hf => ?_
    rw [(counts_hook (mem_of_mem_dropRepeats hf) p).2]
    exact Bool.false_ne_true
  | some source =>
    rw [Option.map_some, Option.getD_some, Option.map_some, Option.getD_some]
    exact found_file p

/-- The penalties of the patterns in the only file of a package follow their occurrences exactly
when the scanner keeps them all. -/
theorem score_counts_iff (hfile : fs.walkFiles packageDir = [rel])
    (hscan : scan parseJson (fileAnalysis facts analyzeFile) fs packageDir name version =
      .ok report) (dir : PackageDir) :
    (∀ p : Advanced, contribution p (computeSafetyScore report dir).value =
        min ((counted facts fs packageDir rel p * p.unit : ℕ) : ℤ) p.cap) ↔
      CountedOnce (obfuscationFindings facts fs packageDir rel)
        (counted facts fs packageDir rel) := by
  have hfound := found_report hfile hscan
  unfold counted obfuscationFindings
  cases hsource : source? fs packageDir rel with
  | none =>
    refine iff_of_true (fun p => ?_) ⟨Nat.zero_le 1, fun hne => absurd rfl hne, rfl, Nat.zero_le 1⟩
    have hnone : p.found report.findings = 0 := by
      rw [hfound p, hsource]
      rfl
    rw [contribution_eq p dir (hnone.le.trans (Nat.zero_le 1)), hnone]
    rfl
  | some source =>
    have hkept (p : Advanced) : p.found report.findings =
        kept facts (Utf8.lossy source) (relativePath rel) p := by
      rw [hfound p, hsource, Option.map_some, Option.getD_some]
    have hle (p : Advanced) := kept_le_one facts (Utf8.lossy source) (relativePath rel) p
    simp only [Option.map_some, Option.getD_some]
    rw [← kept_eq_iff]
    refine forall_congr' fun p => ?_
    rw [contribution_eq p dir ((hkept p).le.trans (hle p)), hkept p]
    exact min_unit_eq_iff p (hle p)

end Scan

end Report

/-! ## Two files -/

namespace Demo
open Registry

def payloadFiles : FileSystem :=
  oneFile "index.js" (asBytes "Buffer.from('aGVsbG8gd29ybGQsIGhlbGxvIHdvcmxk','base64')")

/-- One payload in Base64. -/
def payloadFacts : SourceFacts where
  findCount pattern _ := if pattern = b64BufRe then 1 else 0
  hexDensity _ := none
  shortNames _ := none
  visit _ _ := [(.bufferFrom, 1)]

def secretFiles : FileSystem := oneFile "index.js" (asBytes "fetch(u+process.env.SECRET)")

/-- No regular expression matches. -/
def secretFacts : SourceFacts where
  findCount _ _ := 0
  hexDensity _ := none
  shortNames _ := none
  visit _ _ := [(.processEnv, 1)]

/-- The package has nothing but its file. -/
def oneFileDir : PackageDir where
  has name := name == "index.js"
  walk := [⟨0, false, some "p", none⟩, ⟨1, true, some "index.js", some "js"⟩]

end Demo

open Registry Demo in
theorem score_counts_payload : ∃ report,
    scan noJson (fileAnalysis payloadFacts fun _ _ => {}) payloadFiles [asBytes "p"] "p" "1.0.0" =
      .ok report ∧
    contribution .base64 (computeSafetyScore report oneFileDir).value = 30 := by
  have hcounted : counted payloadFacts payloadFiles [asBytes "p"] [asBytes "index.js"] .base64 = 1 ∧
      counted payloadFacts payloadFiles [asBytes "p"] [asBytes "index.js"] .dynamicRequire = 0 ∧
      counted payloadFacts payloadFiles [asBytes "p"] [asBytes "index.js"] .hexExecution = 0 ∧
      counted payloadFacts payloadFiles [asBytes "p"] [asBytes "index.js"] .envExfiltration = 0 ∧
      counted payloadFacts payloadFiles [asBytes "p"] [asBytes "index.js"] .wallet = 0 ∧
      obfuscationFindings payloadFacts payloadFiles [asBytes "p"] [asBytes "index.js"] = [] := by
    decide +kernel
  obtain ⟨hbase64, hdynamic, hhex, hexfil, hwallet, hfirst⟩ := hcounted
  have honce : CountedOnce
      (obfuscationFindings payloadFacts payloadFiles [asBytes "p"] [asBytes "index.js"])
      (counted payloadFacts payloadFiles [asBytes "p"] [asBytes "index.js"]) := by
    refine ⟨?_, fun hne => absurd hfirst hne, hexfil, hwallet.le.trans (Nat.zero_le 1)⟩
    rw [hbase64, hdynamic, hhex]
  have hfile : payloadFiles.walkFiles [asBytes "p"] = [[asBytes "index.js"]] := by decide
  obtain ⟨report, hscan⟩ : ∃ report, scan noJson (fileAnalysis payloadFacts fun _ _ => {})
      payloadFiles [asBytes "p"] "p" "1.0.0" = .ok report := ⟨_, rfl⟩
  have hscore := (score_counts_iff hfile hscan oneFileDir).mpr honce .base64
  rw [hbase64] at hscore
  exact ⟨report, hscan, hscore⟩

open Registry Demo in
/-- A secret that is sent costs nothing. -/
theorem secret_uncounted : ∃ report,
    scan noJson (fileAnalysis secretFacts fun _ _ => {}) secretFiles [asBytes "p"] "p" "1.0.0" =
      .ok report ∧
    secretFiles.walkFiles [asBytes "p"] = [[asBytes "index.js"]] ∧
    counted secretFacts secretFiles [asBytes "p"] [asBytes "index.js"] .envExfiltration = 1 ∧
    contribution .envExfiltration (computeSafetyScore report oneFileDir).value ≠
      min (1 * 35) 70 := by
  have hsource : source? secretFiles [asBytes "p"] [asBytes "index.js"] =
      some (asBytes "fetch(u+process.env.SECRET)") := by
    decide
  have hfile : secretFiles.walkFiles [asBytes "p"] = [[asBytes "index.js"]] := by decide
  obtain ⟨report, hscan⟩ : ∃ report, scan noJson (fileAnalysis secretFacts fun _ _ => {})
      secretFiles [asBytes "p"] "p" "1.0.0" = .ok report := ⟨_, rfl⟩
  have hnone : Advanced.envExfiltration.found report.findings = 0 := by
    rw [found_report hfile hscan, hsource]
    rfl
  refine ⟨report, hscan, hfile, by decide +kernel, ?_⟩
  rw [contribution_eq _ oneFileDir (hnone.le.trans (Nat.zero_le 1)), hnone]
  decide

end Oath.Analyze
