import Oath.Analyze.Score
import Mathlib.Algebra.Order.Group.Unbundled.Int
import Mathlib.Data.List.InsertIdx

/-! When the score's machine arithmetic is exact, and that an exact score never rises with the
findings. -/

namespace Oath.Analyze
open Machine

section Counting

def countOf (risk : RiskLevel) (findings : List Finding) : ℕ :=
  findings.countP fun f => f.risk = risk

/-- Every counter stays below `2 ^ 32` over these findings. -/
def CountersFit (counts : RiskCounts) (findings : List Finding) : Prop :=
  counts.critical + countOf .critical findings < 2 ^ 32 ∧
    counts.high + countOf .high findings < 2 ^ 32 ∧
    counts.medium + countOf .medium findings < 2 ^ 32 ∧
    counts.low + countOf .low findings < 2 ^ 32

def RiskCounts.plus (counts : RiskCounts) (findings : List Finding) : RiskCounts where
  critical := counts.critical + countOf .critical findings
  high := counts.high + countOf .high findings
  medium := counts.medium + countOf .medium findings
  low := counts.low + countOf .low findings

@[simp] theorem RiskCounts.plus_nil (counts : RiskCounts) : counts.plus [] = counts := rfl

theorem RiskCounts.plus_cons (counts : RiskCounts) (f : Finding) (findings : List Finding) :
    counts.plus (f :: findings) = (counts.plus [f]).plus findings := by
  simp only [RiskCounts.plus, countOf, List.countP_cons, List.countP_nil, RiskCounts.mk.injEq]
  omega

theorem CountersFit.cons_iff {counts : RiskCounts} {f : Finding} {findings : List Finding} :
    CountersFit counts (f :: findings) ↔
      CountersFit counts [f] ∧ CountersFit (counts.plus [f]) findings := by
  simp only [CountersFit, RiskCounts.plus, countOf, List.countP_cons, List.countP_nil]
  omega

theorem counter_spec {β : Type} (count : ℕ) {f : ℕ → Checked β} {post : β → Prop}
    (hf : (f (count + 1)).Spec True post) :
    (unsigned 32 (count + 1) >>= f).Spec (count + 1 < 2 ^ 32) post := by
  have hiff : count + 1 < 2 ^ 32 ↔ FitsUnsigned 32 (count + 1) ∧ True := by
    rw [and_true]
    unfold FitsUnsigned
    omega
  exact (unsigned_bind fun _ => hf).congr hiff

theorem riskCounts_add_spec (counts : RiskCounts) (f : Finding) (hcounts : CountersFit counts []) :
    (counts.add f).Spec (CountersFit counts [f]) fun next => next = counts.plus [f] := by
  have hone (risk : RiskLevel) : countOf risk [f] = if f.risk = risk then 1 else 0 := by
    simp [countOf, List.countP_cons]
  unfold RiskCounts.add
  unfold CountersFit at hcounts ⊢
  simp only [countOf, List.countP_nil] at hcounts
  simp only [RiskCounts.plus, hone]
  cases f.risk with
  | critical =>
    refine Checked.Spec.congr (?_ : Checked.Spec _ (counts.critical + 1 < 2 ^ 32) _) ?_
    · apply counter_spec
      apply Checked.Spec.pure
      simp
    · simp
      omega
  | high =>
    refine Checked.Spec.congr (?_ : Checked.Spec _ (counts.high + 1 < 2 ^ 32) _) ?_
    · apply counter_spec
      apply Checked.Spec.pure
      simp
    · simp
      omega
  | medium =>
    refine Checked.Spec.congr (?_ : Checked.Spec _ (counts.medium + 1 < 2 ^ 32) _) ?_
    · apply counter_spec
      apply Checked.Spec.pure
      simp
    · simp
      omega
  | low =>
    refine Checked.Spec.congr (?_ : Checked.Spec _ (counts.low + 1 < 2 ^ 32) _) ?_
    · apply counter_spec
      apply Checked.Spec.pure
      simp
    · simp
      omega
  | clean => exact (Checked.Spec.pure (by simp)).congr (by simp; omega)
  | info => exact (Checked.Spec.pure (by simp)).congr (by simp; omega)

/-- The induction is on the findings; the counters so far are the invariant. -/
theorem countRisks_spec (findings : List Finding) :
    (countRisks findings).Spec (CountersFit ⟨0, 0, 0, 0⟩ findings)
      fun counts => counts = RiskCounts.plus ⟨0, 0, 0, 0⟩ findings := by
  suffices hall : ∀ (findings : List Finding) (counts : RiskCounts), CountersFit counts [] →
      (findings.foldlM RiskCounts.add counts).Spec (CountersFit counts findings)
        fun final => final = counts.plus findings by
    apply hall
    simp [CountersFit, countOf]
  intro findings
  induction findings with
  | nil =>
    intro counts hcounts
    rw [List.foldlM_nil]
    have hpure : (pure counts : Checked RiskCounts).Spec True fun final => final = counts.plus [] :=
      Checked.Spec.pure rfl
    exact hpure.congr (iff_true_intro hcounts)
  | cons f findings ih =>
    intro counts hcounts
    rw [List.foldlM_cons]
    apply ((riskCounts_add_spec counts f hcounts).bind _).congr CountersFit.cons_iff
    intro hfit next hnext
    rw [hnext]
    simpa only [RiskCounts.plus_cons counts f findings] using ih (counts.plus [f]) hfit

end Counting

section Penalties

/-- Far enough from the ends of 32 bits for this many more factors. -/
def Tally.Banded (room : ℕ) (tally : Tally) : Prop :=
  -2 ^ 31 + (room : ℤ) * 40000 ≤ tally.rawScore ∧
    tally.rawScore + (room : ℤ) * 40000 < 2 ^ 31

/-- A factor moved the score by this weight. -/
def Tally.Moved (tally : Tally) (weight : ℤ) (room : ℕ) (next : Tally) : Prop :=
  next.rawScore = tally.rawScore + weight ∧ next.Banded room

variable {tally : Tally} {room : ℕ}

theorem push_spec (name description : String) {weight : ℤ} (hband : tally.Banded (room + 1))
    (hlow : -40000 ≤ weight) (hhigh : weight ≤ 40000) :
    (tally.push name description weight).Spec True (tally.Moved weight room) := by
  obtain ⟨hmin, hmax⟩ := hband
  push_cast at hmin hmax
  have hfits : FitsSigned 32 (tally.rawScore + weight) := by
    unfold FitsSigned
    omega
  apply signed_seq (by decide) hfits
  apply Checked.Spec.pure
  refine ⟨rfl, ?_⟩
  unfold Tally.Banded
  simp only
  omega

theorem moved_none (hband : tally.Banded (room + 1)) : tally.Moved 0 room tally := by
  obtain ⟨hmin, hmax⟩ := hband
  push_cast at hmin hmax
  refine ⟨(add_zero _).symm, ?_⟩
  unfold Tally.Banded
  omega

/-- A count narrowed to 16 bits and multiplied there is exact up to `32767` in all. -/
theorem riskPenalty_spec (name noun : String) {unit : ℤ} (count : ℕ) (hunit : 0 < unit)
    (hband : tally.Banded (room + 1)) :
    (riskPenalty name noun unit count tally).Spec (count * unit ≤ 32767)
      (tally.Moved (-(count * unit)) room) := by
  unfold riskPenalty
  split
  · case isTrue hcount =>
    have hle : (count : ℤ) ≤ count * unit := le_mul_of_one_le_right (by omega) hunit
    have hiff : count * unit ≤ 32767 ↔ FitsSigned 16 count ∧ FitsSigned 16 (count * unit) ∧
        FitsSigned 16 (-(count * unit)) ∧ True := by
      rw [and_true]
      unfold FitsSigned
      omega
    apply Checked.Spec.congr _ hiff
    apply signed_bind (by decide)
    intro _
    apply signed_bind (by decide)
    intro hproduct
    apply signed_bind (by decide)
    intro _
    unfold FitsSigned at hproduct
    exact push_spec name _ hband (by omega) (by omega)
  · case isFalse hcount =>
    have hzero : count = 0 := by omega
    have hpure : (pure tally : Checked Tally).Spec True (tally.Moved 0 room) :=
      Checked.Spec.pure (moved_none hband)
    subst hzero
    simpa using hpure.congr (iff_true_intro (by simp))

/-- What a factor that may not apply weighs. -/
def flagWeight (weight : ℤ) (applies : Bool) : ℤ := if applies then weight else 0

theorem flagFactor_spec (name description : String) {weight : ℤ} (applies : Bool)
    (hband : tally.Banded (room + 1)) (hlow : -40000 ≤ weight) (hhigh : weight ≤ 40000) :
    (flagFactor name description weight applies tally).Spec True
      (tally.Moved (flagWeight weight applies) room) := by
  unfold flagFactor flagWeight
  cases applies with
  | true => exact push_spec name description hband hlow hhigh
  | false => exact Checked.Spec.pure (moved_none hband)

/-- What a capped pattern weighs. -/
def cappedWeight (unit cap : ℤ) (found : ℕ) : ℤ := -(min (found * unit) cap)

theorem patternPenalty_spec (name noun : String) {unit cap : ℤ} (found : ℕ) (hunit : 0 < unit)
    (hcap : 0 ≤ cap) (hcap' : cap ≤ 32767) (hband : tally.Banded (room + 1)) :
    (patternPenalty name noun unit cap found tally).Spec (found * unit < 2 ^ 31)
      (tally.Moved (cappedWeight unit cap found) room) := by
  have hle : (found : ℤ) ≤ found * unit := le_mul_of_one_le_right (by omega) hunit
  have hiff : found * unit < 2 ^ 31 ↔ FitsSigned 32 found ∧ found * unit < 2 ^ 31 := by
    unfold FitsSigned
    omega
  unfold patternPenalty cappedWeight
  apply Checked.Spec.congr _ hiff
  apply signed_bind (by decide)
  intro _
  split
  · case isTrue hcount =>
    have hproduct : found * unit < 2 ^ 31 ↔ FitsSigned 32 (found * unit) ∧ True := by
      rw [and_true]
      unfold FitsSigned
      omega
    have hnegated : FitsSigned 32 (-(min (found * unit) cap)) := by
      unfold FitsSigned
      omega
    have hpenalty : FitsSigned 16 (-(min (found * unit) cap)) := by
      unfold FitsSigned
      omega
    apply Checked.Spec.congr _ hproduct
    apply signed_bind (by decide)
    intro _
    apply signed_seq (by decide) hnegated
    apply signed_seq (by decide) hpenalty
    exact push_spec name _ hband (by omega) (by omega)
  · case isFalse hcount =>
    have hzero : found = 0 := by omega
    have hpure : (pure tally : Checked Tally).Spec True (tally.Moved 0 room) :=
      Checked.Spec.pure (moved_none hband)
    subst hzero
    simpa [hcap] using hpure.congr (iff_true_intro (by simp))

theorem Tally.Moved.trans {middle next : Tally} {first second : ℤ} {inner : ℕ}
    (hfirst : tally.Moved first inner middle) (hsecond : middle.Moved second room next) :
    tally.Moved (first + second) room next := by
  refine ⟨?_, hsecond.2⟩
  rw [hsecond.1, hfirst.1, add_assoc]

/-- Two factors in a row; the second is applied only where the first is exact. -/
theorem moved_bind {first second : ℤ} {inner : ℕ} {fits rest : Prop} {x : Checked Tally}
    {f : Tally → Checked Tally} (hx : x.Spec fits (tally.Moved first inner))
    (hf : ∀ middle : Tally, middle.Banded inner →
      (f middle).Spec rest (middle.Moved second room)) :
    (x >>= f).Spec (fits ∧ rest) (tally.Moved (first + second) room) := by
  apply hx.bind
  intro _ middle hfirst
  apply (hf middle hfirst.2).imp
  intro next _ hsecond
  exact Tally.Moved.trans hfirst hsecond

theorem moved_seq {first second : ℤ} {inner : ℕ} {rest : Prop} {x : Checked Tally}
    {f : Tally → Checked Tally} (hx : x.Spec True (tally.Moved first inner))
    (hf : ∀ middle : Tally, middle.Banded inner →
      (f middle).Spec rest (middle.Moved second room)) :
    (x >>= f).Spec rest (tally.Moved (first + second) room) :=
  (moved_bind hx hf).congr (iff_and_self.mpr fun _ => trivial)

end Penalties

section Groups

variable {tally : Tally} {room : ℕ}

/-- The four counts narrow and multiply exactly. -/
structure RisksFit (counts : RiskCounts) : Prop where
  critical : (counts.critical : ℤ) * 30 ≤ 32767
  high : (counts.high : ℤ) * 15 ≤ 32767
  medium : (counts.medium : ℤ) * 5 ≤ 32767
  low : (counts.low : ℤ) * 2 ≤ 32767

def riskWeight (counts : RiskCounts) : ℤ :=
  -(counts.critical * 30) + (-(counts.high * 15) + (-(counts.medium * 5) + -(counts.low * 2)))

theorem riskPenalties_spec (counts : RiskCounts) (hband : tally.Banded (room + 4)) :
    (riskPenalties counts tally).Spec (RisksFit counts)
      (tally.Moved (riskWeight counts) room) := by
  have hiff : RisksFit counts ↔ (counts.critical : ℤ) * 30 ≤ 32767 ∧
      (counts.high : ℤ) * 15 ≤ 32767 ∧ (counts.medium : ℤ) * 5 ≤ 32767 ∧
      (counts.low : ℤ) * 2 ≤ 32767 :=
    ⟨fun h => ⟨h.critical, h.high, h.medium, h.low⟩, fun ⟨hc, hh, hm, hl⟩ => ⟨hc, hh, hm, hl⟩⟩
  apply Checked.Spec.congr _ hiff
  apply moved_bind (riskPenalty_spec _ _ counts.critical (by decide) hband)
  intro tally hband
  apply moved_bind (riskPenalty_spec _ _ counts.high (by decide) hband)
  intro tally hband
  apply moved_bind (riskPenalty_spec _ _ counts.medium (by decide) hband)
  intro tally hband
  exact riskPenalty_spec _ _ counts.low (by decide) hband

def capabilityWeight (report : AnalysisReport) : ℤ :=
  flagWeight (-10) report.capabilities.hasInstallScripts +
    (flagWeight (-20) (report.capabilities.network && report.capabilities.envAccess &&
        !isKnownSafeForCapability report.packageName "network" &&
        !isKnownSafeForCapability report.packageName "env_access") +
      (flagWeight (-10) (report.capabilities.dynamicExec &&
          !isKnownSafeForCapability report.packageName "dynamic_exec") +
        flagWeight (-25) (highObfuscation report.findings)))

theorem capabilityPenalties_spec (report : AnalysisReport) (hband : tally.Banded (room + 4)) :
    (capabilityPenalties report tally).Spec True
      (tally.Moved (capabilityWeight report) room) := by
  apply moved_seq (flagFactor_spec _ _ _ hband (by decide) (by decide))
  intro tally hband
  apply moved_seq (flagFactor_spec _ _ _ hband (by decide) (by decide))
  intro tally hband
  apply moved_seq (flagFactor_spec _ _ _ hband (by decide) (by decide))
  intro tally hband
  exact flagFactor_spec _ _ _ hband (by decide) (by decide)

/-- The five pattern counts narrow and multiply exactly. -/
structure PatternsFit (findings : List Finding) : Prop where
  base64 : (patternCount .obfuscation "Base64 payload" findings : ℤ) * 30 < 2 ^ 31
  dynamicRequire : (patternCount .obfuscation "Dynamic require" findings : ℤ) * 25 < 2 ^ 31
  hexString : (patternCount .obfuscation "Hex string execution" findings : ℤ) * 40 < 2 ^ 31
  envExfiltration :
    (patternCount .dataExfiltration "Environment variable exfiltration" findings : ℤ) * 35 < 2 ^ 31
  wallet : (patternCount .cryptoMiner "wallet address" findings : ℤ) * 20 < 2 ^ 31

def patternWeight (findings : List Finding) : ℤ :=
  cappedWeight 30 60 (patternCount .obfuscation "Base64 payload" findings) +
    (cappedWeight 25 50 (patternCount .obfuscation "Dynamic require" findings) +
      (cappedWeight 40 80 (patternCount .obfuscation "Hex string execution" findings) +
        (cappedWeight 35 70
            (patternCount .dataExfiltration "Environment variable exfiltration" findings) +
          cappedWeight 20 60 (patternCount .cryptoMiner "wallet address" findings))))

theorem patternPenalties_spec (report : AnalysisReport) (hband : tally.Banded (room + 5)) :
    (patternPenalties report tally).Spec (PatternsFit report.findings)
      (tally.Moved (patternWeight report.findings) room) := by
  have hiff : PatternsFit report.findings ↔
      (patternCount .obfuscation "Base64 payload" report.findings : ℤ) * 30 < 2 ^ 31 ∧
      (patternCount .obfuscation "Dynamic require" report.findings : ℤ) * 25 < 2 ^ 31 ∧
      (patternCount .obfuscation "Hex string execution" report.findings : ℤ) * 40 < 2 ^ 31 ∧
      (patternCount .dataExfiltration "Environment variable exfiltration" report.findings : ℤ) * 35
        < 2 ^ 31 ∧
      (patternCount .cryptoMiner "wallet address" report.findings : ℤ) * 20 < 2 ^ 31 :=
    ⟨fun h => ⟨h.base64, h.dynamicRequire, h.hexString, h.envExfiltration, h.wallet⟩,
      fun ⟨hb, hd, hh, he, hw⟩ => ⟨hb, hd, hh, he, hw⟩⟩
  apply Checked.Spec.congr _ hiff
  apply moved_bind (patternPenalty_spec _ _ _ (by decide) (by decide) (by decide) hband)
  intro tally hband
  apply moved_bind (patternPenalty_spec _ _ _ (by decide) (by decide) (by decide) hband)
  intro tally hband
  apply moved_bind (patternPenalty_spec _ _ _ (by decide) (by decide) (by decide) hband)
  intro tally hband
  apply moved_bind (patternPenalty_spec _ _ _ (by decide) (by decide) (by decide) hband)
  intro tally hband
  exact patternPenalty_spec _ _ _ (by decide) (by decide) (by decide) hband

def directoryWeight (dir : PackageDir) : ℤ :=
  flagWeight (-5) (!dir.hasReadme) + (flagWeight (-5) (dir.fileCount > 200) +
    (flagWeight 5 (!dir.hasMinified) + (flagWeight 5 dir.hasTypes +
      (flagWeight 5 dir.hasLicense + flagWeight 5 dir.hasTests))))

theorem directoryFactors_spec (dir : PackageDir) (hband : tally.Banded (room + 6)) :
    (directoryFactors dir tally).Spec True (tally.Moved (directoryWeight dir) room) := by
  apply moved_seq (flagFactor_spec _ _ _ hband (by decide) (by decide))
  intro tally hband
  apply moved_seq (flagFactor_spec _ _ _ hband (by decide) (by decide))
  intro tally hband
  apply moved_seq (flagFactor_spec _ _ _ hband (by decide) (by decide))
  intro tally hband
  apply moved_seq (flagFactor_spec _ _ _ hband (by decide) (by decide))
  intro tally hband
  apply moved_seq (flagFactor_spec _ _ _ hband (by decide) (by decide))
  intro tally hband
  exact flagFactor_spec _ _ _ hband (by decide) (by decide)

/-- A score below the verdict's floor is lifted to it. -/
def lifted (risk : RiskLevel) (rawScore : ℤ) : ℤ :=
  match verdictFloor risk with
  | some (floor, _) => max floor rawScore
  | none => rawScore

theorem verdictFloor_bounds {risk : RiskLevel} {floor : ℤ} {description : String}
    (hfloor : verdictFloor risk = some (floor, description)) : 0 ≤ floor ∧ floor ≤ 100 := by
  cases risk <;> simp [verdictFloor] at hfloor <;> omega

theorem behavioralVerdict_spec (report : AnalysisReport) (hband : tally.Banded 1) :
    (behavioralVerdict report tally).Spec True
      fun next => next.rawScore = lifted report.overallRisk tally.rawScore := by
  unfold behavioralVerdict lifted
  cases hfloor : verdictFloor report.overallRisk with
  | none => exact Checked.Spec.pure rfl
  | some pair =>
    obtain ⟨floor, description⟩ := pair
    obtain ⟨hlow, hhigh⟩ := verdictFloor_bounds hfloor
    obtain ⟨hmin, hmax⟩ := hband
    simp only
    split
    · case isTrue hbelow =>
      have hrecovered : FitsSigned 32 (floor - max tally.rawScore 0) := by
        unfold FitsSigned
        omega
      have hweight : FitsSigned 16 (clamp 0 32767 (floor - max tally.rawScore 0)) := by
        unfold FitsSigned clamp
        omega
      apply signed_seq (by decide) hrecovered
      apply signed_seq (by decide) hweight
      apply Checked.Spec.pure
      exact (max_eq_left hbelow.le).symm
    · case isFalse habove =>
      exact Checked.Spec.pure (max_eq_right (not_lt.mp habove)).symm

end Groups

section Exact

/-- The score without any bound on its integers. -/
def exactRaw (report : AnalysisReport) (dir : PackageDir) : ℤ :=
  100 + riskWeight (RiskCounts.plus ⟨0, 0, 0, 0⟩ report.findings) + capabilityWeight report +
    patternWeight report.findings + directoryWeight dir

def exactScore (report : AnalysisReport) (dir : PackageDir) : ℤ :=
  clamp 0 100 (lifted report.overallRisk (exactRaw report dir))

/-- At most 1092 critical, 2184 high, 6553 medium and 16383 low findings, and no more
messages of one pattern than its unit allows in 32 bits. -/
structure CountsFit (findings : List Finding) : Prop where
  critical : countOf .critical findings ≤ 1092
  high : countOf .high findings ≤ 2184
  medium : countOf .medium findings ≤ 6553
  low : countOf .low findings ≤ 16383
  base64 : patternCount .obfuscation "Base64 payload" findings ≤ 71582788
  dynamicRequire : patternCount .obfuscation "Dynamic require" findings ≤ 85899345
  hexString : patternCount .obfuscation "Hex string execution" findings ≤ 53687091
  envExfiltration :
    patternCount .dataExfiltration "Environment variable exfiltration" findings ≤ 61356675
  wallet : patternCount .cryptoMiner "wallet address" findings ≤ 107374182

theorem countsFit_iff {findings : List Finding} : CountsFit findings ↔
    CountersFit ⟨0, 0, 0, 0⟩ findings ∧
      RisksFit (RiskCounts.plus ⟨0, 0, 0, 0⟩ findings) ∧ PatternsFit findings := by
  constructor
  · intro h
    have hcritical := h.critical
    have hhigh := h.high
    have hmedium := h.medium
    have hlow := h.low
    refine ⟨?_, ⟨?_, ?_, ?_, ?_⟩, ⟨?_, ?_, ?_, ?_, ?_⟩⟩
    · unfold CountersFit
      simp only
      omega
    · simp only [RiskCounts.plus]
      omega
    · simp only [RiskCounts.plus]
      omega
    · simp only [RiskCounts.plus]
      omega
    · simp only [RiskCounts.plus]
      omega
    · have := h.base64
      omega
    · have := h.dynamicRequire
      omega
    · have := h.hexString
      omega
    · have := h.envExfiltration
      omega
    · have := h.wallet
      omega
  · intro ⟨_, hrisks, hpatterns⟩
    obtain ⟨hcritical, hhigh, hmedium, hlow⟩ := hrisks
    obtain ⟨hbase, hdynamic, hhex, henv, hwallet⟩ := hpatterns
    simp only [RiskCounts.plus] at hcritical hhigh hmedium hlow
    constructor <;> omega

theorem computeSafetyScore_spec (report : AnalysisReport) (dir : PackageDir) :
    (computeSafetyScore report dir).Spec (CountsFit report.findings)
      fun score => (score.score : ℤ) = exactScore report dir := by
  apply Checked.Spec.congr _ countsFit_iff
  apply (countRisks_spec report.findings).bind
  intro _ counts hcounts
  rw [hcounts]
  have hstart : Tally.Banded 20 ⟨100, []⟩ := by
    unfold Tally.Banded
    simp
  apply (riskPenalties_spec _ hstart).bind
  intro _ first hfirst
  apply (capabilityPenalties_spec report hfirst.2).seq trivial
  intro second hsecond
  apply (patternPenalties_spec report hsecond.2).bind_exact
  intro third hthird
  apply (directoryFactors_spec dir hthird.2).seq trivial
  intro fourth hfourth
  apply (behavioralVerdict_spec report hfourth.2).seq trivial
  intro final hfinal
  have hraw : fourth.rawScore = exactRaw report dir := by
    rw [hfourth.1, hthird.1, hsecond.1, hfirst.1]
    rfl
  have hfits : FitsUnsigned 8 (clamp 0 100 final.rawScore) := by
    unfold FitsUnsigned clamp
    omega
  apply unsigned_seq hfits
  apply Checked.Spec.pure
  change ((clamp 0 100 final.rawScore).toNat : ℤ) = exactScore report dir
  rw [Int.toNat_of_nonneg hfits.1, hfinal, hraw]
  rfl

end Exact

section Context

variable {score : SafetyScore}

def exactDev (ctx : ScoreContext) (score : ℤ) : ℤ :=
  if ctx.isDev ∧ score < 100 then score + (100 - score) * 40 / 100 else score

def exactPopular (ctx : ScoreContext) (critical : Bool) (score : ℤ) : ℤ :=
  if 1000000 ≤ ctx.weeklyDownloads ∧ critical = false then max score 90 else score

def exactSuspicion (ctx : ScoreContext) (score : ℤ) : ℤ :=
  if 0 < ctx.weeklyDownloads ∧ ctx.weeklyDownloads < 100 ∧ ctx.ageDays < 30 then max (score - 15) 0
  else score

/-- A step of the context gives this score, and one out of a hundred again. -/
def SafetyScore.Is (score : SafetyScore) (exact : ℤ) : Prop :=
  (score.score : ℤ) = exact ∧ score.score ≤ 100

theorem devDiscount_spec (ctx : ScoreContext) (hscore : score.score ≤ 100) :
    (devDiscount ctx score).Spec True fun next => next.Is (exactDev ctx score.score) := by
  unfold devDiscount
  split
  · case isTrue happlies =>
    have hcond : ctx.isDev = true ∧ score.score < 100 := by simpa using happlies
    have hexact : exactDev ctx score.score = score.score + (100 - score.score) * 40 / 100 := by
      have hbelow : (score.score : ℤ) < 100 := by omega
      exact if_pos ⟨hcond.1, hbelow⟩
    have hlost : FitsSigned 32 (100 - (score.score : ℤ)) := by
      unfold FitsSigned
      omega
    have hproduct : FitsSigned 32 ((100 - (score.score : ℤ)) * 40) := by
      unfold FitsSigned
      omega
    have hdiv : ((100 - (score.score : ℤ)) * 40).tdiv 100 = (100 - score.score) * 40 / 100 :=
      Int.tdiv_eq_ediv_of_nonneg (by omega)
    apply signed_seq (by decide) hlost
    apply signed_seq (by decide) hproduct
    rw [hdiv]
    have hsum : FitsSigned 32 (score.score + (100 - (score.score : ℤ)) * 40 / 100) := by
      unfold FitsSigned
      omega
    apply signed_seq (by decide) hsum
    have hnext : FitsUnsigned 8
        (clamp 0 100 (score.score + (100 - (score.score : ℤ)) * 40 / 100)) := by
      unfold FitsUnsigned clamp
      omega
    apply unsigned_seq hnext
    have hvalue : ((clamp 0 100 (score.score + (100 - (score.score : ℤ)) * 40 / 100)).toNat : ℤ) =
        exactDev ctx score.score := by
      rw [Int.toNat_of_nonneg hnext.1, hexact]
      unfold clamp
      omega
    have hsmall : (clamp 0 100 (score.score + (100 - (score.score : ℤ)) * 40 / 100)).toNat ≤ 100 := by
      unfold clamp
      omega
    split
    · have hweight : FitsSigned 16 ((100 - (score.score : ℤ)) * 40 / 100) := by
        unfold FitsSigned
        omega
      apply signed_seq (by decide) hweight
      exact Checked.Spec.pure ⟨hvalue, hsmall⟩
    · exact Checked.Spec.pure ⟨hvalue, hsmall⟩
  · case isFalse hnot =>
    apply Checked.Spec.pure
    refine ⟨?_, hscore⟩
    unfold exactDev
    rw [if_neg]
    intro ⟨hdev, hbelow⟩
    apply hnot
    simp [hdev]
    omega

theorem popularityTrust_spec (report : AnalysisReport) (ctx : ScoreContext)
    (hscore : score.score ≤ 100) : (popularityTrust report ctx score).Spec True
      fun next => next.Is (exactPopular ctx (hasCritical report.findings) score.score) := by
  unfold popularityTrust exactPopular
  by_cases htrusted : 1000000 ≤ ctx.weeklyDownloads ∧ hasCritical report.findings = false
  · rw [if_pos htrusted]
    split
    · case isTrue happlies =>
      have hbelow : score.score < 90 := by
        simp at happlies
        exact happlies.2
      have hrecovered : FitsSigned 16 (90 - (score.score : ℤ)) := by
        unfold FitsSigned
        omega
      apply signed_seq (by decide) hrecovered
      apply Checked.Spec.pure
      refine ⟨?_, (by decide : 90 ≤ 100)⟩
      change ((90 : ℕ) : ℤ) = max (score.score : ℤ) 90
      omega
    · case isFalse hnot =>
      apply Checked.Spec.pure
      refine ⟨?_, hscore⟩
      have habove : 90 ≤ score.score := by
        simp [htrusted] at hnot
        exact hnot
      omega
  · rw [if_neg htrusted, if_neg]
    · exact Checked.Spec.pure ⟨rfl, hscore⟩
    · intro happlies
      apply htrusted
      simp at happlies
      exact happlies.1

theorem suspicionBoost_spec (ctx : ScoreContext) (hscore : score.score ≤ 100) :
    (suspicionBoost ctx score).Spec True
      fun next => next.Is (exactSuspicion ctx score.score) := by
  unfold suspicionBoost exactSuspicion
  by_cases hnew : 0 < ctx.weeklyDownloads ∧ ctx.weeklyDownloads < 100 ∧ ctx.ageDays < 30
  · rw [if_pos hnew, if_pos (by simpa [and_assoc] using hnew)]
    have hsum : FitsSigned 32 ((score.score : ℤ) + -15) := by
      unfold FitsSigned
      omega
    have hnext : FitsUnsigned 8 (max ((score.score : ℤ) + -15) 0) := by
      unfold FitsUnsigned
      omega
    apply signed_seq (by decide) hsum
    apply unsigned_seq hnext
    apply Checked.Spec.pure
    constructor
    · change ((max ((score.score : ℤ) + -15) 0).toNat : ℤ) = max ((score.score : ℤ) - 15) 0
      rw [Int.toNat_of_nonneg hnext.1]
      rfl
    · change (max ((score.score : ℤ) + -15) 0).toNat ≤ 100
      omega
  · rw [if_neg hnew, if_neg (by simpa [and_assoc] using hnew)]
    exact Checked.Spec.pure ⟨rfl, hscore⟩

def exactContextual (report : AnalysisReport) (dir : PackageDir) (ctx : ScoreContext) : ℤ :=
  exactSuspicion ctx (exactPopular ctx (hasCritical report.findings)
    (exactDev ctx (exactScore report dir)))

theorem exactScore_bounds (report : AnalysisReport) (dir : PackageDir) :
    0 ≤ exactScore report dir ∧ exactScore report dir ≤ 100 := by
  unfold exactScore clamp
  omega

theorem computeSafetyScoreContextual_spec (report : AnalysisReport) (dir : PackageDir)
    (ctx : ScoreContext) :
    (computeSafetyScoreContextual report dir ctx).Spec (CountsFit report.findings)
      fun score => score.Is (exactContextual report dir ctx) := by
  apply (computeSafetyScore_spec report dir).bind_exact
  intro first hfirst
  have hsmall : first.score ≤ 100 := by
    have hbounds := exactScore_bounds report dir
    omega
  apply (devDiscount_spec ctx hsmall).seq trivial
  intro second ⟨hsecond, hsecond'⟩
  apply (popularityTrust_spec report ctx hsecond').seq trivial
  intro third ⟨hthird, hthird'⟩
  apply (suspicionBoost_spec ctx hthird').imp
  intro final _ hfinal
  rw [hthird, hsecond, hfirst] at hfinal
  exact hfinal

end Context

section Antitone

/-- The same package and verdict, with more findings and capabilities. -/
structure ReportGrows (report report' : AnalysisReport) : Prop where
  packageName : report'.packageName = report.packageName
  overallRisk : report'.overallRisk = report.overallRisk
  findings : report.findings.Sublist report'.findings
  hasInstallScripts : report.capabilities.hasInstallScripts = true →
    report'.capabilities.hasInstallScripts = true
  network : report.capabilities.network = true → report'.capabilities.network = true
  envAccess : report.capabilities.envAccess = true → report'.capabilities.envAccess = true
  dynamicExec : report.capabilities.dynamicExec = true → report'.capabilities.dynamicExec = true

variable {report report' : AnalysisReport}

theorem flagWeight_antitone {weight : ℤ} {applies applies' : Bool} (hweight : weight ≤ 0)
    (himp : applies = true → applies' = true) :
    flagWeight weight applies' ≤ flagWeight weight applies := by
  unfold flagWeight
  cases applies with
  | true =>
    rw [himp rfl]
  | false =>
    split <;> simp [hweight]

theorem cappedWeight_antitone {unit cap : ℤ} {found found' : ℕ} (hunit : 0 ≤ unit)
    (hle : found ≤ found') : cappedWeight unit cap found' ≤ cappedWeight unit cap found := by
  have hproduct : (found : ℤ) * unit ≤ found' * unit :=
    mul_le_mul_of_nonneg_right (by exact_mod_cast hle) hunit
  unfold cappedWeight
  omega

theorem any_mono {α : Type} {p : α → Bool} {as bs : List α} (hsub : as.Sublist bs)
    (hany : as.any p = true) : bs.any p = true := by
  obtain ⟨a, hmem, hp⟩ := List.any_eq_true.mp hany
  exact List.any_eq_true.mpr ⟨a, hsub.subset hmem, hp⟩

theorem riskWeight_antitone (hsub : report.findings.Sublist report'.findings) :
    riskWeight (RiskCounts.plus ⟨0, 0, 0, 0⟩ report'.findings) ≤
      riskWeight (RiskCounts.plus ⟨0, 0, 0, 0⟩ report.findings) := by
  have hcount (risk : RiskLevel) : countOf risk report.findings ≤ countOf risk report'.findings :=
    hsub.countP_le
  have hcritical := hcount .critical
  have hhigh := hcount .high
  have hmedium := hcount .medium
  have hlow := hcount .low
  simp only [riskWeight, RiskCounts.plus]
  omega

theorem capabilityWeight_antitone (hgrows : ReportGrows report report') :
    capabilityWeight report' ≤ capabilityWeight report := by
  unfold capabilityWeight
  rw [hgrows.packageName]
  apply add_le_add
  · exact flagWeight_antitone (by decide) hgrows.hasInstallScripts
  apply add_le_add
  · apply flagWeight_antitone (by decide)
    simp only [Bool.and_eq_true]
    intro ⟨⟨⟨hnetwork, henv⟩, hknown⟩, hknown'⟩
    exact ⟨⟨⟨hgrows.network hnetwork, hgrows.envAccess henv⟩, hknown⟩, hknown'⟩
  apply add_le_add
  · apply flagWeight_antitone (by decide)
    simp only [Bool.and_eq_true]
    intro ⟨hdynamic, hknown⟩
    exact ⟨hgrows.dynamicExec hdynamic, hknown⟩
  · exact flagWeight_antitone (by decide) (any_mono hgrows.findings)

theorem patternWeight_antitone (hsub : report.findings.Sublist report'.findings) :
    patternWeight report'.findings ≤ patternWeight report.findings := by
  have hcount (kind : FindingKind) (text : String) :
      patternCount kind text report.findings ≤ patternCount kind text report'.findings :=
    hsub.countP_le
  unfold patternWeight
  apply add_le_add (cappedWeight_antitone (by decide) (hcount _ _))
  apply add_le_add (cappedWeight_antitone (by decide) (hcount _ _))
  apply add_le_add (cappedWeight_antitone (by decide) (hcount _ _))
  apply add_le_add (cappedWeight_antitone (by decide) (hcount _ _))
  exact cappedWeight_antitone (by decide) (hcount _ _)

theorem lifted_mono (risk : RiskLevel) {raw raw' : ℤ} (hle : raw ≤ raw') :
    lifted risk raw ≤ lifted risk raw' := by
  unfold lifted
  cases verdictFloor risk with
  | none => exact hle
  | some pair => exact max_le_max_left _ hle

theorem exactScore_antitone (hgrows : ReportGrows report report') (dir : PackageDir) :
    exactScore report' dir ≤ exactScore report dir := by
  have hrisk := riskWeight_antitone hgrows.findings
  have hcapability := capabilityWeight_antitone hgrows
  have hpattern := patternWeight_antitone hgrows.findings
  have hraw : exactRaw report' dir ≤ exactRaw report dir := by
    unfold exactRaw
    omega
  have hlifted := lifted_mono report.overallRisk hraw
  unfold exactScore clamp
  rw [hgrows.overallRisk]
  omega

theorem exactDev_mono (ctx : ScoreContext) {score score' : ℤ} (hle : score ≤ score')
    (hhundred : score' ≤ 100) : exactDev ctx score ≤ exactDev ctx score' := by
  unfold exactDev
  cases ctx.isDev with
  | false => simpa using hle
  | true =>
    simp only [true_and]
    split <;> split <;> omega

theorem exactPopular_mono (ctx : ScoreContext) {critical critical' : Bool} {score score' : ℤ}
    (hcritical : critical' = true → critical = true) (hle : score ≤ score') :
    exactPopular ctx critical score ≤ exactPopular ctx critical' score' := by
  unfold exactPopular
  split
  · case isTrue htrusted =>
    have hnone : critical' = false := by
      cases hvalue : critical' with
      | false => rfl
      | true => simpa [hcritical hvalue] using htrusted.2
    rw [if_pos ⟨htrusted.1, hnone⟩]
    omega
  · split <;> omega

theorem exactSuspicion_mono (ctx : ScoreContext) {score score' : ℤ} (hle : score ≤ score') :
    exactSuspicion ctx score ≤ exactSuspicion ctx score' := by
  unfold exactSuspicion
  split <;> omega

theorem exactContextual_antitone (hgrows : ReportGrows report report') (dir : PackageDir)
    (ctx : ScoreContext) :
    exactContextual report' dir ctx ≤ exactContextual report dir ctx := by
  have hscore := exactScore_antitone hgrows dir
  have hdev := exactDev_mono ctx hscore (exactScore_bounds report dir).2
  have hcritical : hasCritical report.findings = true → hasCritical report'.findings = true :=
    any_mono hgrows.findings
  exact exactSuspicion_mono ctx (exactPopular_mono ctx hcritical hdev)

end Antitone

section Soundness

inductive Capability
  | network
  | filesystem
  | envAccess
  | subprocess
  | dynamicExec
  | hasInstallScripts
  | nativeAddon
deriving DecidableEq, Repr

def Capabilities.grant (capabilities : Capabilities) : Capability → Capabilities
  | .network => { capabilities with network := true }
  | .filesystem => { capabilities with filesystem := true }
  | .envAccess => { capabilities with envAccess := true }
  | .subprocess => { capabilities with subprocess := true }
  | .dynamicExec => { capabilities with dynamicExec := true }
  | .hasInstallScripts => { capabilities with hasInstallScripts := true }
  | .nativeAddon => { capabilities with nativeAddon := true }

/-- One more finding, anywhere in the list, or one more capability. -/
inductive Addition
  | finding (position : ℕ) (finding : Finding)
  | capability (capability : Capability)

def AnalysisReport.extend (report : AnalysisReport) : Addition → AnalysisReport
  | .finding position finding =>
    { report with findings := report.findings.insertIdx position finding }
  | .capability capability =>
    { report with capabilities := report.capabilities.grant capability }

theorem extend_grows (report : AnalysisReport) (addition : Addition) :
    ReportGrows report (report.extend addition) := by
  cases addition with
  | finding position finding =>
    exact ⟨rfl, rfl, List.sublist_insertIdx _ _ _, id, id, id, id⟩
  | capability capability =>
    refine ⟨rfl, rfl, List.Sublist.refl _, ?_, ?_, ?_, ?_⟩
    all_goals
      intro hflag
      cases capability <;> first | exact hflag | rfl

theorem CountsFit.mono {findings findings' : List Finding} (hsub : findings.Sublist findings')
    (hfit : CountsFit findings') : CountsFit findings where
  critical := hsub.countP_le.trans hfit.critical
  high := hsub.countP_le.trans hfit.high
  medium := hsub.countP_le.trans hfit.medium
  low := hsub.countP_le.trans hfit.low
  base64 := hsub.countP_le.trans hfit.base64
  dynamicRequire := hsub.countP_le.trans hfit.dynamicRequire
  hexString := hsub.countP_le.trans hfit.hexString
  envExfiltration := hsub.countP_le.trans hfit.envExfiltration
  wallet := hsub.countP_le.trans hfit.wallet

/-- Both computations are exact, end in a score out of a hundred, and the second report does not
score above the first. -/
def SoundScores (before after : Checked SafetyScore) : Prop :=
  before.inRange = true ∧ after.inRange = true ∧ before.value.score ≤ 100 ∧
    after.value.score ≤ 100 ∧ after.value.score ≤ before.value.score

theorem soundScores_iff {before after : Checked SafetyScore} {fits fits' : Prop} {exact exact' : ℤ}
    (hbefore : before.Spec fits fun score => score.Is exact)
    (hafter : after.Spec fits' fun score => score.Is exact') (himp : fits' → fits)
    (hle : exact' ≤ exact) : SoundScores before after ↔ fits' := by
  constructor
  · intro hsound
    exact hafter.inRange.mp hsound.2.1
  · intro hfits
    obtain ⟨hvalue, hsmall⟩ := hbefore.value (himp hfits)
    obtain ⟨hvalue', hsmall'⟩ := hafter.value hfits
    refine ⟨hbefore.inRange.mpr (himp hfits), hafter.inRange.mpr hfits, hsmall, hsmall', ?_⟩
    omega

theorem computeSafetyScore_is (report : AnalysisReport) (dir : PackageDir) :
    (computeSafetyScore report dir).Spec (CountsFit report.findings)
      fun score => score.Is (exactScore report dir) := by
  apply (computeSafetyScore_spec report dir).imp
  intro score _ hscore
  have hbounds := exactScore_bounds report dir
  exact ⟨hscore, by omega⟩

/-- The score is sound for a report and an addition to it exactly when the counts of the
extended report fit the widths they are multiplied in. -/
theorem score_sound_iff (report : AnalysisReport) (dir : PackageDir) (addition : Addition) :
    (SoundScores (computeSafetyScore report dir)
        (computeSafetyScore (report.extend addition) dir) ∧
      ∀ ctx, SoundScores (computeSafetyScoreContextual report dir ctx)
        (computeSafetyScoreContextual (report.extend addition) dir ctx)) ↔
      CountsFit (report.extend addition).findings := by
  have hgrows := extend_grows report addition
  have himp : CountsFit (report.extend addition).findings → CountsFit report.findings :=
    CountsFit.mono hgrows.findings
  have hplain := soundScores_iff (computeSafetyScore_is report dir)
    (computeSafetyScore_is (report.extend addition) dir) himp (exactScore_antitone hgrows dir)
  constructor
  · intro ⟨hsound, _⟩
    exact hplain.mp hsound
  · intro hfits
    refine ⟨hplain.mpr hfits, ?_⟩
    intro ctx
    apply (soundScores_iff (computeSafetyScoreContextual_spec report dir ctx)
      (computeSafetyScoreContextual_spec _ dir ctx) himp
      (exactContextual_antitone hgrows dir ctx)).mpr
    exact hfits

def demoFinding (risk : RiskLevel) : Finding where
  kind := .network
  risk := risk
  message := "sends data"
  file := "index.js"
  line := 1
  snippet := none

def demoReport (findings : List Finding) : AnalysisReport where
  packageName := "demo"
  packageVersion := "1.0.0"
  overallRisk := .critical
  findings := findings
  filesScanned := 1
  linesScanned := 10
  capabilities := {}
  verdictReasons := []

def emptyDir : PackageDir where
  has := fun _ => false
  walk := []

def crowdedReport : AnalysisReport := demoReport (List.replicate 1092 (demoFinding .critical))

def overcrowdedReport : AnalysisReport :=
  crowdedReport.extend (.finding 0 (demoFinding .critical))

/-- One critical finding too many turns the penalty around: the score goes from 0 to 100. -/
theorem score_unsound :
    (computeSafetyScore crowdedReport emptyDir).value.score = 0 ∧
      (computeSafetyScore overcrowdedReport emptyDir).inRange = false ∧
      (computeSafetyScore overcrowdedReport emptyDir).value.score = 100 ∧
      ¬ ∀ report dir addition, SoundScores (computeSafetyScore report dir)
        (computeSafetyScore (report.extend addition) dir) := by
  refine ⟨by decide +kernel, by decide +kernel, by decide +kernel, ?_⟩
  intro hall
  have hsound := hall crowdedReport emptyDir (.finding 0 (demoFinding .critical))
  have hfits := (computeSafetyScore_spec _ _).inRange.mp hsound.2.1
  have hcount : countOf .critical (List.replicate 1093 (demoFinding .critical)) ≤ 1092 :=
    hfits.critical
  rw [countOf, List.countP_replicate] at hcount
  exact absurd hcount (by decide)

end Soundness

end Oath.Analyze
