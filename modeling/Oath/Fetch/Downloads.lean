import Oath.Fetch.StreamedIntegrity

/-! When a download gives a file: it comes whole and within the limits, after failures that may
pass, and with the hash that is asked for. -/

namespace Oath.Fetch
open Core

/-! ## What a registry may answer -/

/-- A failure after which the request is made again. -/
def Transient (limits : TarballLimits) : Attempt → Prop
  | .failed retryable => retryable = true
  | .response retryStatus success contentLength chunks streamError =>
    retryStatus = true ∨ (success = true ∧ contentLength.getD 0 ≤ limits.maxArchiveBytes ∧
      chunks.flatten.length ≤ limits.maxArchiveBytes ∧ streamError = some true)

/-- The file comes within the limits, after transient failures only and in one of the attempts that
are made. -/
structure Received (limits : TarballLimits) (remaining : ℕ) (failures : List Attempt)
    (retryStatus : Bool) (contentLength : Option ℕ) (chunks : List (List UInt8)) : Prop where
  transient (attempt : Attempt) : attempt ∈ failures → Transient limits attempt
  made : failures.length < remaining
  status : retryStatus = true → failures.length + 1 = remaining
  announced : contentLength.getD 0 ≤ limits.maxArchiveBytes
  size : chunks.flatten.length ≤ limits.maxArchiveBytes

section Client
variable {hashes : Hashes} {limits : TarballLimits} {sri : String}

theorem mem_encodeBytes {bytes : List UInt8} {c : Char} (h : c ∈ Base64.encodeBytes bytes) :
    c = '=' ∨ ∃ n, c = Base64.digit n := by
  fun_induction Base64.encodeBytes bytes with
  | case1 a b d rest n ih =>
    simp only [List.mem_cons] at h
    rcases h with rfl | rfl | rfl | rfl | hrest
    · exact .inr ⟨_, rfl⟩
    · exact .inr ⟨_, rfl⟩
    · exact .inr ⟨_, rfl⟩
    · exact .inr ⟨_, rfl⟩
    · exact ih hrest
  | case2 a b n =>
    simp only [List.mem_cons, List.not_mem_nil, or_false] at h
    rcases h with rfl | rfl | rfl | rfl
    · exact .inr ⟨_, rfl⟩
    · exact .inr ⟨_, rfl⟩
    · exact .inr ⟨_, rfl⟩
    · exact .inl rfl
  | case3 a n =>
    simp only [List.mem_cons, List.not_mem_nil, or_false] at h
    rcases h with rfl | rfl | rfl | rfl
    · exact .inr ⟨_, rfl⟩
    · exact .inr ⟨_, rfl⟩
    · exact .inl rfl
    · exact .inl rfl
  | case4 => cases h

theorem isWhitespace_digit (n : ℕ) : isWhitespace (Base64.digit n) = false := by
  by_cases h : n < 64
  · have hall : ∀ n < 64, isWhitespace (Base64.digit n) = false := by decide
    exact hall n h
  · rw [Base64.digit_of_le (Nat.le_of_not_lt h)]
    decide

theorem isWhitespace_sri {digest : List UInt8} {c : Char}
    (h : c ∈ ("sha256-" ++ Base64.encode digest).toList) : isWhitespace c = false := by
  rw [String.toList_append, List.mem_append] at h
  rcases h with htag | hdigits
  · have hall : ∀ c ∈ ['s', 'h', 'a', '2', '5', '6', '-'], isWhitespace c = false := by
      simp [isWhitespace]
    exact hall c htag
  · rw [Base64.encode, String.toList_ofList] at hdigits
    rcases mem_encodeBytes hdigits with rfl | ⟨n, rfl⟩
    · decide
    · exact isWhitespace_digit n

theorem encode_ne_empty {digest : List UInt8} (h : digest ≠ []) : Base64.encode digest ≠ "" := by
  intro hempty
  have hdecode := Base64.decode_eq_some.mpr hempty.symm
  have hnil : Base64.decode "" = some [] := rfl
  rw [hnil] at hdecode
  exact h (Option.some.inj hdecode).symm

theorem encode_inj {a b : List UInt8} (h : Base64.encode a = Base64.encode b) : a = b := by
  have hdecode := Base64.decode_eq_some.mpr h
  rw [Base64.decode_eq_some.mpr rfl] at hdecode
  exact Option.some.inj hdecode

/-- The integrity that the registry gives lists one hash. -/
theorem lists_sha256 {digest : List UInt8} (hdigest : digest ≠ []) :
    Lists ("sha256-" ++ Base64.encode digest) [⟨"sha256".toList, Base64.encode digest⟩] := by
  have hword : splitWhitespace ("sha256-" ++ Base64.encode digest) =
      [("sha256-" ++ Base64.encode digest).toList] := by
    unfold splitWhitespace
    rw [List.splitOnP_eq_singleton fun c hc => isWhitespace_sri hc]
    simp
  unfold Lists
  rw [hword, List.forall₂_cons]
  have hname : '-' ∉ "sha256".toList := by decide
  refine ⟨⟨?_, hname, encode_ne_empty hdigest⟩, .nil⟩
  rw [String.toList_append]
  rfl

theorem new_sha256 {digest : List UInt8} (hdigest : digest ≠ []) :
    IntegrityVerifier.new ("sha256-" ++ Base64.encode digest) =
      .ok ⟨.sha256, [], [Base64.encode digest]⟩ := by
  have htokens : (splitWhitespace ("sha256-" ++ Base64.encode digest)).mapM parseToken =
      .ok [("sha256".toList, Base64.encode digest)] := mapM_parseToken.mpr (lists_sha256 hdigest)
  exact Except.bind_eq_ok.mpr ⟨_, htokens, rfl⟩

/-- What passes has the digest that the integrity was made of. -/
theorem matches_sha256 {digest data : List UInt8} (hdigest : digest ≠ []) :
    Matches hashes data ("sha256-" ++ Base64.encode digest) ↔ hashes.sha256 data = digest := by
  have hnew := new_sha256 hdigest
  constructor
  · rintro ⟨verifier, hverifier, hmem⟩
    obtain rfl := Except.ok.inj (hnew.symm.trans hverifier)
    exact encode_inj (List.mem_singleton.mp hmem)
  · intro hdata
    refine ⟨_, hnew, ?_⟩
    rw [← hdata]
    exact List.mem_singleton_self _

/-! ## One response -/

theorem checkArchiveSize_ok {bytes : ℕ} :
    checkArchiveSize limits bytes = .ok () ↔ bytes ≤ limits.maxArchiveBytes := by
  unfold checkArchiveSize
  split_ifs with h
  · exact ⟨fun h' => (by cases h'), fun h' => absurd h' (Nat.not_le.mpr h)⟩
  · exact ⟨fun _ => Nat.not_lt.mp h, fun _ => rfl⟩

/-- Chunks are taken as long as the file stays within the limit. -/
theorem receiveChunks_eq_ok {chunks : List (List UInt8)} {file : List UInt8}
    {verifier : Option IntegrityVerifier} (hfile : file.length ≤ limits.maxArchiveBytes) :
    (∃ result, receiveChunks limits chunks file verifier = .ok result) ↔
      (file ++ chunks.flatten).length ≤ limits.maxArchiveBytes := by
  induction chunks generalizing file verifier with
  | nil =>
    rw [List.flatten_nil, List.append_nil]
    exact ⟨fun _ => hfile, fun _ => ⟨_, rfl⟩⟩
  | cons chunk rest ih =>
    rw [List.flatten_cons, ← List.append_assoc]
    constructor
    · rintro ⟨result, h⟩
      obtain ⟨_, hsize, h1⟩ := Except.bind_eq_ok.mp h
      have hle := checkArchiveSize_ok.mp hsize
      rw [← List.length_append] at hle
      exact (ih hle).mp ⟨result, h1⟩
    · intro h
      have hle : (file ++ chunk).length ≤ limits.maxArchiveBytes := by
        rw [List.length_append] at h
        omega
      obtain ⟨result, hresult⟩ := (@ih _ (verifier.map (·.update chunk)) hle).mpr h
      rw [List.length_append] at hle
      exact ⟨result, Except.bind_eq_ok.mpr ⟨(), checkArchiveSize_ok.mpr hle, hresult⟩⟩

theorem newVerifier_ok {verifier : IntegrityVerifier}
    (hnew : IntegrityVerifier.new sri = .ok verifier) :
    newVerifier (some sri) = .ok (some verifier) := by
  unfold newVerifier
  dsimp only
  rw [hnew]

/-- The file of a response is there when all of it came, within the limits, and it passes. -/
theorem receiveBody_eq_some {chunks : List (List UInt8)} {streamError : Option Bool} {last : Bool}
    {file : List UInt8} {verifier : IntegrityVerifier}
    (hnew : IntegrityVerifier.new sri = .ok verifier) :
    receiveBody hashes limits (some sri) chunks streamError last = .ok (some file) ↔
      streamError = none ∧ chunks.flatten.length ≤ limits.maxArchiveBytes ∧
        chunks.flatten = file ∧ Matches hashes file sri := by
  have hlimit : (∃ result, receiveChunks limits chunks [] (some verifier) = .ok result) ↔
      chunks.flatten.length ≤ limits.maxArchiveBytes := receiveChunks_eq_ok (Nat.zero_le _)
  constructor
  · intro h
    obtain ⟨_, hverifier, h0⟩ := Except.bind_eq_ok.mp h
    obtain rfl := Except.ok.inj ((newVerifier_ok hnew).symm.trans hverifier)
    obtain ⟨⟨received, verified⟩, hreceive, h1⟩ := Except.bind_eq_ok.mp h0
    obtain ⟨hreceived, rfl⟩ := receiveChunks_ok hreceive
    have hsize := hlimit.mp ⟨_, hreceive⟩
    dsimp only at h1
    cases streamError with
    | some retryable =>
      dsimp only at h1
      split_ifs at h1
      cases Except.ok.inj h1
    | none =>
      obtain ⟨_, hfinish, h2⟩ := Except.bind_eq_ok.mp h1
      obtain rfl := Option.some.inj (Except.ok.inj h2)
      rw [List.nil_append] at hreceived
      refine ⟨rfl, hsize, hreceived.symm, verifier, hnew, ?_⟩
      rw [hreceived]
      exact (IntegrityVerifier.finish_update_ok hnew).mp hfinish
  · rintro ⟨rfl, hsize, rfl, verifier', hnew', hmem⟩
    obtain rfl := Except.ok.inj (hnew.symm.trans hnew')
    obtain ⟨⟨received, verified⟩, hreceive⟩ := hlimit.mpr hsize
    obtain ⟨hreceived, rfl⟩ := receiveChunks_ok hreceive
    refine Except.bind_eq_ok.mpr ⟨_, newVerifier_ok hnew, ?_⟩
    refine Except.bind_eq_ok.mpr ⟨_, hreceive, ?_⟩
    refine Except.bind_eq_ok.mpr ⟨(), (IntegrityVerifier.finish_update_ok hnew).mpr hmem, ?_⟩
    rw [hreceived, List.nil_append]

theorem receiveBody_eq_none {chunks : List (List UInt8)} {streamError : Option Bool} {last : Bool}
    {verifier : IntegrityVerifier} (hnew : IntegrityVerifier.new sri = .ok verifier) :
    receiveBody hashes limits (some sri) chunks streamError last = .ok none ↔
      streamError = some true ∧ last = false ∧ chunks.flatten.length ≤ limits.maxArchiveBytes := by
  have hlimit : (∃ result, receiveChunks limits chunks [] (some verifier) = .ok result) ↔
      chunks.flatten.length ≤ limits.maxArchiveBytes := receiveChunks_eq_ok (Nat.zero_le _)
  constructor
  · intro h
    obtain ⟨_, hverifier, h0⟩ := Except.bind_eq_ok.mp h
    obtain rfl := Except.ok.inj ((newVerifier_ok hnew).symm.trans hverifier)
    obtain ⟨⟨received, verified⟩, hreceive, h1⟩ := Except.bind_eq_ok.mp h0
    have hsize := hlimit.mp ⟨_, hreceive⟩
    dsimp only at h1
    cases streamError with
    | some retryable =>
      dsimp only at h1
      split_ifs at h1 with hretry
      obtain ⟨hretryable, hlast⟩ : retryable = true ∧ last = false := by simpa using hretry
      exact ⟨by rw [hretryable], hlast, hsize⟩
    | none =>
      obtain ⟨_, hfinish, h2⟩ := Except.bind_eq_ok.mp h1
      cases Except.ok.inj h2
  · rintro ⟨rfl, rfl, hsize⟩
    obtain ⟨⟨received, verified⟩, hreceive⟩ := hlimit.mpr hsize
    exact Except.bind_eq_ok.mpr ⟨_, newVerifier_ok hnew, Except.bind_eq_ok.mpr ⟨_, hreceive, rfl⟩⟩

/-! ## The attempts -/

theorem attemptDownload_eq_some {last : Bool} {attempt : Attempt} {file : List UInt8}
    {verifier : IntegrityVerifier} (hnew : IntegrityVerifier.new sri = .ok verifier) :
    attemptDownload hashes limits (some sri) last attempt = .ok (some file) ↔
      ∃ retryStatus contentLength chunks,
        attempt = .response retryStatus true contentLength chunks none ∧
        (retryStatus = true → last = true) ∧ contentLength.getD 0 ≤ limits.maxArchiveBytes ∧
        chunks.flatten.length ≤ limits.maxArchiveBytes ∧ chunks.flatten = file ∧
        Matches hashes file sri := by
  cases attempt with
  | failed retryable =>
    unfold attemptDownload
    dsimp only
    constructor
    · intro h
      split_ifs at h
      cases Except.ok.inj h
    · rintro ⟨_, _, _, hresponse, -⟩
      cases hresponse
  | response retryStatus success contentLength chunks streamError =>
    unfold attemptDownload
    dsimp only
    constructor
    · intro h
      split_ifs at h with hretry hfailed
      · cases Except.ok.inj h
      · obtain ⟨_, hsize, h1⟩ := Except.bind_eq_ok.mp h
        obtain ⟨rfl, hreceived, hfile, hmatches⟩ := (receiveBody_eq_some hnew).mp h1
        have hsuccess : success = true := by simpa using hfailed
        have hstatus : retryStatus = true → last = true := by simpa using hretry
        exact ⟨retryStatus, contentLength, chunks, by rw [hsuccess], hstatus,
          checkArchiveSize_ok.mp hsize, hreceived, hfile, hmatches⟩
    · rintro ⟨_, _, _, hresponse, hstatus, hannounced, hreceived, hfile, hmatches⟩
      obtain ⟨rfl, rfl, rfl, rfl, rfl⟩ := Attempt.response.inj hresponse
      have hretry : ¬(retryStatus && !last) = true := by simpa using hstatus
      rw [if_neg hretry, if_neg (by simp)]
      exact Except.bind_eq_ok.mpr ⟨(), checkArchiveSize_ok.mpr hannounced,
        (receiveBody_eq_some hnew).mpr ⟨rfl, hreceived, hfile, hmatches⟩⟩

theorem attemptDownload_eq_none {last : Bool} {attempt : Attempt} {verifier : IntegrityVerifier}
    (hnew : IntegrityVerifier.new sri = .ok verifier) :
    attemptDownload hashes limits (some sri) last attempt = .ok none ↔
      last = false ∧ Transient limits attempt := by
  cases attempt with
  | failed retryable =>
    unfold attemptDownload Transient
    dsimp only
    cases retryable <;> cases last <;> simp
  | response retryStatus success contentLength chunks streamError =>
    unfold attemptDownload Transient
    dsimp only
    constructor
    · intro h
      split_ifs at h with hretry hfailed
      · obtain ⟨hstatus, hlast⟩ : retryStatus = true ∧ last = false := by simpa using hretry
        exact ⟨hlast, .inl hstatus⟩
      · obtain ⟨_, hsize, h1⟩ := Except.bind_eq_ok.mp h
        obtain ⟨herror, hlast, hreceived⟩ := (receiveBody_eq_none hnew).mp h1
        have hsuccess : success = true := by simpa using hfailed
        exact ⟨hlast, .inr ⟨hsuccess, checkArchiveSize_ok.mp hsize, hreceived, herror⟩⟩
    · rintro ⟨rfl, hstatus | ⟨rfl, hannounced, hreceived, rfl⟩⟩
      · rw [if_pos (by simp [hstatus])]
      · split_ifs with hretry hfailed
        · rfl
        · cases hfailed
        · exact Except.bind_eq_ok.mpr ⟨(), checkArchiveSize_ok.mpr hannounced,
            (receiveBody_eq_none hnew).mpr ⟨rfl, rfl, hreceived⟩⟩

/-- The file comes with the first response that is taken. -/
theorem downloadLoop_eq_ok {remaining : ℕ} {attempts : List Attempt} {file : List UInt8}
    {verifier : IntegrityVerifier} (hnew : IntegrityVerifier.new sri = .ok verifier) :
    downloadLoop hashes limits (some sri) remaining attempts = .ok file ↔
      ∃ failures retryStatus contentLength chunks rest,
        attempts = failures ++ .response retryStatus true contentLength chunks none :: rest ∧
        Received limits remaining failures retryStatus contentLength chunks ∧
        chunks.flatten = file ∧ Matches hashes file sri := by
  induction remaining generalizing attempts with
  | zero =>
    constructor
    · intro h
      cases h
    · rintro ⟨failures, _, _, _, _, -, hreceived, -⟩
      exact absurd hreceived.made (Nat.not_lt_zero _)
  | succ remaining ih =>
    cases attempts with
    | nil =>
      constructor
      · intro h
        cases h
      · rintro ⟨failures, _, _, _, rest, hsplit, -⟩
        exact absurd hsplit.symm (List.append_ne_nil_of_right_ne_nil _ (List.cons_ne_nil _ _))
    | cons attempt rest =>
      unfold downloadLoop
      constructor
      · intro h
        split at h
        · cases h
        · next hattempt =>
          obtain ⟨hlast, htransient⟩ := (attemptDownload_eq_none hnew).mp hattempt
          obtain ⟨failures, retryStatus, contentLength, chunks, rest', rfl, hreceived, hfile⟩ :=
            ih.mp h
          refine ⟨attempt :: failures, retryStatus, contentLength, chunks, rest', rfl, ?_, hfile⟩
          exact {
            transient := by
              intro other hother
              rcases List.mem_cons.mp hother with rfl | hmem
              · exact htransient
              · exact hreceived.transient other hmem
            made := Nat.succ_lt_succ hreceived.made
            status := fun h => congrArg Nat.succ (hreceived.status h)
            announced := hreceived.announced
            size := hreceived.size }
        · next taken hattempt =>
          obtain rfl := Except.ok.inj h
          obtain ⟨retryStatus, contentLength, chunks, rfl, hstatus, hannounced, hsize, hfile⟩ :=
            (attemptDownload_eq_some hnew).mp hattempt
          refine ⟨[], retryStatus, contentLength, chunks, rest, rfl, ?_, hfile⟩
          exact {
            transient := fun other hother => absurd hother List.not_mem_nil
            made := Nat.succ_pos _
            status := fun h => by
              have hlast := of_decide_eq_true (hstatus h)
              rw [hlast]
              rfl
            announced := hannounced
            size := hsize }
      · rintro ⟨failures, retryStatus, contentLength, chunks, rest', hsplit, hreceived, hfile⟩
        cases failures with
        | nil =>
          obtain ⟨rfl, rfl⟩ := List.cons.inj hsplit
          have hstatus : retryStatus = true → decide (remaining = 0) = true := by
            intro h
            exact decide_eq_true (Nat.succ.inj (hreceived.status h)).symm
          rw [(attemptDownload_eq_some hnew).mpr ⟨retryStatus, contentLength, chunks, rfl, hstatus,
            hreceived.announced, hreceived.size, hfile⟩]
        | cons failure failures =>
          obtain ⟨rfl, rfl⟩ := List.cons.inj hsplit
          have hmade := Nat.lt_of_succ_lt_succ hreceived.made
          have hlast : decide (remaining = 0) = false :=
            decide_eq_false (Nat.ne_of_gt (Nat.zero_lt_of_lt hmade))
          rw [(attemptDownload_eq_none hnew).mpr
            ⟨hlast, hreceived.transient _ List.mem_cons_self⟩]
          refine ih.mpr ⟨failures, retryStatus, contentLength, chunks, rest', rfl, ?_, hfile⟩
          exact {
            transient := fun other hother =>
              hreceived.transient other (List.mem_cons_of_mem _ hother)
            made := hmade
            status := fun h => Nat.succ.inj (hreceived.status h)
            announced := hreceived.announced
            size := hreceived.size }

end Client

end Oath.Fetch
