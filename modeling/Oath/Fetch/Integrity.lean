import Mathlib.Data.List.Basic
import Oath.Core.Policy
import Oath.Fetch.Tarball
import Oath.Library.Base64

/-! The download of a tarball from a registry: its integrity is checked while it streams. -/

namespace Oath.Fetch
open Core

/-- The digests that may stand in the metadata of a package. -/
structure Hashes where
  sha512 : List UInt8 → List UInt8
  sha256 : List UInt8 → List UInt8
  sha1 : List UInt8 → List UInt8

inductive Algorithm
  | sha512
  | sha256
  | sha1
deriving DecidableEq, Repr

def Algorithm.asStr : Algorithm → String
  | .sha512 => "sha512"
  | .sha256 => "sha256"
  | .sha1 => "sha1"

def Hashes.digest (hashes : Hashes) : Algorithm → List UInt8 → List UInt8
  | .sha512 => hashes.sha512
  | .sha256 => hashes.sha256
  | .sha1 => hashes.sha1

/-! ## The verifier -/

/-- A hasher with the bytes that it has taken, and the digests one of which is expected. -/
structure IntegrityVerifier where
  algorithm : Algorithm
  taken : List UInt8
  expected : List String

def splitWhitespace (text : String) : List (List Char) :=
  (text.toList.splitOnP isWhitespace).filter fun token => !token.isEmpty

def parseToken (token : List Char) : Except String (List Char × String) :=
  match token.dropWhile (· ≠ '-') with
  | _ :: digit :: digits => .ok (token.takeWhile (· ≠ '-'), String.ofList (digit :: digits))
  | _ => .error ("invalid SRI format: " ++ String.ofList token)

def digestsOf (tokens : List (List Char × String)) (algorithm : Algorithm) : List String :=
  (tokens.filter fun token => token.1 = algorithm.asStr.toList).map Prod.snd

namespace IntegrityVerifier

/-- The strongest algorithm that is named counts; others may be named too. -/
def new (sri : String) : Except String IntegrityVerifier := do
  let tokens ← (splitWhitespace sri).mapM parseToken
  match [Algorithm.sha512, .sha256, .sha1].find? fun algorithm =>
      !(digestsOf tokens algorithm).isEmpty with
  | some algorithm => .ok ⟨algorithm, [], digestsOf tokens algorithm⟩
  | none => .error ("SRI metadata contains no supported digest: " ++ sri)

def update (verifier : IntegrityVerifier) (data : List UInt8) : IntegrityVerifier :=
  { verifier with taken := verifier.taken ++ data }

def finish (hashes : Hashes) (verifier : IntegrityVerifier) : Except String Unit :=
  let computed := Base64.encode (hashes.digest verifier.algorithm verifier.taken)
  let tagged := fun digest => verifier.algorithm.asStr ++ "-" ++ digest
  if verifier.expected.contains computed then .ok ()
  else .error ("integrity check failed: expected one of " ++
    " ".intercalate (verifier.expected.map tagged) ++ ", got " ++ tagged computed)

end IntegrityVerifier

def verifyIntegrity (hashes : Hashes) (data : List UInt8) (sri : String) : Except String Unit := do
  let verifier ← IntegrityVerifier.new sri
  (verifier.update data).finish hashes

/-! ## The download -/

/-- What comes of one request. -/
inductive Attempt
  | failed (retryable : Bool)
  | response (retryStatus success : Bool) (contentLength : Option ℕ) (chunks : List (List UInt8))
      (streamError : Option Bool)

def checkArchiveSize (limits : TarballLimits) (bytes : ℕ) : Except String Unit :=
  if limits.maxArchiveBytes < bytes then
    .error ("tarball compressed size " ++ toString bytes ++ " exceeds limit " ++
      toString limits.maxArchiveBytes)
  else .ok ()

/-- The chunks go to the file and through the verifier. -/
def receiveChunks (limits : TarballLimits) : List (List UInt8) → List UInt8 →
    Option IntegrityVerifier → Except String (List UInt8 × Option IntegrityVerifier)
  | [], file, verifier => .ok (file, verifier)
  | chunk :: rest, file, verifier => do
    checkArchiveSize limits (file.length + chunk.length)
    receiveChunks limits rest (file ++ chunk) (verifier.map (·.update chunk))

def newVerifier (integrity : Option String) : Except String (Option IntegrityVerifier) :=
  match integrity with
  | none => .ok none
  | some sri => match IntegrityVerifier.new sri with
    | .ok verifier => .ok (some verifier)
    | .error _ => .error "invalid tarball integrity metadata"

def finishVerifier (hashes : Hashes) : Option IntegrityVerifier → Except String Unit
  | none => .ok ()
  | some verifier => verifier.finish hashes

def receiveBody (hashes : Hashes) (limits : TarballLimits) (integrity : Option String)
    (chunks : List (List UInt8)) (streamError : Option Bool) (last : Bool) :
    Except String (Option (List UInt8)) := do
  let verifier ← newVerifier integrity
  let (file, verifier) ← receiveChunks limits chunks [] verifier
  match streamError with
  | some retryable =>
    if retryable && !last then .ok none else .error "failed to read tarball chunk"
  | none =>
    finishVerifier hashes verifier
    .ok (some file)

/-- Without a file the request is made again. -/
def attemptDownload (hashes : Hashes) (limits : TarballLimits) (integrity : Option String)
    (last : Bool) : Attempt → Except String (Option (List UInt8))
  | .failed retryable =>
    if retryable && !last then .ok none else .error "tarball download failed"
  | .response retryStatus success contentLength chunks streamError =>
    if retryStatus && !last then .ok none
    else if !success then .error "tarball download returned an error status"
    else do
      checkArchiveSize limits (contentLength.getD 0)
      receiveBody hashes limits integrity chunks streamError last

def requestAttempts : ℕ := 3

def downloadLoop (hashes : Hashes) (limits : TarballLimits) (integrity : Option String) :
    ℕ → List Attempt → Except String (List UInt8)
  | attempts + 1, attempt :: rest =>
    match attemptDownload hashes limits integrity (attempts = 0) attempt with
    | .error message => .error message
    | .ok none => downloadLoop hashes limits integrity attempts rest
    | .ok (some file) => .ok file
  | _, _ => .error "tarball download failed"

def fetchTarballToFile (hashes : Hashes) (limits : TarballLimits) (integrity : Option String)
    (attempts : List Attempt) : Except String (List UInt8) :=
  downloadLoop hashes limits integrity requestAttempts attempts

/-! ## What was downloaded matches -/

/-- The bytes have a digest that the metadata lists for its strongest algorithm. -/
def Matches (hashes : Hashes) (data : List UInt8) (sri : String) : Prop :=
  ∃ verifier, IntegrityVerifier.new sri = .ok verifier ∧
    Base64.encode (hashes.digest verifier.algorithm data) ∈ verifier.expected

theorem IntegrityVerifier.new_taken {sri : String} {verifier : IntegrityVerifier}
    (h : IntegrityVerifier.new sri = .ok verifier) : verifier.taken = [] := by
  obtain ⟨tokens, -, h1⟩ := Except.bind_eq_ok.mp h
  split at h1
  · obtain rfl := Except.ok.inj h1
    rfl
  · cases h1

theorem IntegrityVerifier.finish_ok {hashes : Hashes} {verifier : IntegrityVerifier} :
    verifier.finish hashes = .ok () ↔
      Base64.encode (hashes.digest verifier.algorithm verifier.taken) ∈ verifier.expected := by
  unfold IntegrityVerifier.finish
  dsimp only
  split_ifs with hexpected
  · exact ⟨fun _ => List.contains_iff_mem.mp hexpected, fun _ => rfl⟩
  · exact ⟨fun h => (by cases h), fun h => absurd (List.contains_iff_mem.mpr h) hexpected⟩

theorem IntegrityVerifier.finish_update_ok {hashes : Hashes} {sri : String}
    {verifier : IntegrityVerifier} (h : IntegrityVerifier.new sri = .ok verifier)
    {data : List UInt8} : (verifier.update data).finish hashes = .ok () ↔
      Base64.encode (hashes.digest verifier.algorithm data) ∈ verifier.expected := by
  rw [IntegrityVerifier.finish_ok]
  unfold IntegrityVerifier.update
  rw [IntegrityVerifier.new_taken h]
  rfl

theorem verifyIntegrity_ok {hashes : Hashes} {data : List UInt8} {sri : String} :
    verifyIntegrity hashes data sri = .ok () ↔ Matches hashes data sri := by
  unfold verifyIntegrity Matches
  rw [Except.bind_eq_ok]
  exact exists_congr fun verifier => and_congr_right fun hnew =>
    IntegrityVerifier.finish_update_ok hnew

/-- The verifier has taken just what is in the file. -/
theorem receiveChunks_ok {limits : TarballLimits} {chunks : List (List UInt8)}
    {file file' : List UInt8} {verifier verifier' : Option IntegrityVerifier}
    (h : receiveChunks limits chunks file verifier = .ok (file', verifier')) :
    file' = file ++ chunks.flatten ∧ verifier' = verifier.map (·.update chunks.flatten) := by
  induction chunks generalizing file verifier with
  | nil =>
    obtain ⟨rfl, rfl⟩ := Prod.mk.inj (Except.ok.inj h)
    refine ⟨(List.append_nil _).symm, ?_⟩
    cases verifier <;> simp [IntegrityVerifier.update]
  | cons chunk rest ih =>
    obtain ⟨_, -, h1⟩ := Except.bind_eq_ok.mp h
    obtain ⟨hfile, hverifier⟩ := ih h1
    refine ⟨by rw [hfile, List.append_assoc, List.flatten_cons], ?_⟩
    rw [hverifier, Option.map_map, List.flatten_cons]
    cases verifier <;> simp [IntegrityVerifier.update]

theorem attemptDownload_matches {hashes : Hashes} {limits : TarballLimits} {sri : String}
    {last : Bool} {attempt : Attempt} {file : List UInt8}
    (h : attemptDownload hashes limits (some sri) last attempt = .ok (some file)) :
    Matches hashes file sri := by
  unfold attemptDownload at h
  cases attempt with
  | failed retryable =>
    dsimp only at h
    split_ifs at h
    cases Except.ok.inj h
  | response retryStatus success contentLength chunks streamError =>
    dsimp only at h
    split_ifs at h
    · cases Except.ok.inj h
    · obtain ⟨_, -, h1⟩ := Except.bind_eq_ok.mp h
      obtain ⟨verifier, hnew, h2⟩ := Except.bind_eq_ok.mp h1
      obtain ⟨⟨received, verified⟩, hreceive, h3⟩ := Except.bind_eq_ok.mp h2
      obtain ⟨hreceived, hverified⟩ := receiveChunks_ok hreceive
      dsimp only at h3
      split at h3
      · split_ifs at h3
        cases Except.ok.inj h3
      · obtain ⟨_, hfinish, h4⟩ := Except.bind_eq_ok.mp h3
        obtain rfl := Option.some.inj (Except.ok.inj h4)
        unfold newVerifier at hnew
        dsimp only at hnew
        split at hnew
        · next started hstarted =>
          obtain rfl := Except.ok.inj hnew
          subst hverified
          have hfinished : (started.update chunks.flatten).finish hashes = .ok () := hfinish
          refine ⟨started, hstarted, ?_⟩
          rw [hreceived, List.nil_append]
          exact (IntegrityVerifier.finish_update_ok hstarted).mp hfinished
        · cases hnew

/-- Whatever the network did, a downloaded file matches its integrity. -/
theorem fetchTarballToFile_matches {hashes : Hashes} {limits : TarballLimits} {sri : String}
    {attempts : List Attempt} {file : List UInt8}
    (h : fetchTarballToFile hashes limits (some sri) attempts = .ok file) :
    Matches hashes file sri := by
  unfold fetchTarballToFile at h
  generalize requestAttempts = remaining at h
  induction remaining generalizing attempts with
  | zero => cases h
  | succ remaining ih =>
    cases attempts with
    | nil => cases h
    | cons attempt rest =>
      unfold downloadLoop at h
      split at h
      · cases h
      · exact ih h
      · next hattempt =>
        obtain rfl := Except.ok.inj h
        exact attemptDownload_matches hattempt

end Oath.Fetch
