import Mathlib.Data.List.TakeWhile
import Oath.Fetch.Integrity
import Oath.Library.BlockHash

/-! The integrity check of a tarball that comes in chunks: what an integrity string lists, and which
content passes. -/

namespace Oath.Fetch

/-- The hashes with their blocks. -/
structure BlockHashes where
  sha512 : BlockHash
  sha256 : BlockHash
  sha1 : BlockHash

def BlockHashes.of (hashes : BlockHashes) : Algorithm → BlockHash
  | .sha512 => hashes.sha512
  | .sha256 => hashes.sha256
  | .sha1 => hashes.sha1

def BlockHashes.digests (hashes : BlockHashes) : Hashes where
  sha512 := hashes.sha512.digest
  sha256 := hashes.sha256.digest
  sha1 := hashes.sha1.digest

theorem BlockHashes.digest_eq (hashes : BlockHashes) (algorithm : Algorithm) :
    hashes.digests.digest algorithm = (hashes.of algorithm).digest := by
  cases algorithm with
  | sha512 => rfl
  | sha256 => rfl
  | sha1 => rfl

/-! ## The verifier with its hasher -/

structure StreamVerifier (hashes : BlockHashes) where
  algorithm : Algorithm
  hasher : (hashes.of algorithm).Stream
  expected : List String

namespace StreamVerifier
variable {hashes : BlockHashes}

/-- The tokens are read and the strongest algorithm is chosen as in `IntegrityVerifier.new`. -/
def new (hashes : BlockHashes) (sri : String) : Except String (StreamVerifier hashes) := do
  let verifier ← IntegrityVerifier.new sri
  .ok ⟨verifier.algorithm, (hashes.of verifier.algorithm).start, verifier.expected⟩

def update (verifier : StreamVerifier hashes) (data : List UInt8) : StreamVerifier hashes :=
  { verifier with hasher := verifier.hasher.update data }

def finish (verifier : StreamVerifier hashes) : Except String Unit :=
  let computed := Base64.encode verifier.hasher.finalize
  let tagged := fun digest => verifier.algorithm.asStr ++ "-" ++ digest
  if verifier.expected.contains computed then .ok ()
  else .error ("integrity check failed: expected one of " ++
    " ".intercalate (verifier.expected.map tagged) ++ ", got " ++ tagged computed)

/-- The chunks go through the verifier one after another. -/
def check (hashes : BlockHashes) (sri : String) (chunks : List (List UInt8)) :
    Except String Unit := do
  let verifier ← new hashes sri
  (chunks.foldl update verifier).finish

theorem foldl_update (verifier : StreamVerifier hashes) (chunks : List (List UInt8)) :
    chunks.foldl update verifier =
      { verifier with hasher := chunks.foldl BlockHash.Stream.update verifier.hasher } := by
  induction chunks generalizing verifier with
  | nil => rfl
  | cons chunk rest ih => exact ih (verifier.update chunk)

/-- The chunks together pass or fail as one. -/
theorem check_eq (sri : String) (chunks : List (List UInt8)) :
    check hashes sri chunks = verifyIntegrity hashes.digests chunks.flatten sri := by
  unfold check verifyIntegrity new
  cases hnew : IntegrityVerifier.new sri with
  | error message => rfl
  | ok verifier =>
    have htaken : verifier.taken = [] := IntegrityVerifier.new_taken hnew
    have hdigest : hashes.digests.digest verifier.algorithm (verifier.taken ++ chunks.flatten) =
        (chunks.foldl BlockHash.Stream.update (hashes.of verifier.algorithm).start).finalize := by
      rw [htaken, List.nil_append, BlockHashes.digest_eq, BlockHash.finalize_updates]
    have hfinish : ((verifier.update chunks.flatten).finish hashes.digests) =
        (chunks.foldl update (⟨verifier.algorithm, (hashes.of verifier.algorithm).start,
          verifier.expected⟩ : StreamVerifier hashes)).finish := by
      rw [foldl_update]
      unfold finish IntegrityVerifier.finish IntegrityVerifier.update
      dsimp only
      rw [hdigest]
    exact hfinish.symm

end StreamVerifier

/-! ## What an integrity string lists -/

/-- One hash of an integrity string. -/
structure ListedHash where
  algorithm : List Char
  digest : String

def ListedHash.WrittenAs (hash : ListedHash) (word : List Char) : Prop :=
  word = hash.algorithm ++ '-' :: hash.digest.toList ∧ '-' ∉ hash.algorithm ∧ hash.digest ≠ ""

/-- The words of an integrity string are hashes. -/
def Lists (sri : String) (listed : List ListedHash) : Prop :=
  List.Forall₂ (fun word hash => hash.WrittenAs word) (splitWhitespace sri) listed

/-- The hash is one of the algorithm; a hash of no algorithm is not supported. -/
def ListedHash.IsOf (hash : ListedHash) (algorithm : Algorithm) : Prop :=
  hash.algorithm = algorithm.asStr.toList

def Algorithm.bits : Algorithm → ℕ
  | .sha512 => 512
  | .sha256 => 256
  | .sha1 => 160

structure Strongest (listed : List ListedHash) (algorithm : Algorithm) : Prop where
  present : ∃ hash ∈ listed, hash.IsOf algorithm
  top (hash : ListedHash) (other : Algorithm) :
    hash ∈ listed → hash.IsOf other → other.bits ≤ algorithm.bits

theorem parseToken_eq_ok {token name : List Char} {digest : String} :
    parseToken token = .ok (name, digest) ↔
      token = name ++ '-' :: digest.toList ∧ '-' ∉ name ∧ digest ≠ "" := by
  have hbreak : ∀ before rest : List Char, '-' ∉ before →
      (before ++ '-' :: rest).takeWhile (· ≠ '-') = before ∧
        (before ++ '-' :: rest).dropWhile (· ≠ '-') = '-' :: rest := by
    intro before rest hbefore
    have hall : ∀ c ∈ before, decide (c ≠ '-') = true := by
      intro c hc
      exact decide_eq_true fun heq => hbefore (heq ▸ hc)
    rw [List.takeWhile_append_of_pos hall, List.dropWhile_append_of_pos hall]
    exact ⟨List.append_nil before, rfl⟩
  by_cases hmark : '-' ∈ token
  · obtain ⟨before, rest, rfl, hbefore⟩ := List.eq_append_cons_of_mem hmark
    obtain ⟨htake, hdrop⟩ := hbreak before rest hbefore
    unfold parseToken
    rw [hdrop, htake]
    constructor
    · intro h
      cases rest with
      | nil => cases h
      | cons first more =>
        obtain ⟨rfl, rfl⟩ := Prod.mk.inj (Except.ok.inj h)
        refine ⟨by rw [String.toList_ofList], hbefore, fun hempty => ?_⟩
        have hnil := congrArg String.toList hempty
        rw [String.toList_ofList] at hnil
        cases hnil
    · rintro ⟨htoken, hname, hdigest⟩
      obtain ⟨htake', hdrop'⟩ := hbreak name digest.toList hname
      rw [← htoken, htake] at htake'
      rw [← htoken, hdrop] at hdrop'
      obtain rfl := htake'
      obtain rfl := (List.cons.inj hdrop').2
      cases hchars : digest.toList with
      | nil => exact absurd (String.toList_eq_nil_iff.mp hchars) hdigest
      | cons first more =>
        dsimp only
        rw [← hchars, String.ofList_toList]
  · have hdrop : token.dropWhile (· ≠ '-') = [] :=
      List.dropWhile_eq_nil_iff.mpr fun c hc => decide_eq_true fun heq => hmark (heq ▸ hc)
    unfold parseToken
    rw [hdrop]
    constructor
    · intro h
      cases h
    · rintro ⟨rfl, -, -⟩
      exact absurd (List.mem_append_right name List.mem_cons_self) hmark

def ListedHash.ofToken (token : List Char × String) : ListedHash := ⟨token.1, token.2⟩

/-- The tokens that are read are the hashes that are listed. -/
theorem mapM_parseToken {sri : String} {tokens : List (List Char × String)} :
    (splitWhitespace sri).mapM parseToken = .ok tokens ↔
      Lists sri (tokens.map ListedHash.ofToken) := by
  rw [Except.mapM_eq_ok, Lists, List.forall₂_map_right_iff]
  constructor
  · exact List.Forall₂.imp fun _ _ htoken => parseToken_eq_ok.mp htoken
  · exact List.Forall₂.imp fun _ _ hwritten => parseToken_eq_ok.mpr hwritten

theorem mem_digestsOf {tokens : List (List Char × String)} {algorithm : Algorithm}
    {digest : String} : digest ∈ digestsOf tokens algorithm ↔
      (⟨algorithm.asStr.toList, digest⟩ : ListedHash) ∈ tokens.map ListedHash.ofToken := by
  constructor
  · intro hmem
    obtain ⟨token, htoken, rfl⟩ := List.mem_map.mp hmem
    obtain ⟨hmem', hname⟩ := List.mem_filter.mp htoken
    rw [← of_decide_eq_true hname]
    exact List.mem_map_of_mem hmem'
  · intro hmem
    obtain ⟨token, htoken, heq⟩ := List.mem_map.mp hmem
    obtain ⟨hname, hdigest⟩ := ListedHash.mk.inj heq
    rw [← hdigest]
    exact List.mem_map_of_mem (List.mem_filter.mpr ⟨htoken, decide_eq_true hname⟩)

theorem digestsOf_nonempty {tokens : List (List Char × String)} {algorithm : Algorithm} :
    (!(digestsOf tokens algorithm).isEmpty) = true ↔
      ∃ hash ∈ tokens.map ListedHash.ofToken, hash.IsOf algorithm := by
  rw [Bool.not_eq_true', List.isEmpty_eq_false_iff_exists_mem]
  constructor
  · rintro ⟨digest, hdigest⟩
    exact ⟨_, mem_digestsOf.mp hdigest, rfl⟩
  · rintro ⟨hash, hmem, hname⟩
    refine ⟨hash.digest, mem_digestsOf.mpr ?_⟩
    rw [← hname]
    exact hmem

theorem mem_algorithms (algorithm : Algorithm) :
    algorithm ∈ [Algorithm.sha512, .sha256, .sha1] := by
  cases algorithm with
  | sha512 => decide
  | sha256 => decide
  | sha1 => decide

/-- The first algorithm that is listed, from the strongest on. -/
theorem find_strongest {tokens : List (List Char × String)} {algorithm : Algorithm} :
    ([Algorithm.sha512, .sha256, .sha1].find? fun algorithm =>
        !(digestsOf tokens algorithm).isEmpty) = some algorithm ↔
      Strongest (tokens.map ListedHash.ofToken) algorithm := by
  have hordered : [Algorithm.sha512, .sha256, .sha1].Pairwise fun a b => b.bits < a.bits := by
    decide
  constructor
  · intro hfind
    obtain ⟨hpresent, stronger, weaker, hsplit, hnone⟩ := List.find?_eq_some_iff_append.mp hfind
    rw [hsplit] at hordered
    refine ⟨digestsOf_nonempty.mp hpresent, fun hash other hmem hother => ?_⟩
    have hall := mem_algorithms other
    rw [hsplit] at hall
    rcases List.mem_append.mp hall with hbefore | hbehind
    · have hlisted := digestsOf_nonempty.mpr ⟨hash, hmem, hother⟩
      have hnot := hnone other hbefore
      rw [hlisted] at hnot
      cases hnot
    · rcases List.mem_cons.mp hbehind with rfl | hweaker
      · exact le_refl _
      · have hrest := (List.pairwise_append.mp hordered).2.1
        exact le_of_lt (List.rel_of_pairwise_cons hrest hweaker)
  · intro hstrongest
    obtain ⟨stronger, weaker, hsplit⟩ := List.append_of_mem (mem_algorithms algorithm)
    refine List.find?_eq_some_iff_append.mpr
      ⟨digestsOf_nonempty.mpr hstrongest.present, stronger, weaker, hsplit, ?_⟩
    intro other hbefore
    rw [hsplit] at hordered
    have hbits := (List.pairwise_append.mp hordered).2.2 other hbefore algorithm List.mem_cons_self
    rw [Bool.not_eq_true', Bool.eq_false_iff]
    intro hlisted
    obtain ⟨hash, hmem, hother⟩ := digestsOf_nonempty.mp hlisted
    exact absurd (hstrongest.top hash other hmem hother) (not_le_of_gt hbits)

/-! ## What passes -/

theorem matches_iff {hashes : Hashes} {data : List UInt8} {sri : String} :
    Matches hashes data sri ↔ ∃ listed algorithm, Lists sri listed ∧ Strongest listed algorithm ∧
      ⟨algorithm.asStr.toList, Base64.encode (hashes.digest algorithm data)⟩ ∈ listed := by
  constructor
  · rintro ⟨verifier, hnew, hmem⟩
    obtain ⟨tokens, htokens, hchosen⟩ := Except.bind_eq_ok.mp hnew
    cases hfind : [Algorithm.sha512, .sha256, .sha1].find? fun algorithm =>
        !(digestsOf tokens algorithm).isEmpty with
    | none =>
      rw [hfind] at hchosen
      cases hchosen
    | some algorithm =>
      rw [hfind] at hchosen
      obtain rfl := Except.ok.inj hchosen
      exact ⟨_, algorithm, mapM_parseToken.mp htokens, find_strongest.mp hfind,
        mem_digestsOf.mp hmem⟩
  · rintro ⟨listed, algorithm, hlists, hstrongest, hmem⟩
    obtain ⟨tokens, rfl⟩ : ∃ tokens : List (List Char × String),
        listed = tokens.map ListedHash.ofToken := by
      refine ⟨listed.map fun hash => (hash.algorithm, hash.digest), ?_⟩
      rw [List.map_map]
      exact (List.map_id listed).symm
    refine ⟨⟨algorithm, [], digestsOf tokens algorithm⟩, ?_, mem_digestsOf.mpr hmem⟩
    refine Except.bind_eq_ok.mpr ⟨tokens, mapM_parseToken.mpr hlists, ?_⟩
    rw [find_strongest.mpr hstrongest]

/-- A content passes exactly when its digest by the strongest algorithm of the string is one of
those that the string lists for it. The chunks do not matter, and without an algorithm that is
supported nothing passes. -/
theorem StreamVerifier.check_accepts (hashes : BlockHashes) (sri : String)
    (chunks : List (List UInt8)) :
    (check hashes sri chunks = .ok () ↔
      ∃ listed algorithm, Lists sri listed ∧ Strongest listed algorithm ∧
        ⟨algorithm.asStr.toList,
          Base64.encode ((hashes.of algorithm).digest chunks.flatten)⟩ ∈ listed) ∧
    (∀ chunks' : List (List UInt8), chunks'.flatten = chunks.flatten →
      check hashes sri chunks' = check hashes sri chunks) ∧
    ((¬∃ listed, Lists sri listed ∧ ∃ hash ∈ listed, ∃ algorithm, hash.IsOf algorithm) →
      ∃ message, check hashes sri chunks = .error message) := by
  have haccepts : check hashes sri chunks = .ok () ↔
      ∃ listed algorithm, Lists sri listed ∧ Strongest listed algorithm ∧
        ⟨algorithm.asStr.toList,
          Base64.encode ((hashes.of algorithm).digest chunks.flatten)⟩ ∈ listed := by
    rw [check_eq, verifyIntegrity_ok, matches_iff]
    simp only [BlockHashes.digest_eq]
  refine ⟨haccepts, fun chunks' hsame => ?_, fun hnone => ?_⟩
  · rw [check_eq, check_eq, hsame]
  · cases hcheck : check hashes sri chunks with
    | error message => exact ⟨message, rfl⟩
    | ok u =>
      obtain ⟨listed, algorithm, hlists, hstrongest, -⟩ := haccepts.mp hcheck
      obtain ⟨hash, hmem, hname⟩ := hstrongest.present
      exact absurd ⟨listed, hlists, hash, hmem, algorithm, hname⟩ hnone

end Oath.Fetch
