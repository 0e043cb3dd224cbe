import Mathlib.Data.Nat.Log
import Mathlib.Tactic.Ring
import Oath.Registry.Digest

/-! The transparency log's Merkle tree: roots, inclusion paths, consistency proofs
and their verifiers. Sizes and positions are `usize` in the source; they are
natural numbers here, with the one checked addition kept as a check. -/

namespace Oath.Registry

def usizeMax : ℕ := 2 ^ 64 - 1

section Hashing
variable (sha : Sha256)

def hashLeaf (leaf : String) : String := hexSha256 sha (0 :: asBytes leaf)

def hashChildren (left right : String) : String :=
  hexSha256 sha (1 :: (asBytes left ++ asBytes right))

end Hashing

/-- The loop of `split_point`: the power is doubled while twice it is below `length`. -/
def splitPointLoop (length : ℕ) : ℕ → ℕ → ℕ
  | 0, power => power
  | fuel + 1, power =>
    if power <<< 1 < length then splitPointLoop length fuel (power <<< 1) else power

def splitPoint (length : ℕ) : ℕ := splitPointLoop length length 1

theorem splitPointLoop_spec (length : ℕ) (fuel power : ℕ) (hp : 0 < power) (hlt : power < length)
    (hfuel : length ≤ power + fuel) :
    ∃ k, splitPointLoop length fuel power = power * 2 ^ k ∧ power * 2 ^ k < length ∧
      length ≤ power * 2 ^ k * 2 := by
  induction fuel generalizing power with
  | zero => omega
  | succ fuel ih =>
    rw [splitPointLoop, Nat.shiftLeft_eq, pow_one]
    by_cases h : power * 2 < length
    · obtain ⟨k, hk, hklt, hkle⟩ := ih (power * 2) (by omega) h (by omega)
      have hpow : power * 2 * 2 ^ k = power * 2 ^ (k + 1) := by ring
      rw [if_pos h]
      exact ⟨k + 1, by rw [hk, hpow], by rwa [← hpow], by rwa [← hpow]⟩
    · rw [if_neg h]
      exact ⟨0, by simp, by simpa using hlt, by simpa using h⟩

/-- The split point is the largest power of two below the length. -/
theorem splitPoint_spec {length : ℕ} (h : 2 ≤ length) :
    ∃ k, splitPoint length = 2 ^ k ∧ 2 ^ k < length ∧ length ≤ 2 ^ (k + 1) := by
  obtain ⟨k, hk, hlt, hle⟩ := splitPointLoop_spec length length 1 (by omega) (by omega) (by omega)
  exact ⟨k, by simpa [splitPoint] using hk, by simpa using hlt, by simpa [pow_succ] using hle⟩

theorem splitPoint_pos {length : ℕ} (h : 2 ≤ length) : 0 < splitPoint length := by
  obtain ⟨k, hk, -, -⟩ := splitPoint_spec h
  exact hk ▸ Nat.two_pow_pos k

theorem splitPoint_lt {length : ℕ} (h : 2 ≤ length) : splitPoint length < length := by
  obtain ⟨k, hk, hlt, -⟩ := splitPoint_spec h
  exact hk ▸ hlt

theorem splitPoint_eq {length k : ℕ} (hlt : 2 ^ k < length) (hle : length ≤ 2 ^ (k + 1)) :
    splitPoint length = 2 ^ k := by
  have h2 : 2 ≤ length := by have := Nat.one_le_two_pow (n := k); omega
  obtain ⟨j, hj, hjlt, hjle⟩ := splitPoint_spec h2
  have h1 : j < k + 1 := (Nat.pow_lt_pow_iff_right (by omega)).mp (hjlt.trans_le hle)
  have h2 : k < j + 1 := (Nat.pow_lt_pow_iff_right (by omega)).mp (hlt.trans_le hjle)
  rw [hj, show j = k by omega]

/-! ## Roots and inclusion paths -/

section Tree
variable (sha : Sha256)

def subtreeRoot : List String → String
  | [] => hexSha256 sha []
  | [leaf] => hashLeaf sha leaf
  | first :: second :: rest =>
    hashChildren sha
      (subtreeRoot ((first :: second :: rest).take (splitPoint (rest.length + 2))))
      (subtreeRoot ((first :: second :: rest).drop (splitPoint (rest.length + 2))))
termination_by hashes => hashes.length
decreasing_by
  · have h := splitPoint_lt (by omega : 2 ≤ rest.length + 2)
    simp only [List.length_take, List.length_cons]
    omega
  · have h := splitPoint_pos (by omega : 2 ≤ rest.length + 2)
    simp only [List.length_drop, List.length_cons]
    omega

def merkleRoot (hashes : List String) : String := subtreeRoot sha hashes

/-- The siblings on the way to `index`, the deepest first. -/
def inclusionPath (hashes : List String) (index : ℕ) : List String :=
  if _h : 2 ≤ hashes.length then
    let split := splitPoint hashes.length
    if index < split then
      inclusionPath (hashes.take split) index ++ [subtreeRoot sha (hashes.drop split)]
    else
      inclusionPath (hashes.drop split) (index - split) ++ [subtreeRoot sha (hashes.take split)]
  else []
termination_by hashes.length
decreasing_by
  · have hlt := splitPoint_lt _h
    simp only [List.length_take]
    omega
  · have hpos := splitPoint_pos _h
    simp only [List.length_drop]
    omega

def merkleInclusionProof (hashes : List String) (index : ℕ) : Option (List String) :=
  if hashes.isEmpty ∨ hashes.length ≤ index then none
  else some (inclusionPath sha hashes index)

end Tree

/-- `reconstruct` of the inclusion verifier, over any type of hashes: the hash rebuilt at
this subtree and the cursor into the proof after its siblings are taken. -/
def reconstruct {Hash : Type} (combine : Hash → Hash → Hash) (current : Hash)
    (index treeSize : ℕ) (proof : List Hash) (cursor : ℕ) : Option (Hash × ℕ) :=
  if _h : 2 ≤ treeSize then
    let split := splitPoint treeSize
    if index < split then do
      let (child, cursor) ← reconstruct combine current index split proof cursor
      let sibling ← proof[cursor]?
      return (combine child sibling, cursor + 1)
    else do
      let (child, cursor) ←
        reconstruct combine current (index - split) (treeSize - split) proof cursor
      let sibling ← proof[cursor]?
      return (combine sibling child, cursor + 1)
  else some (current, cursor)
termination_by treeSize
decreasing_by
  · exact splitPoint_lt _h
  · have hpos := splitPoint_pos _h
    omega

def verifyMerkleInclusion (sha : Sha256) (leaf : String) (index treeSize : ℕ)
    (proof : List String) (root : String) : Bool :=
  if treeSize = 0 ∨ treeSize ≤ index then false
  else
    match reconstruct (hashChildren sha) (hashLeaf sha leaf) index treeSize proof 0 with
    | some (candidate, cursor) => candidate == root && cursor == proof.length
    | none => false

/-! ## Consistency proofs -/

structure MerkleRangeNode (Hash : Type) where
  start : ℕ
  size : ℕ
  hash : Hash
  deriving DecidableEq, Repr

structure MerkleConsistencyProof where
  fromSize : ℕ
  toSize : ℕ
  prefixNodes : List (MerkleRangeNode String)
  suffixNodes : List (MerkleRangeNode String)
  deriving DecidableEq, Repr

/-- `1 << (usize::BITS - 1 - n.leading_zeros())`: the highest power of two in `n`. -/
def highestPower (n : ℕ) : ℕ := 1 <<< Nat.log2 n

/-- `n.trailing_zeros()` of a positive `n`. -/
def trailingZeros : ℕ → ℕ → ℕ
  | 0, _ => 0
  | fuel + 1, n => if n % 2 = 0 then trailingZeros fuel (n / 2) + 1 else 0

/-- `while cursor + size > end { size >>= 1 }`. -/
def shrinkSize (cursor stop : ℕ) : ℕ → ℕ → ℕ
  | 0, size => size
  | fuel + 1, size =>
    if cursor + size > stop then shrinkSize cursor stop fuel (size >>> 1) else size

def rangeSize (cursor stop : ℕ) : ℕ :=
  let remaining := stop - cursor
  let alignment := if cursor = 0 then highestPower remaining else 1 <<< trailingZeros cursor cursor
  let size := min alignment (highestPower remaining)
  shrinkSize cursor stop size size

def compactRangeLoop (sha : Sha256) (hashes : List String) (stop : ℕ) :
    ℕ → ℕ → List (MerkleRangeNode String)
  | 0, _ => []
  | fuel + 1, cursor =>
    if cursor < stop then
      let size := rangeSize cursor stop
      { start := cursor, size := size,
        hash := subtreeRoot sha ((hashes.drop cursor).take size) } ::
        compactRangeLoop sha hashes stop fuel (cursor + size)
    else []

def compactRange (sha : Sha256) (hashes : List String) (start stop : ℕ) :
    List (MerkleRangeNode String) := compactRangeLoop sha hashes stop (stop - start) start

def merkleConsistencyProof (sha : Sha256) (hashes : List String) (fromSize : ℕ) :
    Option MerkleConsistencyProof :=
  if fromSize > hashes.length then none
  else some {
    fromSize := fromSize
    toSize := hashes.length
    prefixNodes := compactRange sha hashes 0 fromSize
    suffixNodes := compactRange sha hashes fromSize hashes.length }

def isPowerOfTwo (n : ℕ) : Bool := 2 ^ Nat.log2 n == n

section Frontier
variable {Hash : Type} (combine : Hash → Hash → Hash)

/-- Pushing a node on the stack (its top is the head) and merging while the two top
nodes are the aligned halves of one range. -/
def mergeInto (right : MerkleRangeNode Hash) :
    List (MerkleRangeNode Hash) → List (MerkleRangeNode Hash)
  | [] => [right]
  | left :: rest =>
    if left.size ≠ right.size ∨ left.start + left.size ≠ right.start ∨
        left.start % (left.size * 2) ≠ 0 then right :: left :: rest
    else
      mergeInto { start := left.start, size := left.size * 2,
                  hash := combine left.hash right.hash } rest

def frontierStack : List (MerkleRangeNode Hash) → ℕ → List (MerkleRangeNode Hash) →
    Option (ℕ × List (MerkleRangeNode Hash))
  | [], cursor, stack => some (cursor, stack)
  | node :: nodes, cursor, stack =>
    if node.start ≠ cursor ∨ node.size = 0 ∨ ¬ isPowerOfTwo node.size then none
    else if cursor + node.size ≤ usizeMax then
      frontierStack nodes (cursor + node.size) (mergeInto combine node stack)
    else none

/-- The stack is folded from its top, each node joined on the left. -/
def foldStack : List (MerkleRangeNode Hash) → Option Hash
  | [] => none
  | top :: rest => some (rest.foldl (fun root node => combine node.hash root) top.hash)

/-- `root_from_frontier` over any type of hashes; the registry's are strings. -/
def rootFromFrontier (emptyRoot : Hash) (nodes : List (MerkleRangeNode Hash))
    (expectedSize : ℕ) : Option Hash :=
  if expectedSize = 0 then (if nodes.isEmpty then some emptyRoot else none)
  else do
    let (cursor, stack) ← frontierStack combine nodes 0 []
    if cursor ≠ expectedSize then none else foldStack combine stack

end Frontier

def verifyMerkleConsistency (sha : Sha256) (proof : MerkleConsistencyProof)
    (fromRoot toRoot : String) : Bool :=
  if proof.fromSize > proof.toSize then false
  else
    let root := rootFromFrontier (hashChildren sha) (hexSha256 sha [])
    root proof.prefixNodes proof.fromSize == some fromRoot &&
      root (proof.prefixNodes ++ proof.suffixNodes) proof.toSize == some toRoot

end Oath.Registry
