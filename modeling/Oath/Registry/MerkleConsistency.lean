import Oath.Registry.MerkleInclusion

/-! Consistency proofs: the prover's ranges rebuild both roots, and whatever ranges
the verifier accepts, the earlier leaves are a prefix of the later ones. -/

namespace Oath.Registry
open HashTree

/-! ## The frontier machine -/

section Frontier
variable {Hash : Type} (combine : Hash → Hash → Hash)

theorem frontierStack_append (nodes more : List (MerkleRangeNode Hash)) (cursor : ℕ)
    (stack : List (MerkleRangeNode Hash)) :
    frontierStack combine (nodes ++ more) cursor stack =
      (frontierStack combine nodes cursor stack).bind fun p =>
        frontierStack combine more p.1 p.2 := by
  induction nodes generalizing cursor stack with
  | nil => rfl
  | cons node nodes ih =>
    rw [List.cons_append, frontierStack, frontierStack]
    split_ifs with h1 h2
    · rfl
    · exact ih _ _
    · rfl

theorem rootFromFrontier_eq_some {emptyRoot root : Hash} {nodes : List (MerkleRangeNode Hash)}
    {expectedSize : ℕ} (hne : expectedSize ≠ 0) :
    rootFromFrontier combine emptyRoot nodes expectedSize = some root ↔
      ∃ stack, frontierStack combine nodes 0 [] = some (expectedSize, stack) ∧
        foldStack combine stack = some root := by
  rw [rootFromFrontier, if_neg hne, Option.bind_eq_bind]
  cases frontierStack combine nodes 0 [] with
  | none => simp
  | some p =>
    obtain ⟨cursor, stack⟩ := p
    by_cases h : cursor = expectedSize <;> simp [h]

end Frontier

/-! ## Completeness -/

section Completeness
variable (sha : Sha256) (hashes : List String)

/-- The root over the `length` leaves from `start`. -/
def rangeRoot (start length : ℕ) : String := subtreeRoot sha ((hashes.drop start).take length)

/-- The stack that stands for the first `cursor` leaves: one root for each binary digit
of the cursor, the smallest on top. -/
inductive Peaks : ℕ → List (MerkleRangeNode String) → Prop
  | nil : Peaks 0 []
  | cons {start k : ℕ} {rest : List (MerkleRangeNode String)} (h : Peaks start rest)
      (hdvd : 2 ^ (k + 1) ∣ start) :
      Peaks (start + 2 ^ k) (⟨start, 2 ^ k, rangeRoot sha hashes start (2 ^ k)⟩ :: rest)

theorem subtreeRoot_append {xs ys : List String} {k : ℕ} (hx : xs.length = 2 ^ k)
    (hpos : 0 < ys.length) (hle : ys.length ≤ 2 ^ k) :
    subtreeRoot sha (xs ++ ys) = hashChildren sha (subtreeRoot sha xs) (subtreeRoot sha ys) := by
  have hk := Nat.two_pow_pos k
  have hlen : (xs ++ ys).length = 2 ^ k + ys.length := by rw [List.length_append, hx]
  have hsplit : splitPoint (xs ++ ys).length = xs.length := by
    rw [hlen, hx]
    exact splitPoint_eq (by omega) (by rw [pow_succ]; omega)
  rw [subtreeRoot_of_two_le sha (by omega), hsplit, List.take_left, List.drop_left]

theorem rangeRoot_add {start k length : ℕ} (hpos : 0 < length) (hle : length ≤ 2 ^ k)
    (hend : start + 2 ^ k + length ≤ hashes.length) :
    rangeRoot sha hashes start (2 ^ k + length) =
      hashChildren sha (rangeRoot sha hashes start (2 ^ k))
        (rangeRoot sha hashes (start + 2 ^ k) length) := by
  rw [rangeRoot, List.take_add, List.drop_drop]
  refine subtreeRoot_append (k := k) sha ?_ ?_ ?_ <;>
    simp only [List.length_take, List.length_drop] <;> omega

theorem mergeInto_peaks {start k : ℕ} {stack : List (MerkleRangeNode String)}
    (h : Peaks sha hashes start stack) (hdvd : 2 ^ k ∣ start)
    (hend : start + 2 ^ k ≤ hashes.length) :
    Peaks sha hashes (start + 2 ^ k)
      (mergeInto (hashChildren sha) ⟨start, 2 ^ k, rangeRoot sha hashes start (2 ^ k)⟩ stack) := by
  induction h generalizing k with
  | nil =>
    rw [mergeInto]
    exact .cons .nil (dvd_zero _)
  | @cons start j rest hrest hj ih =>
    have hdvdj : 2 ^ k ∣ 2 ^ j := by
      -- the top range is the lowest digit of the cursor, so nothing aligned is larger
      by_contra hjk
      have hlt : j < k := by
        by_contra hle
        exact hjk (pow_dvd_pow 2 (by omega))
      have hstart : 2 ^ (j + 1) ∣ start + 2 ^ j := (pow_dvd_pow 2 hlt).trans hdvd
      have hself := (Nat.dvd_add_right hj).mp hstart
      exact absurd (Nat.le_of_dvd (Nat.two_pow_pos j) hself) (by rw [pow_succ]; omega)
    have hkj : k ≤ j := (Nat.pow_dvd_pow_iff_le_right (by omega)).mp hdvdj
    rw [mergeInto]
    rcases hkj.lt_or_eq with hlt | rfl
    · have hne : (2 : ℕ) ^ j ≠ 2 ^ k := fun he => by
        have := (Nat.pow_right_injective le_rfl) he
        omega
      rw [if_pos (Or.inl hne)]
      refine .cons (.cons hrest hj) ?_
      exact Nat.dvd_add ((pow_dvd_pow 2 (by omega)).trans hj) (pow_dvd_pow 2 hlt)
    · have hmod : start % (2 ^ k * 2) = 0 := Nat.mod_eq_zero_of_dvd (by rwa [← pow_succ])
      have hmerge : hashChildren sha (rangeRoot sha hashes start (2 ^ k))
          (rangeRoot sha hashes (start + 2 ^ k) (2 ^ k)) =
            rangeRoot sha hashes start (2 ^ (k + 1)) := by
        rw [← rangeRoot_add sha hashes (Nat.two_pow_pos k) le_rfl hend, pow_succ, Nat.mul_two]
      rw [if_neg (by simp [hmod]), hmerge, ← pow_succ]
      have hadd : start + 2 ^ k + 2 ^ k = start + 2 ^ (k + 1) := by rw [pow_succ]; omega
      rw [hadd] at hend ⊢
      exact ih hj hend

theorem foldl_peaks {start k length : ℕ} {stack : List (MerkleRangeNode String)}
    (h : Peaks sha hashes start stack) (hdvd : 2 ^ k ∣ start) (hpos : 0 < length)
    (hle : length ≤ 2 ^ k) (hend : start + length ≤ hashes.length) :
    stack.foldl (fun root node => hashChildren sha node.hash root)
      (rangeRoot sha hashes start length) = rangeRoot sha hashes 0 (start + length) := by
  induction h generalizing k length with
  | nil => simp
  | @cons start j rest hrest hj ih =>
    have hkj : k ≤ j := by
      by_contra hlt
      have hstart : 2 ^ (j + 1) ∣ start + 2 ^ j := (pow_dvd_pow 2 (by omega)).trans hdvd
      have hself := (Nat.dvd_add_right hj).mp hstart
      exact absurd (Nat.le_of_dvd (Nat.two_pow_pos j) hself) (by rw [pow_succ]; omega)
    have hlej : length ≤ 2 ^ j := hle.trans (Nat.pow_le_pow_right (by omega) hkj)
    have hj0 := Nat.two_pow_pos j
    rw [List.foldl_cons, ← rangeRoot_add sha hashes hpos hlej hend, Nat.add_assoc]
    exact ih hj (by omega) (by rw [pow_succ]; omega) (by omega)

/-- A stack of peaks folds to the root of the leaves it stands for. -/
theorem foldStack_peaks {size : ℕ} {stack : List (MerkleRangeNode String)}
    (h : Peaks sha hashes size stack) (hpos : 0 < size) (hend : size ≤ hashes.length) :
    foldStack (hashChildren sha) stack = some (merkleRoot sha (hashes.take size)) := by
  cases h with
  | nil => omega
  | @cons start k rest hrest hdvd =>
    rw [foldStack, foldl_peaks sha hashes hrest ((pow_dvd_pow 2 (Nat.le_succ k)).trans hdvd)
      (Nat.two_pow_pos k) le_rfl hend]
    simp [rangeRoot, merkleRoot]

theorem highestPower_eq (n : ℕ) : highestPower n = 2 ^ Nat.log2 n := by
  rw [highestPower, Nat.shiftLeft_eq, one_mul]

theorem two_pow_trailingZeros_dvd (fuel n : ℕ) : 2 ^ trailingZeros fuel n ∣ n := by
  induction fuel generalizing n with
  | zero => simp [trailingZeros]
  | succ fuel ih =>
    rw [trailingZeros]
    split_ifs with h
    · rw [pow_succ]
      exact (Nat.mul_dvd_mul_right (ih (n / 2)) 2).trans
        (Nat.div_mul_cancel (Nat.dvd_of_mod_eq_zero h)).dvd
    · simp

/-- Each range is a power of two that divides its start and ends inside the tree. -/
theorem rangeSize_spec {cursor stop : ℕ} (h : cursor < stop) :
    ∃ k, rangeSize cursor stop = 2 ^ k ∧ 2 ^ k ∣ cursor ∧ cursor + 2 ^ k ≤ stop := by
  have hpow : ∃ a, (if cursor = 0 then highestPower (stop - cursor)
      else 1 <<< trailingZeros cursor cursor) = 2 ^ a ∧ 2 ^ a ∣ cursor := by
    split_ifs with h0
    · exact ⟨_, highestPower_eq _, h0 ▸ dvd_zero _⟩
    · exact ⟨_, by rw [Nat.shiftLeft_eq, one_mul], two_pow_trailingZeros_dvd _ _⟩
  obtain ⟨a, ha, hdvd⟩ := hpow
  obtain ⟨k, hk, hka⟩ : ∃ k, min (2 ^ a) (2 ^ Nat.log2 (stop - cursor)) = 2 ^ k ∧ k ≤ a := by
    rcases le_total a (Nat.log2 (stop - cursor)) with hle | hle
    · exact ⟨a, min_eq_left (Nat.pow_le_pow_right (by omega) hle), le_rfl⟩
    · exact ⟨_, min_eq_right (Nat.pow_le_pow_right (by omega) hle), hle⟩
  have hfit : cursor + 2 ^ k ≤ stop := by
    have hlog := Nat.log2_self_le (n := stop - cursor) (by omega)
    have hmin := min_le_right (2 ^ a) (2 ^ Nat.log2 (stop - cursor))
    omega
  refine ⟨k, ?_, (pow_dvd_pow 2 hka).trans hdvd, hfit⟩
  obtain ⟨fuel, hfuel⟩ := Nat.exists_eq_succ_of_ne_zero (Nat.two_pow_pos k).ne'
  simp only [rangeSize]
  rw [ha, highestPower_eq, hk, hfuel, shrinkSize, ← hfuel, if_neg (by omega)]

theorem isPowerOfTwo_two_pow (k : ℕ) : isPowerOfTwo (2 ^ k) = true := by
  simp [isPowerOfTwo, Nat.log2_two_pow]

/-- The prover's ranges carry the peaks of their start to the peaks of their end. -/
theorem frontierStack_compactRangeLoop {stop : ℕ} (hstop : stop ≤ hashes.length)
    (hfits : hashes.length ≤ usizeMax) (fuel cursor : ℕ) (hcursor : cursor ≤ stop)
    (hfuel : stop ≤ cursor + fuel) {stack : List (MerkleRangeNode String)}
    (h : Peaks sha hashes cursor stack) :
    ∃ stack', frontierStack (hashChildren sha) (compactRangeLoop sha hashes stop fuel cursor)
      cursor stack = some (stop, stack') ∧ Peaks sha hashes stop stack' := by
  induction fuel generalizing cursor stack with
  | zero =>
    obtain rfl : cursor = stop := by omega
    exact ⟨stack, rfl, h⟩
  | succ fuel ih =>
    rw [compactRangeLoop]
    by_cases hlt : cursor < stop
    · obtain ⟨k, hk, hdvd, hle⟩ := rangeSize_spec hlt
      have hk0 := Nat.two_pow_pos k
      have hmerge := mergeInto_peaks sha hashes h hdvd (by omega)
      obtain ⟨stack', hrun, hpeaks⟩ := ih (cursor + 2 ^ k) (by omega) (by omega) hmerge
      refine ⟨stack', ?_, hpeaks⟩
      simp only [if_pos hlt, hk]
      rw [frontierStack, if_neg (by simp [isPowerOfTwo_two_pow]),
        if_pos (show cursor + 2 ^ k ≤ usizeMax by omega)]
      exact hrun
    · obtain rfl : cursor = stop := by omega
      rw [if_neg hlt]
      exact ⟨stack, rfl, h⟩

theorem frontierStack_compactRange {start stop : ℕ} (hle : start ≤ stop)
    (hstop : stop ≤ hashes.length) (hfits : hashes.length ≤ usizeMax)
    {stack : List (MerkleRangeNode String)} (h : Peaks sha hashes start stack) :
    ∃ stack', frontierStack (hashChildren sha) (compactRange sha hashes start stop)
      start stack = some (stop, stack') ∧ Peaks sha hashes stop stack' :=
  frontierStack_compactRangeLoop sha hashes hstop hfits _ _ hle (by omega) h

theorem rootFromFrontier_of_peaks {nodes : List (MerkleRangeNode String)} {size : ℕ}
    {stack : List (MerkleRangeNode String)} (hpos : 0 < size) (hend : size ≤ hashes.length)
    (hrun : frontierStack (hashChildren sha) nodes 0 [] = some (size, stack))
    (hpeaks : Peaks sha hashes size stack) :
    rootFromFrontier (hashChildren sha) (hexSha256 sha []) nodes size =
      some (merkleRoot sha (hashes.take size)) :=
  (rootFromFrontier_eq_some _ hpos.ne').mpr ⟨stack, hrun, foldStack_peaks sha hashes hpeaks hpos hend⟩

theorem rootFromFrontier_zero :
    rootFromFrontier (hashChildren sha) (hexSha256 sha []) [] 0 = some (merkleRoot sha []) := by
  rw [merkleRoot, subtreeRoot_nil]
  rfl

end Completeness

/-- Every consistency proof the registry builds is accepted. A slice has at most
`usize::MAX` elements. -/
theorem verifyMerkleConsistency_complete (sha : Sha256) (hashes : List String)
    (hfits : hashes.length ≤ usizeMax) (fromSize : ℕ) (hfrom : fromSize ≤ hashes.length) :
    ∃ proof, merkleConsistencyProof sha hashes fromSize = some proof ∧
      verifyMerkleConsistency sha proof (merkleRoot sha (hashes.take fromSize))
        (merkleRoot sha hashes) = true := by
  refine ⟨_, by rw [merkleConsistencyProof, if_neg (by omega)], ?_⟩
  obtain ⟨stack, hrun, hpeaks⟩ :=
    frontierStack_compactRange sha hashes (Nat.zero_le fromSize) hfrom hfits .nil
  obtain ⟨stack', hrun', hpeaks'⟩ :=
    frontierStack_compactRange sha hashes hfrom le_rfl hfits hpeaks
  have hfull : frontierStack (hashChildren sha) (compactRange sha hashes 0 fromSize ++
      compactRange sha hashes fromSize hashes.length) 0 [] = some (hashes.length, stack') := by
    rw [frontierStack_append, hrun]
    exact hrun'
  have hfirst : rootFromFrontier (hashChildren sha) (hexSha256 sha [])
      (compactRange sha hashes 0 fromSize) fromSize =
        some (merkleRoot sha (hashes.take fromSize)) := by
    rcases Nat.eq_zero_or_pos fromSize with rfl | hpos
    · exact rootFromFrontier_zero sha
    · exact rootFromFrontier_of_peaks sha hashes hpos hfrom hrun hpeaks
  have hwhole : rootFromFrontier (hashChildren sha) (hexSha256 sha [])
      (compactRange sha hashes 0 fromSize ++ compactRange sha hashes fromSize hashes.length)
      hashes.length = some (merkleRoot sha hashes) := by
    rcases Nat.eq_zero_or_pos hashes.length with hzero | hpos
    · obtain rfl := List.length_eq_zero_iff.mp hzero
      obtain rfl : fromSize = 0 := by simpa using hfrom
      exact rootFromFrontier_zero sha
    · have := rootFromFrontier_of_peaks sha hashes hpos le_rfl hfull hpeaks'
      rwa [List.take_length] at this
  rw [verifyMerkleConsistency, if_neg (by simpa using hfrom)]
  simp [hfirst, hwhole]

theorem verifyMerkleConsistency_complete_three :
    ∃ proof, merkleConsistencyProof .fips180 ["a", "b", "c"] 2 = some proof ∧
      verifyMerkleConsistency .fips180 proof (merkleRoot .fips180 (["a", "b", "c"].take 2))
        (merkleRoot .fips180 ["a", "b", "c"]) = true :=
  verifyMerkleConsistency_complete .fips180 ["a", "b", "c"] (by decide) 2 (by decide)

/-! ## Soundness -/

section Soundness

def MerkleRangeNode.map {α β : Type} (f : α → β) (node : MerkleRangeNode α) : MerkleRangeNode β :=
  ⟨node.start, node.size, f node.hash⟩

section Map
variable {α β : Type} (f : α → β) (ca : α → α → α) (cb : β → β → β)
  (hf : ∀ a b, f (ca a b) = cb (f a) (f b))
include hf

theorem mergeInto_map (right : MerkleRangeNode α) (stack : List (MerkleRangeNode α)) :
    mergeInto cb (right.map f) (stack.map (.map f)) = (mergeInto ca right stack).map (.map f) := by
  induction stack generalizing right with
  | nil => rfl
  | cons left rest ih =>
    rw [List.map_cons, mergeInto, mergeInto]
    by_cases h : left.size ≠ right.size ∨ left.start + left.size ≠ right.start ∨
        left.start % (left.size * 2) ≠ 0
    · rw [if_pos h, if_pos (by exact h)]
      rfl
    · rw [if_neg h, if_neg (by exact h), ← ih]
      congr 1
      exact congrArg (MerkleRangeNode.mk _ _) (hf _ _).symm

theorem frontierStack_map (nodes : List (MerkleRangeNode α)) (cursor : ℕ)
    (stack : List (MerkleRangeNode α)) :
    frontierStack cb (nodes.map (.map f)) cursor (stack.map (.map f)) =
      (frontierStack ca nodes cursor stack).map fun p => (p.1, p.2.map (.map f)) := by
  induction nodes generalizing cursor stack with
  | nil => rfl
  | cons node nodes ih =>
    rw [List.map_cons, frontierStack, frontierStack, mergeInto_map f ca cb hf]
    by_cases hbad : node.start ≠ cursor ∨ node.size = 0 ∨ ¬ isPowerOfTwo node.size
    · rw [if_pos hbad, if_pos (by exact hbad)]
      rfl
    · rw [if_neg hbad, if_neg (by exact hbad)]
      by_cases hadd : cursor + node.size ≤ usizeMax
      · rw [if_pos hadd, if_pos (by exact hadd)]
        exact ih _ _
      · rw [if_neg hadd, if_neg (by exact hadd)]
        rfl

theorem foldStack_map (stack : List (MerkleRangeNode α)) :
    foldStack cb (stack.map (.map f)) = (foldStack ca stack).map f := by
  cases stack with
  | nil => rfl
  | cons top rest =>
    have h : ∀ root : α, (rest.map (MerkleRangeNode.map f)).foldl
        (fun root node => cb node.hash root) (f root) =
          f (rest.foldl (fun root node => ca node.hash root) root) := by
      induction rest with
      | nil => intro root; rfl
      | cons node rest ih =>
        intro root
        rw [List.map_cons, List.foldl_cons, List.foldl_cons, ← ih, hf]
        rfl
    exact congrArg some (h top.hash)

theorem rootFromFrontier_map (emptyRoot : α) (nodes : List (MerkleRangeNode α))
    (expectedSize : ℕ) :
    rootFromFrontier cb (f emptyRoot) (nodes.map (.map f)) expectedSize =
      (rootFromFrontier ca emptyRoot nodes expectedSize).map f := by
  rw [rootFromFrontier, rootFromFrontier]
  split_ifs with h0 h1 h2 h2
  · rfl
  · simp_all
  · simp_all
  · rfl
  · have hrun := frontierStack_map f ca cb hf nodes 0 []
    rw [List.map_nil] at hrun
    rw [hrun]
    cases frontierStack ca nodes 0 [] with
    | none => rfl
    | some p =>
      simp only [Option.map_some, Option.bind_eq_bind, Option.bind_some]
      split_ifs
      · rfl
      · exact foldStack_map f ca cb hf p.2

end Map

/-- The frontier fold with every hash kept as the tree it is computed from. -/
def frontierTree (nodes : List (MerkleRangeNode String)) (expectedSize : ℕ) :
    Option (HashTree String String) :=
  rootFromFrontier node .empty (nodes.map (.map given)) expectedSize

theorem rootFromFrontier_eq_frontierTree (sha : Sha256) (nodes : List (MerkleRangeNode String))
    (expectedSize : ℕ) :
    rootFromFrontier (hashChildren sha) (hexSha256 sha []) nodes expectedSize =
      (frontierTree nodes expectedSize).map (digest (merkleScheme sha)) := by
  have h := rootFromFrontier_map (digest (merkleScheme sha)) node (hashChildren sha)
    (fun _ _ => rfl) .empty (nodes.map (.map given)) expectedSize
  have hid : (nodes.map (.map given)).map (.map (digest (merkleScheme sha))) = nodes := by
    simp [List.map_map, Function.comp_def, MerkleRangeNode.map, digest]
  rwa [hid] at h

/-- The strings that `root_from_frontier` hashes. -/
def frontierInputs (sha : Sha256) (nodes : List (MerkleRangeNode String)) (expectedSize : ℕ) :
    Set (List UInt8) :=
  {i | ∃ t ∈ frontierTree nodes expectedSize, i ∈ t.inputs (merkleScheme sha)}

/-- The strings hashed when a consistency proof is checked against the roots over
`earlier` and `later`. -/
def consistencyInputs (sha : Sha256) (proof : MerkleConsistencyProof)
    (earlier later : List String) : Set (List UInt8) :=
  rootInputs sha earlier ∪ rootInputs sha later ∪
    (frontierInputs sha proof.prefixNodes proof.fromSize ∪
      frontierInputs sha (proof.prefixNodes ++ proof.suffixNodes) proof.toSize)

/-! The stack after the prefix nodes is `base`. Later nodes either stay above it or
close it from its top, so each tree of `base` remains a left child. -/

section Stack
variable {α : Type} (base : List (HashTree String String))

def Over (stack : List (MerkleRangeNode (HashTree String String))) : Prop :=
  ∃ above t below us, stack.map (·.hash) = above ++ t :: below ∧
    base = us.reverse ++ below ∧ Extends us t

theorem over_mergeInto {right : MerkleRangeNode (HashTree String String)}
    {stack : List (MerkleRangeNode (HashTree String String))}
    (h : Over base (right :: stack)) : Over base (mergeInto node right stack) := by
  induction stack generalizing right with
  | nil => exact h
  | cons left rest ih =>
    rw [mergeInto]
    split_ifs with hmerge
    · exact h
    · apply ih
      obtain ⟨above, t, below, us, hstack, hbase, hext⟩ := h
      match above with
      | [] =>
        obtain ⟨rfl, hbelow⟩ := List.cons.inj hstack
        refine ⟨[], _, rest.map (·.hash), left.hash :: us, rfl, ?_, .cons left.hash hext⟩
        rw [hbase, ← hbelow]
        simp
      | [_] =>
        simp only [List.map_cons, List.cons_append, List.nil_append, List.cons.injEq] at hstack
        obtain ⟨rfl, rfl, rfl⟩ := hstack
        exact ⟨[], _, _, us, rfl, hbase, .right hext _⟩
      | _ :: _ :: above =>
        simp only [List.map_cons, List.cons_append, List.cons.injEq] at hstack
        obtain ⟨rfl, rfl, hrest⟩ := hstack
        exact ⟨left.hash.node right.hash :: above, t, below, us, by simp [hrest], hbase, hext⟩

theorem over_push {right : MerkleRangeNode (HashTree String String)}
    {stack : List (MerkleRangeNode (HashTree String String))}
    (h : Over base stack ∨ stack.map (·.hash) = base) :
    Over base (mergeInto node right stack) := by
  apply over_mergeInto
  rcases h with ⟨above, t, below, us, hstack, hbase, hext⟩ | rfl
  · exact ⟨right.hash :: above, t, below, us, by simp [hstack], hbase, hext⟩
  · exact ⟨[], right.hash, _, [], rfl, by simp, .nil _⟩

theorem over_frontierStack {nodes : List (MerkleRangeNode (HashTree String String))}
    {cursor cursor' : ℕ} {stack stack' : List (MerkleRangeNode (HashTree String String))}
    (hrun : frontierStack node nodes cursor stack = some (cursor', stack'))
    (h : Over base stack ∨ stack.map (·.hash) = base) :
    Over base stack' ∨ stack'.map (·.hash) = base := by
  induction nodes generalizing cursor stack with
  | nil =>
    simp only [frontierStack, Option.some.injEq, Prod.mk.injEq] at hrun
    exact hrun.2 ▸ h
  | cons n nodes ih =>
    rw [frontierStack] at hrun
    split_ifs at hrun
    exact ih hrun (Or.inl (over_push base h))

/-- Folding a stack over `base` gives a tree that extends all of `base`. -/
theorem extends_foldStack {stack : List (MerkleRangeNode (HashTree String String))}
    {t : HashTree String String} (h : Over base stack) (hfold : foldStack node stack = some t) :
    Extends base.reverse t := by
  have hbelow : ∀ (below : List (MerkleRangeNode (HashTree String String)))
      (us : List (HashTree String String)) (u : HashTree String String), Extends us u →
      Extends ((below.map (·.hash)).reverse ++ us)
        (below.foldl (fun root n => node n.hash root) u) := by
    intro below
    induction below with
    | nil => intro us u hu; exact hu
    | cons n below ih =>
      intro us u hu
      simpa using ih _ _ (.cons n.hash hu)
  have habove : ∀ (above : List (MerkleRangeNode (HashTree String String)))
      (n : MerkleRangeNode (HashTree String String)) (us : List (HashTree String String))
      (root : HashTree String String), Extends us n.hash →
      Extends us ((above ++ [n]).foldl (fun root n => node n.hash root) root) := by
    intro above n us root hu
    rw [List.foldl_append, List.foldl_cons, List.foldl_nil]
    exact .right hu _
  obtain ⟨above, u, below, us, hstack, hbase, hext⟩ := h
  obtain ⟨nabove, nrest, rfl, rfl, hrest⟩ := List.map_eq_append_iff.mp hstack
  obtain ⟨n, nbelow, rfl, rfl, rfl⟩ := List.map_eq_cons_iff.mp hrest
  rw [hbase, List.reverse_append, List.reverse_reverse]
  cases nabove with
  | nil =>
    simp only [List.nil_append, foldStack, Option.some.injEq] at hfold
    exact hfold ▸ hbelow nbelow us n.hash hext
  | cons top nabove =>
    simp only [List.cons_append, foldStack, Option.some.injEq] at hfold
    rw [show nabove ++ n :: nbelow = (nabove ++ [n]) ++ nbelow by simp, List.foldl_append] at hfold
    exact hfold ▸ hbelow nbelow us _ (habove nabove n us _ hext)

theorem foldStack_eq_spine {stack : List (MerkleRangeNode (HashTree String String))}
    {t : HashTree String String} (hfold : foldStack node stack = some t) :
    t = spine (stack.map (·.hash)).reverse := by
  cases stack with
  | nil => simp [foldStack] at hfold
  | cons top rest =>
    have h : ∀ (us : List (HashTree String String)) (u : HashTree String String),
        rest.foldl (fun root n => node n.hash root) (spine (u :: us)) =
          spine ((rest.map (·.hash)).reverse ++ u :: us) := by
      clear hfold
      induction rest with
      | nil => intro us u; rfl
      | cons n rest ih =>
        intro us u
        rw [List.foldl_cons, List.map_cons, List.reverse_cons, List.append_assoc]
        exact ih (u :: us) n.hash
    simp only [foldStack, Option.some.injEq] at hfold
    rw [← hfold, List.map_cons, List.reverse_cons]
    exact h [] top.hash

end Stack

/-- Consistency proofs are sound: whatever sizes and hashes the proof carries, the leaves
under the first root are a prefix of those under the second, of however many there
are. Injectivity is asked of the strings that are hashed. -/
theorem verifyMerkleConsistency_sound (sha : Sha256) (proof : MerkleConsistencyProof)
    (earlier later : List String) (hfrom : earlier.length = proof.fromSize)
    (hinj : Set.InjOn sha.digest (consistencyInputs sha proof earlier later))
    (hverify : verifyMerkleConsistency sha proof (merkleRoot sha earlier)
      (merkleRoot sha later) = true) :
    earlier = later.take proof.fromSize := by
  rw [← hfrom, ← List.prefix_iff_eq_take]
  rcases Nat.eq_zero_or_pos earlier.length with hzero | hpos
  · rw [List.length_eq_zero_iff.mp hzero]
    exact List.nil_prefix
  rw [verifyMerkleConsistency] at hverify
  split_ifs at hverify with hle
  simp only [rootFromFrontier_eq_frontierTree, merkleRoot, subtreeRoot_eq_digest,
    Bool.and_eq_true, beq_iff_eq, Option.map_eq_some_iff] at hverify
  obtain ⟨⟨t, ht, htroot⟩, u, hu, huroot⟩ := hverify
  have hS := hexSha256_injOn sha hinj
  have htS : t.inputs (merkleScheme sha) ⊆ consistencyInputs sha proof earlier later :=
    fun i hi => Or.inr (Or.inl ⟨t, ht, hi⟩)
  have huS : u.inputs (merkleScheme sha) ⊆ consistencyInputs sha proof earlier later :=
    fun i hi => Or.inr (Or.inr ⟨u, hu, hi⟩)
  have hES : rootInputs sha earlier ⊆ consistencyInputs sha proof earlier later :=
    fun i hi => Or.inl (Or.inl hi)
  have hLS : rootInputs sha later ⊆ consistencyInputs sha proof earlier later :=
    fun i hi => Or.inl (Or.inr hi)
  obtain ⟨stack, hrun, hfold⟩ := (rootFromFrontier_eq_some _ (by omega)).mp ht
  obtain ⟨stack', hrun', hfold'⟩ := (rootFromFrontier_eq_some _ (by omega)).mp hu
  rw [List.map_append, frontierStack_append, hrun] at hrun'
  have ht' := foldStack_eq_spine hfold
  rcases over_frontierStack _ hrun' (Or.inr rfl) with hover | hsame
  · refine prefix_of_extends hS ?_ (extends_foldStack _ hover hfold') (ht' ▸ htS) huS hES hLS
      (ht' ▸ htroot) huroot
    intro hnil
    cases stack with
    | nil => simp [foldStack] at hfold
    | cons n rest => simp at hnil
  · -- nothing was added, so both roots are the fold of one stack
    have hut : u = t := by rw [ht', foldStack_eq_spine hfold', hsame]
    have hleaves := ofLeaves_digest_injective hS hES hLS (htroot.symm.trans (hut ▸ huroot))
    exact hleaves ▸ List.prefix_rfl

end Soundness

theorem verifyMerkleConsistency_sound_pair : ["a"] = ["a", "b"].take 1 := by
  have ha : rootFromFrontier (hashChildren .fips180) (hexSha256 .fips180 [])
      [⟨0, 1, hashLeaf .fips180 "a"⟩] 1 = some (hashLeaf .fips180 "a") := rfl
  have hb : rootFromFrontier (hashChildren .fips180) (hexSha256 .fips180 [])
      [⟨0, 1, hashLeaf .fips180 "a"⟩, ⟨1, 1, hashLeaf .fips180 "b"⟩] 2 =
        some (hashChildren .fips180 (hashLeaf .fips180 "a") (hashLeaf .fips180 "b")) := rfl
  refine verifyMerkleConsistency_sound .fips180
    ⟨1, 2, [⟨0, 1, hashLeaf .fips180 "a"⟩], [⟨1, 1, hashLeaf .fips180 "b"⟩]⟩
    ["a"] ["a", "b"] rfl (injOn_pairInputs ?_) ?_
  · rintro i ((hi | hi) | ⟨t, ht, hi⟩ | ⟨t, ht, hi⟩)
    · rw [rootInputs, ofLeaves_singleton] at hi
      obtain rfl := hi
      simp [pairInputs, merkleScheme]
    · exact rootInputs_pair _ i hi
    · obtain rfl := Option.some.inj ht
      exact hi.elim
    · obtain rfl := Option.some.inj ht
      rcases hi with rfl | hi | hi
      · simp [pairInputs, merkleScheme, digest, MerkleRangeNode.map]
      · exact hi.elim
      · exact hi.elim
  · rw [verifyMerkleConsistency, if_neg (by decide), merkleRoot_pair, merkleRoot,
      subtreeRoot_singleton]
    simp only [List.cons_append, List.nil_append]
    rw [ha, hb]
    simp

end Oath.Registry
