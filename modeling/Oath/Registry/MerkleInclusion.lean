import Oath.Library.HashTree
import Oath.Registry.Merkle

/-! The registry's roots as digests of hash trees, and the inclusion proofs over
them: every leaf's path is accepted, and only the leaf in its place is. -/

namespace Oath.Registry
open HashTree

def merkleSplit : SplitRule where
  split := splitPoint
  pos := splitPoint_pos
  lt := splitPoint_lt

/-- The two prefix bytes keep leaves and nodes apart, and a digest of sixty-four
characters marks where the left child of a node ends. -/
def merkleScheme (sha : Sha256) : HashScheme String String (List UInt8) where
  hash := hexSha256 sha
  emptyInput := []
  leafInput leaf := 0 :: asBytes leaf
  nodeInput left right := 1 :: (asBytes left ++ asBytes right)
  Regular digest := (asBytes digest).length = 64
  regular_hash := length_hexSha256 sha
  leafInput_injective := fun _ _ h => asBytes_injective (List.cons.inj h).2
  nodeInput_inj := by
    intro a b c d h hc hd hab
    have hsplit := (List.cons.inj h).2
    have hlen := congrArg List.length hsplit
    simp only [List.length_append] at hlen
    have hac : (asBytes a).length = (asBytes c).length := by rcases hab with ha | hb <;> omega
    obtain ⟨h1, h2⟩ := List.append_inj hsplit hac
    exact ⟨asBytes_injective h1, asBytes_injective h2⟩
  leaf_ne_empty := by simp
  node_ne_empty := by simp
  node_ne_leaf := by simp

section Roots
variable (sha : Sha256)

theorem subtreeRoot_nil : subtreeRoot sha [] = hexSha256 sha [] := by rw [subtreeRoot]

theorem subtreeRoot_singleton (leaf : String) : subtreeRoot sha [leaf] = hashLeaf sha leaf := by
  rw [subtreeRoot]

theorem subtreeRoot_of_two_le {hashes : List String} (h : 2 ≤ hashes.length) :
    subtreeRoot sha hashes = hashChildren sha
      (subtreeRoot sha (hashes.take (splitPoint hashes.length)))
      (subtreeRoot sha (hashes.drop (splitPoint hashes.length))) := by
  match hashes, h with
  | first :: second :: rest, _ => rw [subtreeRoot]; rfl

/-- The recursive root is the digest of the tree over the leaves. -/
theorem subtreeRoot_eq_digest (hashes : List String) :
    subtreeRoot sha hashes = (ofLeaves merkleSplit hashes).digest (merkleScheme sha) := by
  induction hn : hashes.length using Nat.strong_induction_on generalizing hashes with
  | _ n ih =>
    match hashes with
    | [] => rw [subtreeRoot_nil, ofLeaves_nil]; rfl
    | [only] => rw [subtreeRoot_singleton, ofLeaves_singleton]; rfl
    | first :: second :: rest =>
      have h2 : 2 ≤ (first :: second :: rest).length := by simp
      have hlt := splitPoint_lt h2
      have hpos := splitPoint_pos h2
      rw [subtreeRoot_of_two_le sha h2, ofLeaves_of_two_le merkleSplit h2,
        ih _ (by simp only [List.length_take]; omega) _ rfl,
        ih _ (by simp only [List.length_drop]; omega) _ rfl]
      rfl

/-- The strings that `merkle_root` hashes. -/
def rootInputs (hashes : List String) : Set (List UInt8) :=
  (ofLeaves merkleSplit hashes).inputs (merkleScheme sha)

end Roots

/-! ## The verifier's recursion -/

section Reconstruct
variable {Hash : Type} (combine : Hash → Hash → Hash)

theorem reconstruct_leaf (current : Hash) (index : ℕ) (proof : List Hash) (cursor : ℕ)
    {treeSize : ℕ} (h : ¬ 2 ≤ treeSize) :
    reconstruct combine current index treeSize proof cursor = some (current, cursor) := by
  rw [reconstruct, dif_neg h]

theorem reconstruct_left (current : Hash) {index treeSize : ℕ} (proof : List Hash) (cursor : ℕ)
    (h : 2 ≤ treeSize) (hi : index < splitPoint treeSize) :
    reconstruct combine current index treeSize proof cursor =
      (reconstruct combine current index (splitPoint treeSize) proof cursor).bind fun p =>
        proof[p.2]?.map fun sibling => (combine p.1 sibling, p.2 + 1) := by
  rw [reconstruct, dif_pos h]
  simp only [hi, if_true, Option.bind_eq_bind]
  congr 1
  funext ⟨child, cursor⟩
  cases proof[cursor]? <;> rfl

theorem reconstruct_right (current : Hash) {index treeSize : ℕ} (proof : List Hash) (cursor : ℕ)
    (h : 2 ≤ treeSize) (hi : splitPoint treeSize ≤ index) :
    reconstruct combine current index treeSize proof cursor =
      (reconstruct combine current (index - splitPoint treeSize)
        (treeSize - splitPoint treeSize) proof cursor).bind fun p =>
        proof[p.2]?.map fun sibling => (combine sibling p.1, p.2 + 1) := by
  rw [reconstruct, dif_pos h]
  simp only [not_lt.mpr hi, if_false, Option.bind_eq_bind]
  congr 1
  funext ⟨child, cursor⟩
  cases proof[cursor]? <;> rfl

/-- Reconstruction commutes with a map that commutes with combining. -/
theorem reconstruct_map {α β : Type} (f : α → β) (ca : α → α → α) (cb : β → β → β)
    (hf : ∀ a b, f (ca a b) = cb (f a) (f b)) (current : α) (index treeSize : ℕ)
    (proof : List α) (cursor : ℕ) :
    reconstruct cb (f current) index treeSize (proof.map f) cursor =
      (reconstruct ca current index treeSize proof cursor).map fun p => (f p.1, p.2) := by
  induction treeSize using Nat.strong_induction_on generalizing index with
  | _ n ih =>
    by_cases h2 : 2 ≤ n
    · rcases lt_or_ge index (splitPoint n) with hi | hi
      · rw [reconstruct_left cb _ _ _ h2 hi, reconstruct_left ca _ _ _ h2 hi,
          ih _ (splitPoint_lt h2)]
        cases reconstruct ca current index (splitPoint n) proof cursor with
        | none => rfl
        | some p => cases hs : proof[p.2]? <;> simp [List.getElem?_map, hs, hf]
      · have hpos := splitPoint_pos h2
        rw [reconstruct_right cb _ _ _ h2 hi, reconstruct_right ca _ _ _ h2 hi,
          ih _ (by omega)]
        cases reconstruct ca current (index - splitPoint n) (n - splitPoint n) proof cursor with
        | none => rfl
        | some p => cases hs : proof[p.2]? <;> simp [List.getElem?_map, hs, hf]
    · rw [reconstruct_leaf cb _ _ _ _ h2, reconstruct_leaf ca _ _ _ _ h2]
      rfl

end Reconstruct

/-! ## Completeness -/

section Completeness
variable (sha : Sha256)

theorem inclusionPath_small {hashes : List String} (h : ¬ 2 ≤ hashes.length) (index : ℕ) :
    inclusionPath sha hashes index = [] := by
  rw [inclusionPath, dif_neg h]

theorem inclusionPath_left {hashes : List String} (h : 2 ≤ hashes.length) {index : ℕ}
    (hi : index < splitPoint hashes.length) :
    inclusionPath sha hashes index =
      inclusionPath sha (hashes.take (splitPoint hashes.length)) index ++
        [subtreeRoot sha (hashes.drop (splitPoint hashes.length))] := by
  rw [inclusionPath, dif_pos h, if_pos hi]

theorem inclusionPath_right {hashes : List String} (h : 2 ≤ hashes.length) {index : ℕ}
    (hi : splitPoint hashes.length ≤ index) :
    inclusionPath sha hashes index =
      inclusionPath sha (hashes.drop (splitPoint hashes.length))
          (index - splitPoint hashes.length) ++
        [subtreeRoot sha (hashes.take (splitPoint hashes.length))] := by
  rw [inclusionPath, dif_pos h, if_neg (not_lt.mpr hi)]

/-- The verifier consumes exactly the path laid out at its cursor and rebuilds the root. -/
theorem reconstruct_inclusionPath (hashes : List String) (index : ℕ) {leaf : String}
    (hi : hashes[index]? = some leaf) (front back : List String) :
    reconstruct (hashChildren sha) (hashLeaf sha leaf) index hashes.length
        (front ++ inclusionPath sha hashes index ++ back) front.length =
      some (subtreeRoot sha hashes, (front ++ inclusionPath sha hashes index).length) := by
  induction hn : hashes.length using Nat.strong_induction_on generalizing hashes index back with
  | _ n ih =>
    subst hn
    have hlen := (List.getElem?_eq_some_iff.mp hi).1
    by_cases h2 : 2 ≤ hashes.length
    · have hlt := splitPoint_lt h2
      have hpos := splitPoint_pos h2
      rcases lt_or_ge index (splitPoint hashes.length) with hlr | hlr
      · have htake : (hashes.take (splitPoint hashes.length)).length =
            splitPoint hashes.length := by simp only [List.length_take]; omega
        have hrec := ih _ (by omega) (hashes.take (splitPoint hashes.length)) index
          (by rwa [List.getElem?_take_of_lt hlr])
          (subtreeRoot sha (hashes.drop (splitPoint hashes.length)) :: back) rfl
        rw [htake] at hrec
        rw [reconstruct_left _ _ _ _ h2 hlr, inclusionPath_left sha h2 hlr,
          subtreeRoot_of_two_le sha h2]
        simp only [List.append_assoc, List.cons_append, List.nil_append] at hrec ⊢
        rw [hrec]
        simp [← List.append_assoc]
      · have hdrop : (hashes.drop (splitPoint hashes.length)).length =
            hashes.length - splitPoint hashes.length := List.length_drop
        have hrec := ih _ (by omega) (hashes.drop (splitPoint hashes.length))
          (index - splitPoint hashes.length)
          (by rwa [List.getElem?_drop, Nat.add_sub_cancel' hlr])
          (subtreeRoot sha (hashes.take (splitPoint hashes.length)) :: back) rfl
        rw [hdrop] at hrec
        rw [reconstruct_right _ _ _ _ h2 hlr, inclusionPath_right sha h2 hlr,
          subtreeRoot_of_two_le sha h2]
        simp only [List.append_assoc, List.cons_append, List.nil_append] at hrec ⊢
        rw [hrec]
        simp [← List.append_assoc]
    · obtain ⟨only, rfl⟩ := List.length_eq_one_iff.mp (by omega : hashes.length = 1)
      obtain rfl : index = 0 := by simpa using hlen
      obtain rfl : only = leaf := by simpa using hi
      rw [reconstruct_leaf _ _ _ _ _ h2, inclusionPath_small sha h2, subtreeRoot_singleton]
      simp

theorem verifyMerkleInclusion_inclusionPath (hashes : List String) {index : ℕ}
    (hi : index < hashes.length) :
    verifyMerkleInclusion sha hashes[index] index hashes.length
      (inclusionPath sha hashes index) (merkleRoot sha hashes) = true := by
  have h := reconstruct_inclusionPath sha hashes index (List.getElem?_eq_getElem hi) [] []
  simp only [List.nil_append, List.append_nil, List.length_nil] at h
  rw [verifyMerkleInclusion, if_neg (by omega), h, merkleRoot]
  simp

end Completeness

/-! ## Soundness -/

section Soundness
variable (sha : Sha256)

/-- The reconstruction with every hash kept as the tree it is computed from. -/
def inclusionTree (leaf : String) (index treeSize : ℕ) (proof : List String) :
    Option (HashTree String String × ℕ) :=
  reconstruct node (.leaf leaf) index treeSize (proof.map given) 0

/-- The strings that the inclusion verifier hashes. -/
def inclusionInputs (leaf : String) (index treeSize : ℕ) (proof : List String) :
    Set (List UInt8) :=
  {i | ∃ p ∈ inclusionTree leaf index treeSize proof, i ∈ p.1.inputs (merkleScheme sha)}

theorem map_digest_given (proof : List String) :
    (proof.map given).map (digest (merkleScheme sha)) = proof := by
  simp [List.map_map, Function.comp_def, digest]

theorem reconstruct_eq_inclusionTree (leaf : String) (index treeSize : ℕ) (proof : List String) :
    reconstruct (hashChildren sha) (hashLeaf sha leaf) index treeSize proof 0 =
      (inclusionTree leaf index treeSize proof).map
        fun p => (p.1.digest (merkleScheme sha), p.2) := by
  have h := reconstruct_map (digest (merkleScheme sha)) node (hashChildren sha)
    (fun _ _ => rfl) (.leaf leaf) index treeSize (proof.map given) 0
  rwa [map_digest_given] at h

variable {sha}

theorem computed_of_reconstruct (leaf : String) (proof : List (HashTree String String))
    (cursor : ℕ) {index treeSize cursor' : ℕ} {t : HashTree String String}
    (h : reconstruct node (.leaf leaf) index treeSize proof cursor = some (t, cursor')) :
    t.Computed := by
  by_cases h2 : 2 ≤ treeSize
  · rcases lt_or_ge index (splitPoint treeSize) with hlr | hlr
    · rw [reconstruct_left _ _ _ _ h2 hlr] at h
      simp only [Option.bind_eq_some_iff, Option.map_eq_some_iff, Prod.mk.injEq] at h
      obtain ⟨p, -, sibling, -, rfl, -⟩ := h
      trivial
    · rw [reconstruct_right _ _ _ _ h2 hlr] at h
      simp only [Option.bind_eq_some_iff, Option.map_eq_some_iff, Prod.mk.injEq] at h
      obtain ⟨p, -, sibling, -, rfl, -⟩ := h
      trivial
  · rw [reconstruct_leaf _ _ _ _ _ h2] at h
    simp only [Option.some.injEq, Prod.mk.injEq] at h
    exact h.1 ▸ trivial

/-- A reconstructed tree with the digest of the tree over `hashes` starts from the leaf
at `index`. -/
theorem getElem?_of_reconstruct {S : Set (List UInt8)}
    (hS : Set.InjOn (merkleScheme sha).hash S) (leaf : String)
    (proof : List (HashTree String String)) (cursor : ℕ) (index : ℕ) (hashes : List String)
    (hi : index < hashes.length) {t : HashTree String String} {cursor' : ℕ}
    (hrec : reconstruct node (.leaf leaf) index hashes.length proof cursor = some (t, cursor'))
    (ht : t.inputs (merkleScheme sha) ⊆ S) (hroot : rootInputs sha hashes ⊆ S)
    (hdigest : t.digest (merkleScheme sha) =
      (ofLeaves merkleSplit hashes).digest (merkleScheme sha)) :
    hashes[index]? = some leaf := by
  induction hn : hashes.length using Nat.strong_induction_on
    generalizing hashes index t cursor' with
  | _ n ih =>
    subst hn
    by_cases h2 : 2 ≤ hashes.length
    · have hlt := splitPoint_lt h2
      have hpos := splitPoint_pos h2
      rcases lt_or_ge index (splitPoint hashes.length) with hlr | hlr
      · rw [reconstruct_left _ _ _ _ h2 hlr] at hrec
        simp only [Option.bind_eq_some_iff, Option.map_eq_some_iff, Prod.mk.injEq] at hrec
        obtain ⟨⟨child, c⟩, hchild, sibling, -, rfl, -⟩ := hrec
        have hlen : (hashes.take (splitPoint hashes.length)).length =
            splitPoint hashes.length := by simp only [List.length_take]; omega
        obtain ⟨-, hl, -⟩ := children_of_digest_eq hS ht hroot
          (Or.inl (regular_digest _ (computed_of_reconstruct leaf _ _ hchild))) hdigest
        have hrec' := ih _ (by omega) index (hashes.take (splitPoint hashes.length)) (by omega)
          (by rw [hlen]; exact hchild)
          ((inputs_left_subset _ _ _).trans ht) (inputs_take_subset h2 hroot) hl rfl
        rwa [List.getElem?_take_of_lt hlr] at hrec'
      · rw [reconstruct_right _ _ _ _ h2 hlr] at hrec
        simp only [Option.bind_eq_some_iff, Option.map_eq_some_iff, Prod.mk.injEq] at hrec
        obtain ⟨⟨child, c⟩, hchild, sibling, -, rfl, -⟩ := hrec
        have hlen : (hashes.drop (splitPoint hashes.length)).length =
            hashes.length - splitPoint hashes.length := List.length_drop
        obtain ⟨-, -, hr⟩ := children_of_digest_eq hS ht hroot
          (Or.inr (regular_digest _ (computed_of_reconstruct leaf _ _ hchild))) hdigest
        have hrec' := ih _ (by omega) (index - splitPoint hashes.length)
          (hashes.drop (splitPoint hashes.length)) (by omega) (by rw [hlen]; exact hchild)
          ((inputs_right_subset _ _ _).trans ht) (inputs_drop_subset h2 hroot) hr rfl
        rwa [List.getElem?_drop, Nat.add_sub_cancel' hlr] at hrec'
    · have h1 : hashes.length = 1 := by omega
      obtain ⟨x, rfl⟩ := List.length_eq_one_iff.mp h1
      obtain rfl : index = 0 := by simpa using hi
      rw [reconstruct_leaf _ _ _ _ _ h2] at hrec
      simp only [Option.some.injEq, Prod.mk.injEq] at hrec
      obtain ⟨rfl, -⟩ := hrec
      have hsingle : (HashTree.leaf leaf : HashTree String String) = ofLeaves merkleSplit [leaf] :=
        (ofLeaves_singleton _ _).symm
      rw [hsingle] at ht hdigest
      have := ofLeaves_digest_injective hS ht hroot hdigest
      simp_all

end Soundness

/-- Inclusion proofs are complete and sound. No hash onto thirty-two bytes is injective,
so injectivity is asked of the strings the tree and the verifier hash. -/
theorem merkleInclusion_complete_sound (sha : Sha256) (hashes : List String) (index : ℕ)
    (hi : index < hashes.length) :
    (∃ proof, merkleInclusionProof sha hashes index = some proof ∧
      verifyMerkleInclusion sha hashes[index] index hashes.length proof
        (merkleRoot sha hashes) = true) ∧
    ∀ (leaf : String) (proof : List String),
      Set.InjOn sha.digest
        (rootInputs sha hashes ∪ inclusionInputs sha leaf index hashes.length proof) →
      verifyMerkleInclusion sha leaf index hashes.length proof (merkleRoot sha hashes) = true →
      leaf = hashes[index] := by
  constructor
  · refine ⟨inclusionPath sha hashes index, ?_, verifyMerkleInclusion_inclusionPath sha hashes hi⟩
    rw [merkleInclusionProof, if_neg]
    rintro (h | h)
    · simp_all
    · omega
  · intro leaf proof hinj hverify
    rw [verifyMerkleInclusion, if_neg (by omega), reconstruct_eq_inclusionTree] at hverify
    cases htree : inclusionTree leaf index hashes.length proof with
    | none => simp [htree] at hverify
    | some p =>
      obtain ⟨t, cursor⟩ := p
      simp only [htree, Option.map_some, Bool.and_eq_true, beq_iff_eq] at hverify
      rw [merkleRoot, subtreeRoot_eq_digest] at hverify
      have hmem := getElem?_of_reconstruct (hexSha256_injOn sha hinj) leaf _ _ _ _ hi htree
        (fun i hx => Or.inr ⟨_, htree, hx⟩) (fun i hx => Or.inl hx) hverify.1
      rw [List.getElem?_eq_getElem hi] at hmem
      exact (Option.some.inj hmem).symm

/-! The tree over two leaves, on which the theorems are exercised with SHA-256. -/

def pairInputs (sha : Sha256) : List (List UInt8) :=
  [0 :: asBytes "a", 0 :: asBytes "b",
    1 :: (asBytes (hashLeaf sha "a") ++ asBytes (hashLeaf sha "b"))]

theorem ofLeaves_pair : (ofLeaves merkleSplit ["a", "b"] : HashTree String String) =
    node (.leaf "a") (.leaf "b") := by
  rw [ofLeaves_of_two_le merkleSplit (by decide)]
  exact congrArg₂ node (ofLeaves_singleton _ _) (ofLeaves_singleton _ _)

theorem rootInputs_pair (sha : Sha256) :
    ∀ i ∈ rootInputs sha ["a", "b"], i ∈ pairInputs sha := by
  rw [rootInputs, ofLeaves_pair]
  rintro i (rfl | rfl | rfl) <;> simp [pairInputs, merkleScheme, digest, hashLeaf]

theorem merkleRoot_pair (sha : Sha256) :
    merkleRoot sha ["a", "b"] = hashChildren sha (hashLeaf sha "a") (hashLeaf sha "b") := by
  rw [merkleRoot, subtreeRoot_eq_digest, ofLeaves_pair]
  rfl

theorem injOn_pairInputs {S : Set (List UInt8)} (h : ∀ i ∈ S, i ∈ pairInputs .fips180) :
    Set.InjOn Sha256.fips180.digest S := by
  have hpair : ∀ i ∈ pairInputs .fips180, ∀ j ∈ pairInputs .fips180,
      Sha256.fips180.digest i = Sha256.fips180.digest j → i = j := by decide +kernel
  exact fun i hi j hj => hpair i (h i hi) j (h j hj)

theorem merkleInclusion_complete_sound_pair :
    (∃ proof, merkleInclusionProof .fips180 ["a", "b"] 1 = some proof ∧
      verifyMerkleInclusion .fips180 "b" 1 2 proof (merkleRoot .fips180 ["a", "b"]) = true) ∧
    "b" = ["a", "b"][1] := by
  obtain ⟨hcomplete, hsound⟩ :=
    merkleInclusion_complete_sound .fips180 ["a", "b"] 1 (by decide)
  refine ⟨hcomplete, hsound "b" [hashLeaf .fips180 "a"] (injOn_pairInputs ?_) ?_⟩
  · have htree : inclusionTree "b" 1 2 [hashLeaf .fips180 "a"] =
        some (node (given (hashLeaf .fips180 "a")) (.leaf "b"), 1) := by
      rw [inclusionTree, reconstruct_right _ _ _ _ (by decide) (by decide),
        reconstruct_leaf _ _ _ _ _ (by decide)]
      rfl
    rintro i (hi | ⟨p, hp, hi⟩)
    · exact rootInputs_pair _ i hi
    · obtain rfl := Option.mem_unique hp htree
      rcases hi with rfl | hi | rfl
      · simp [pairInputs, merkleScheme, digest, hashLeaf]
      · exact hi.elim
      · simp [pairInputs, merkleScheme]
  · rw [verifyMerkleInclusion, if_neg (by decide),
      reconstruct_right _ _ _ _ (by decide) (by decide),
      reconstruct_leaf _ _ _ _ _ (by decide), merkleRoot_pair]
    simp

end Oath.Registry
