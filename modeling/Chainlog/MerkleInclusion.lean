import Chainlog.Merkle
import Chainlog.Reference

/-!
# Merkle inclusion

The tree hash of a non-empty list is the digest of a hash tree with these
leaves, and its paths are the branches of that tree.  Soundness, binding and
completeness of the proofs follow from the general facts on hash trees.
-/

namespace Chainlog

open Merkle

variable (crates : Crates)

/-- The hashing of RFC 6962: leaves and nodes have different first bytes. -/
def rfc6962 : HashTree.Scheme Bytes Bytes Digest where
  leafInput data := 0x00 :: data
  nodeInput left right := 0x01 :: (left.val ++ right.val)
  hash := crates.blake3
  leafInput_injective := by
    intro a b h
    exact (List.cons.inj h).2
  nodeInput_inj := by
    intro l r l' r' h
    have hlength : l.val.length = l'.val.length := by
      rw [l.property, l'.property]
    obtain ⟨hl, hr⟩ := List.append_inj (List.cons.inj h).2 hlength
    exact ⟨Subtype.ext hl, Subtype.ext hr⟩
  leafInput_ne_nodeInput := by simp

/-- The byte strings hashed for the root of a list of leaves. -/
def mthInputs : List Bytes → List Bytes
  | [] => [[]]
  | [leaf] => [0x00 :: leaf]
  | first :: second :: rest =>
      let leaves := first :: second :: rest
      let k := splitPoint leaves.length
      (0x01 :: ((mth crates (leaves.take k)).val ++
          (mth crates (leaves.drop k)).val)) ::
        (mthInputs (leaves.take k) ++ mthInputs (leaves.drop k))
termination_by leaves => leaves.length
decreasing_by
  · have hlt := splitPoint_lt (n := (first :: second :: rest).length) (by simp)
    rw [List.length_take]
    omega
  · have hpos := splitPoint_pos (n := (first :: second :: rest).length) (by simp)
    rw [List.length_drop]
    simp only [List.length_cons] at hpos ⊢
    omega

/-- The byte strings hashed along the steps of a proof. -/
def stepInputs : Digest → List ProofStep → List Bytes
  | _, [] => []
  | node, step :: rest =>
      match Merkle.fromHex step.hash with
      | .error _ => []
      | .ok sib =>
          let input := HashTree.joinInput (rfc6962 crates) node (sib, step.right)
          input :: stepInputs (crates.blake3 input) rest

/-- The byte strings hashed for the verification of a proof. -/
def proofInputs (leaf : Bytes) (proof : MerkleProof) : List Bytes :=
  (0x00 :: leaf) :: stepInputs crates (leafHash crates leaf) proof.path

/-- Two distinct byte strings among the inputs have the same hash. -/
def Collides (inputs : List Bytes) : Prop :=
  ∃ x ∈ inputs, ∃ y ∈ inputs, x ≠ y ∧ crates.blake3 x = crates.blake3 y

/-- A step as the verifier reads it. -/
def ProofStep.decoded (step : ProofStep) : Result Digest × Bool :=
  (Merkle.fromHex step.hash, step.right)

variable {crates}

theorem noCollision_of_not_collides {inputs : List Bytes}
    (h : ¬Collides crates inputs) :
    HashTree.NoCollision (rfc6962 crates) inputs := by
  intro x hx y hy heq
  by_contra hne
  exact h ⟨x, hx, y, hy, hne, heq⟩

theorem fromHex_toHex_step (digest : Digest) :
    Merkle.fromHex (toHex digest) = .ok digest := by
  simp [Merkle.fromHex, Except.mapError]

/-! ## The tree of a list of leaves -/

variable (crates) in
/-- The tree hash and the paths of a non-empty list are those of a tree. -/
theorem exists_tree (leaves : List Bytes) (hne : leaves ≠ []) :
    ∃ t : HashTree Bytes, t.leaves = leaves ∧
      mth crates leaves = t.digest (rfc6962 crates) ∧
      mthInputs crates leaves = t.inputs (rfc6962 crates) ∧
      ∀ m, path crates leaves m = t.branch (rfc6962 crates) m := by
  induction leaves using mth.induct with
  | case1 => exact absurd rfl hne
  | case2 leaf =>
      refine ⟨.leaf leaf, rfl, ?_, ?_, ?_⟩
      · rw [mth]
        rfl
      · rw [mthInputs]
        rfl
      · intro m
        rw [path]
        rfl
  | case3 first second rest leaves k ihleft ihright =>
      have hlength : 2 ≤ leaves.length := by simp [leaves]
      have hpos : 0 < k := splitPoint_pos hlength
      have hlt : k < leaves.length := splitPoint_lt hlength
      obtain ⟨left, hleaves, hdigest, hinputs, hpath⟩ := ihleft (by
        intro hnil
        rw [List.take_eq_nil_iff] at hnil
        rcases hnil with hzero | hnil
        · omega
        · exact List.cons_ne_nil _ _ hnil)
      obtain ⟨right, hleaves', hdigest', hinputs', hpath'⟩ := ihright (by
        intro hnil
        rw [List.drop_eq_nil_iff] at hnil
        omega)
      have hcount : left.leaves.length = k := by
        rw [hleaves, List.length_take]
        omega
      refine ⟨.node left right, ?_, ?_, ?_, ?_⟩
      · rw [HashTree.leaves, hleaves, hleaves', List.take_append_drop]
      · rw [mth]
        simp only [leaves, k] at hdigest hdigest'
        rw [hdigest, hdigest']
        rfl
      · rw [mthInputs]
        simp only [leaves, k] at hdigest hdigest' hinputs hinputs'
        rw [hdigest, hdigest', hinputs, hinputs']
        rfl
      · intro m
        rw [path, HashTree.branch, hcount]
        simp only [leaves, k] at hdigest hdigest' hpath hpath' ⊢
        rw [hpath, hpath', hdigest, hdigest']

theorem mth_nil : mth crates [] = crates.blake3 [] := by
  rw [mth]

theorem mthInputs_nil : mthInputs crates [] = [[]] := by
  rw [mthInputs]

/-! ## The verification loop -/

variable (crates) in
theorem foldlM_climbStep {steps : List ProofStep} {path : List (Digest × Bool)}
    (hdecoded : steps.map ProofStep.decoded =
      path.map fun s => (.ok s.1, s.2)) (node : Digest) :
    steps.foldlM (climbStep crates) node =
        .ok (HashTree.climb (rfc6962 crates) node path) ∧
      stepInputs crates node steps =
        HashTree.climbInputs (rfc6962 crates) node path := by
  induction steps generalizing node path with
  | nil =>
      obtain rfl : path = [] := by simpa using hdecoded.symm
      exact ⟨rfl, rfl⟩
  | cons step steps ih =>
      obtain _ | ⟨⟨sib, side⟩, path⟩ := path
      · simp at hdecoded
      · simp only [List.map_cons, List.cons.injEq, ProofStep.decoded,
          Prod.mk.injEq] at hdecoded
        obtain ⟨⟨hsib, hside⟩, hrest⟩ := hdecoded
        have hstep : climbStep crates node step =
            .ok (crates.blake3
              (HashTree.joinInput (rfc6962 crates) node (sib, step.right))) := by
          simp only [climbStep, hsib, bind, Except.bind, pure, Except.pure]
          cases step.right <;> rfl
        obtain ⟨hfold, hinputs⟩ := ih hrest
          (crates.blake3 (HashTree.joinInput (rfc6962 crates) node (sib, step.right)))
        rw [← hside]
        constructor
        · rw [List.foldlM_cons, hstep]
          exact hfold
        · rw [stepInputs, hsib]
          simp only [hinputs]
          rfl

theorem exists_decoded {steps : List ProofStep} {node final : Digest}
    (hfold : steps.foldlM (climbStep crates) node = .ok final) :
    ∃ path : List (Digest × Bool),
      steps.map ProofStep.decoded = path.map fun s => (.ok s.1, s.2) := by
  induction steps generalizing node with
  | nil => exact ⟨[], rfl⟩
  | cons step steps ih =>
      rw [List.foldlM_cons] at hfold
      cases hsib : Merkle.fromHex step.hash with
      | error err =>
          simp [climbStep, hsib, bind, Except.bind] at hfold
      | ok sib =>
          simp only [climbStep, hsib, bind, Except.bind, pure,
            Except.pure] at hfold
          obtain ⟨path, hpath⟩ := ih hfold
          refine ⟨(sib, step.right) :: path, ?_⟩
          rw [List.map_cons, List.map_cons, hpath, ProofStep.decoded, hsib]

theorem verifyMerkleProof_eq_true {leaf : Bytes} {proof : MerkleProof}
    {root : Digest} :
    verifyMerkleProof crates leaf proof (toHex root) = .ok true ↔
      ∃ path : List (Digest × Bool),
        proof.path.map ProofStep.decoded =
          path.map (fun s => (.ok s.1, s.2)) ∧
        HashTree.climb (rfc6962 crates) (leafHash crates leaf) path = root ∧
        proofInputs crates leaf proof = (0x00 :: leaf) ::
          HashTree.climbInputs (rfc6962 crates) (leafHash crates leaf) path := by
  unfold verifyMerkleProof proofInputs
  constructor
  · intro h
    cases hfold : proof.path.foldlM (climbStep crates)
        (leafHash crates leaf) with
    | error err => simp [hfold, bind, Except.bind] at h
    | ok final =>
        obtain ⟨path, hdecoded⟩ := exists_decoded hfold
        obtain ⟨hclimb, hinputs⟩ :=
          foldlM_climbStep crates hdecoded (leafHash crates leaf)
        rw [hfold] at hclimb
        simp only [hfold, bind, Except.bind, pure, Except.pure,
          Except.ok.injEq, decide_eq_true_eq] at h hclimb
        refine ⟨path, hdecoded, ?_, by rw [hinputs]⟩
        rw [← hclimb]
        exact toHex_injective h
  · rintro ⟨path, hdecoded, hclimb, _⟩
    obtain ⟨hfold, _⟩ :=
      foldlM_climbStep crates hdecoded (leafHash crates leaf)
    simp [hfold, hclimb, bind, Except.bind, pure, Except.pure]

/-! ## Completeness -/

theorem path_map_decoded (leaves : List Bytes) (i : ℕ) :
    ((path crates leaves i).map fun s =>
        ({ hash := toHex s.1, right := s.2 } : ProofStep)).map
          ProofStep.decoded =
      (path crates leaves i).map fun s => (.ok s.1, s.2) := by
  rw [List.map_map]
  apply List.map_congr_left
  intro s _
  simp [ProofStep.decoded, fromHex_toHex_step]

variable (crates) in
theorem exists_verified_proof {leaves : List Bytes} {i : ℕ} {leaf : Bytes}
    (hget : leaves[i]? = some leaf) :
    ∃ p, merkleProof crates leaves i = some p ∧
      verifyMerkleProof crates leaf p (merkleRoot crates leaves) = .ok true := by
  obtain ⟨hlt, _⟩ := List.getElem?_eq_some_iff.mp hget
  have hne : leaves ≠ [] := List.ne_nil_of_length_pos (by omega)
  obtain ⟨t, hleaves, hdigest, _, hpath⟩ := exists_tree crates leaves hne
  refine ⟨_, if_neg (Nat.not_le.mpr hlt), ?_⟩
  apply verifyMerkleProof_eq_true.mpr
  refine ⟨path crates leaves i, path_map_decoded leaves i, ?_, ?_⟩
  · rw [← hleaves] at hget
    rw [hpath, hdigest]
    exact t.climb_branch hget
  · rw [proofInputs,
      (foldlM_climbStep crates (path_map_decoded leaves i) _).2]

/-! ## Soundness and binding -/

theorem ne_nil_of_isInput {x : Bytes} (h : (rfc6962 crates).IsInput x) :
    x ≠ [] := by
  rcases h with ⟨a, rfl⟩ | ⟨l, r, rfl⟩
  · exact List.cons_ne_nil _ _
  · exact List.cons_ne_nil _ _

variable (crates)

theorem verifyMerkleProof_sound (leaves : List Bytes) (leaf : Bytes)
    (p : MerkleProof)
    (hverify : verifyMerkleProof crates leaf p (merkleRoot crates leaves) =
      .ok true) :
    Collides crates (mthInputs crates leaves ++ proofInputs crates leaf p) ∨
      ∃ i honest, i < leaves.length ∧ leaves[i]? = some leaf ∧
        merkleProof crates leaves i = some honest ∧
        p.path.map ProofStep.decoded = honest.path.map ProofStep.decoded := by
  by_cases hcollides :
      Collides crates (mthInputs crates leaves ++ proofInputs crates leaf p)
  · exact Or.inl hcollides
  right
  obtain ⟨steps, hdecoded, hclimb, hinputs⟩ :=
    verifyMerkleProof_eq_true.mp hverify
  have hcollision := noCollision_of_not_collides hcollides
  rw [hinputs] at hcollision
  by_cases hnil : leaves = []
  · subst hnil
    obtain ⟨x, hx, hinput, hhash⟩ := HashTree.exists_climb_input
      (s := rfc6962 crates) leaf steps
    have hempty : x = [] := by
      apply hcollision x (List.mem_append_right _ hx) [] (by simp [mthInputs_nil])
      rw [← hhash]
      exact hclimb.trans mth_nil
    exact absurd hempty (ne_nil_of_isInput hinput)
  · obtain ⟨t, hleaves, hdigest, htree, hpath⟩ := exists_tree crates leaves hnil
    rw [htree] at hcollision
    obtain ⟨i, hget, hbranch⟩ :=
      t.branch_of_climb hcollision (hclimb.trans hdigest)
    rw [hleaves] at hget
    obtain ⟨hlt, _⟩ := List.getElem?_eq_some_iff.mp hget
    refine ⟨i, _, hlt, hget, if_neg (Nat.not_le.mpr hlt), ?_⟩
    rw [hdecoded, hbranch, ← hpath]
    exact (path_map_decoded leaves i).symm

theorem verifyMerkleProof_sound_three :
    ∃ p, verifyMerkleProof referenceCrates [2] p
        (merkleRoot referenceCrates [[1], [2], [3]]) = .ok true ∧
      (Collides referenceCrates
          (mthInputs referenceCrates [[1], [2], [3]] ++
            proofInputs referenceCrates [2] p) ∨
        ∃ i honest, i < 3 ∧ ([[1], [2], [3]] : List Bytes)[i]? = some [2] ∧
          merkleProof referenceCrates [[1], [2], [3]] i = some honest ∧
          p.path.map ProofStep.decoded =
            honest.path.map ProofStep.decoded) := by
  have hget : ([[1], [2], [3]] : List Bytes)[1]? = some [2] := rfl
  obtain ⟨p, _, hverify⟩ := exists_verified_proof referenceCrates hget
  exact ⟨p, hverify, verifyMerkleProof_sound referenceCrates _ _ p hverify⟩

/-- The root commits to the leaves, their number and their order. -/
theorem merkleRoot_binding (L M : List Bytes)
    (hroot : merkleRoot crates L = merkleRoot crates M) :
    Collides crates (mthInputs crates L ++ mthInputs crates M) ∨ L = M := by
  by_cases hcollides :
      Collides crates (mthInputs crates L ++ mthInputs crates M)
  · exact Or.inl hcollides
  right
  have hcollision := noCollision_of_not_collides hcollides
  have hmth : mth crates L = mth crates M := toHex_injective hroot
  -- The empty list is hashed as the empty string, which no tree hashes.
  have hempty : ∀ t : HashTree Bytes, ∀ inputs,
      HashTree.NoCollision (rfc6962 crates) inputs → [] ∈ inputs →
      t.inputs (rfc6962 crates) ⊆ inputs →
      t.digest (rfc6962 crates) ≠ crates.blake3 [] := by
    intro t inputs hno hmem hsubset heq
    obtain ⟨x, hx, hinput, hdigest⟩ :=
      HashTree.exists_input (s := rfc6962 crates) t
    rw [hdigest] at heq
    exact ne_nil_of_isInput hinput (hno x (hsubset hx) [] hmem heq)
  by_cases hL : L = []
  · by_cases hM : M = []
    · rw [hL, hM]
    · obtain ⟨u, _, hdigest, htree, _⟩ := exists_tree crates M hM
      rw [hL, mth_nil, hdigest] at hmth
      rw [hL, mthInputs_nil, htree] at hcollision
      exact absurd hmth.symm (hempty u _ hcollision (by simp) (by simp))
  · obtain ⟨t, hleaves, hdigest, htree, _⟩ := exists_tree crates L hL
    by_cases hM : M = []
    · rw [hM, mth_nil, hdigest] at hmth
      rw [hM, mthInputs_nil, htree] at hcollision
      exact absurd hmth (hempty t _ hcollision (by simp) (by simp))
    · obtain ⟨u, hleaves', hdigest', htree', _⟩ := exists_tree crates M hM
      rw [hdigest, hdigest'] at hmth
      rw [htree, htree'] at hcollision
      rw [← hleaves, ← hleaves', HashTree.eq_of_digest_eq t u hcollision hmth]

theorem merkleRoot_binding_three :
    Collides referenceCrates (mthInputs referenceCrates [[1], [2], [2]] ++
        mthInputs referenceCrates [[1], [2], [2]]) ∨
      ([[1], [2], [2]] : List Bytes) = [[1], [2], [2]] :=
  merkleRoot_binding referenceCrates [[1], [2], [2]] [[1], [2], [2]] rfl

/-! ## The length of a proof -/

/-- A tree of at most `2 ^ d` leaves is split into halves of at most
`2 ^ (d - 1)`. -/
theorem split_le_two_pow {n d : ℕ} (hn : 2 ≤ n) (hd : n ≤ 2 ^ (d + 1)) :
    splitPoint n ≤ 2 ^ d ∧ n - splitPoint n ≤ 2 ^ d := by
  obtain ⟨e, hsplit, hlt, hle⟩ := splitPoint_spec hn
  have hexp : e ≤ d := by
    have hpow : 2 ^ e < 2 ^ (d + 1) := Nat.lt_of_lt_of_le hlt hd
    exact Nat.lt_succ_iff.mp ((Nat.pow_lt_pow_iff_right (by decide)).mp hpow)
  have hhalf : 2 ^ e ≤ 2 ^ d := Nat.pow_le_pow_right (by decide) hexp
  rw [pow_succ] at hle
  rw [hsplit]
  omega

theorem length_path_le {leaves : List Bytes} {d : ℕ}
    (hd : leaves.length ≤ 2 ^ d) (m : ℕ) :
    (path crates leaves m).length ≤ d := by
  induction leaves using mth.induct generalizing d m with
  | case1 =>
      rw [path]
      exact Nat.zero_le d
  | case2 leaf =>
      rw [path]
      exact Nat.zero_le d
  | case3 first second rest leaves k ihleft =>
      rename_i ihright
      have hlength : 2 ≤ leaves.length := by simp [leaves]
      cases d with
      | zero => simp at hd
      | succ d =>
          obtain ⟨hleft, hright⟩ := split_le_two_pow hlength hd
          have htake : (leaves.take k).length ≤ 2 ^ d := by
            rw [List.length_take]
            exact (Nat.min_le_left _ _).trans hleft
          have hdrop : (leaves.drop k).length ≤ 2 ^ d := by
            rw [List.length_drop]
            exact hright
          rw [path]
          split_ifs with hside
          · rw [List.length_append, List.length_singleton]
            exact Nat.succ_le_succ (ihleft htake m)
          · rw [List.length_append, List.length_singleton]
            exact Nat.succ_le_succ (ihright hdrop (m - k))

/-- A proof has at most as many steps as the number of leaves has binary
digits. -/
theorem merkleProof_logarithmic (leaves : List Bytes) {index : ℕ}
    (hindex : index < leaves.length) :
    ∃ proof, merkleProof crates leaves index = some proof ∧
      proof.path.length ≤ Nat.clog 2 leaves.length ∧
      ∀ d, leaves.length ≤ 2 ^ d → proof.path.length ≤ d := by
  have hsteps : ∀ d, leaves.length ≤ 2 ^ d →
      (path crates leaves index).length ≤ d :=
    fun d hd => length_path_le crates hd index
  refine ⟨_, if_neg (Nat.not_le.mpr hindex), ?_, ?_⟩
  · rw [List.length_map]
    exact hsteps _ (Nat.le_pow_clog (by decide) _)
  · intro d hd
    rw [List.length_map]
    exact hsteps d hd

theorem merkleProof_logarithmic_three :
    ∃ proof, merkleProof referenceCrates [[1], [2], [3]] 2 = some proof ∧
      proof.path.length ≤ Nat.clog 2 3 ∧
      ∀ d, 3 ≤ 2 ^ d → proof.path.length ≤ d :=
  merkleProof_logarithmic referenceCrates [[1], [2], [3]] (by decide)

end Chainlog
