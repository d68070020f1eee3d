import Mathlib.Data.List.Basic
import Mathlib.Tactic

/-!
# Hash trees

Binary trees whose digest commits to their leaves.  A leaf and a node are
hashed by way of an encoding, and the two kinds of encodings never meet, so
that a leaf cannot pose as a node.  A climb starts from the digest of a leaf and
takes one sibling at a time; nothing in it says where the leaf is.
-/

inductive HashTree (α : Type*) where
  | leaf (a : α)
  | node (left right : HashTree α)

namespace HashTree

/-- How leaves and nodes are hashed. -/
structure Scheme (α β δ : Type*) where
  leafInput : α → β
  nodeInput : δ → δ → β
  hash : β → δ
  leafInput_injective : Function.Injective leafInput
  nodeInput_inj : ∀ {l r l' r'}, nodeInput l r = nodeInput l' r' → l = l' ∧ r = r'
  leafInput_ne_nodeInput : ∀ a l r, leafInput a ≠ nodeInput l r

variable {α β δ : Type*} (s : Scheme α β δ)

def leaves : HashTree α → List α
  | leaf a => [a]
  | node left right => left.leaves ++ right.leaves

def digest : HashTree α → δ
  | leaf a => s.hash (s.leafInput a)
  | node left right => s.hash (s.nodeInput (left.digest) (right.digest))

/-- The inputs that are hashed for the digest of a tree. -/
def inputs : HashTree α → List β
  | leaf a => [s.leafInput a]
  | node left right =>
      s.nodeInput (left.digest s) (right.digest s) ::
        (left.inputs ++ right.inputs)

/-- The siblings of a leaf from the bottom up, with `true` for a right one. -/
def branch : HashTree α → ℕ → List (δ × Bool)
  | leaf _, _ => []
  | node left right, m =>
      if m < left.leaves.length then
        left.branch m ++ [(right.digest s, true)]
      else right.branch (m - left.leaves.length) ++ [(left.digest s, false)]

/-- The input that joins a running digest and its sibling. -/
def joinInput (running : δ) (step : δ × Bool) : β :=
  if step.2 then s.nodeInput running step.1 else s.nodeInput step.1 running

def climb (start : δ) (path : List (δ × Bool)) : δ :=
  path.foldl (fun running step => s.hash (joinInput s running step)) start

/-- The inputs that are hashed on a climb. -/
def climbInputs : δ → List (δ × Bool) → List β
  | _, [] => []
  | running, step :: path =>
      joinInput s running step ::
        climbInputs (s.hash (joinInput s running step)) path

/-- What is hashed is a leaf or a node. -/
def Scheme.IsInput (x : β) : Prop :=
  (∃ a, x = s.leafInput a) ∨ ∃ l r, x = s.nodeInput l r

def NoCollision (inputs : List β) : Prop :=
  ∀ x ∈ inputs, ∀ y ∈ inputs, s.hash x = s.hash y → x = y

variable {s}

theorem NoCollision.mono {left right : List β} (h : NoCollision s right)
    (hsubset : left ⊆ right) : NoCollision s left := by
  intro x hx y hy heq
  apply h x (hsubset hx) y (hsubset hy) heq

theorem inputs_left (left right : HashTree α) :
    left.inputs s ⊆ (node left right).inputs s := by
  intro x hx
  apply List.mem_cons_of_mem
  apply List.mem_append_left _ hx

theorem inputs_right (left right : HashTree α) :
    right.inputs s ⊆ (node left right).inputs s := by
  intro x hx
  apply List.mem_cons_of_mem
  apply List.mem_append_right _ hx

theorem NoCollision.left {left right : HashTree α} {less more : List β}
    (h : NoCollision s ((node left right).inputs s ++ more))
    (hless : less ⊆ more) : NoCollision s (left.inputs s ++ less) := by
  apply h.mono
  rw [List.append_subset]
  constructor
  · apply List.Subset.trans (inputs_left left right)
    apply List.subset_append_left
  · apply List.Subset.trans hless
    apply List.subset_append_right

theorem NoCollision.right {left right : HashTree α} {less more : List β}
    (h : NoCollision s ((node left right).inputs s ++ more))
    (hless : less ⊆ more) : NoCollision s (right.inputs s ++ less) := by
  apply h.mono
  rw [List.append_subset]
  constructor
  · apply List.Subset.trans (inputs_right left right)
    apply List.subset_append_left
  · apply List.Subset.trans hless
    apply List.subset_append_right

theorem climb_snoc (start : δ) (path : List (δ × Bool)) (step : δ × Bool) :
    climb s start (path ++ [step]) =
      s.hash (joinInput s (climb s start path) step) := by
  simp [climb]

theorem climbInputs_snoc (start : δ) (path : List (δ × Bool))
    (step : δ × Bool) :
    climbInputs s start (path ++ [step]) =
      climbInputs s start path ++ [joinInput s (climb s start path) step] := by
  induction path generalizing start with
  | nil => rfl
  | cons first path ih =>
      simp only [List.cons_append, climbInputs, ih]
      rfl

theorem isInput_joinInput (running : δ) (step : δ × Bool) :
    s.IsInput (joinInput s running step) := by
  right
  unfold joinInput
  split
  · exact ⟨_, _, rfl⟩
  · exact ⟨_, _, rfl⟩

theorem exists_input (t : HashTree α) :
    ∃ x ∈ t.inputs s, s.IsInput x ∧ t.digest s = s.hash x := by
  cases t with
  | leaf a =>
      exact ⟨_, List.mem_cons_self, Or.inl ⟨a, rfl⟩, rfl⟩
  | node left right =>
      exact ⟨_, List.mem_cons_self, Or.inr ⟨_, _, rfl⟩, rfl⟩

theorem exists_climb_input (a : α) (path : List (δ × Bool)) :
    ∃ x ∈ s.leafInput a :: climbInputs s (s.hash (s.leafInput a)) path,
      s.IsInput x ∧ climb s (s.hash (s.leafInput a)) path = s.hash x := by
  rcases List.eq_nil_or_concat path with rfl | ⟨init, step, rfl⟩
  · exact ⟨_, List.mem_cons_self, Or.inl ⟨a, rfl⟩, rfl⟩
  · rw [List.concat_eq_append, climb_snoc, climbInputs_snoc]
    exact ⟨_, by simp, isInput_joinInput _ step, rfl⟩

/-! ## Completeness -/

/-- The branch of a leaf leads to the digest of the tree. -/
theorem climb_branch (t : HashTree α) {m : ℕ} {a : α}
    (hm : t.leaves[m]? = some a) :
    climb s (s.hash (s.leafInput a)) (t.branch s m) = t.digest s := by
  induction t generalizing m with
  | leaf b =>
      obtain ⟨hlt, hget⟩ := List.getElem?_eq_some_iff.mp hm
      simp only [leaves, List.getElem_singleton] at hget
      rw [← hget]
      rfl
  | node left right ihleft ihright =>
      rw [leaves] at hm
      by_cases hlt : m < left.leaves.length
      · rw [List.getElem?_append_left hlt] at hm
        rw [branch, if_pos hlt, climb_snoc, ihleft hm]
        rfl
      · rw [List.getElem?_append_right (Nat.le_of_not_lt hlt)] at hm
        rw [branch, if_neg hlt, climb_snoc, ihright hm]
        rfl

/-- A climb to the digest of a tree follows the branch of one of its leaves. -/
theorem branch_of_climb (t : HashTree α) {a : α} {path : List (δ × Bool)}
    (hcollision : NoCollision s (t.inputs s ++
      s.leafInput a :: climbInputs s (s.hash (s.leafInput a)) path))
    (hclimb : climb s (s.hash (s.leafInput a)) path = t.digest s) :
    ∃ m, t.leaves[m]? = some a ∧ path = t.branch s m := by
  induction t generalizing path with
  | leaf b =>
      rcases List.eq_nil_or_concat path with rfl | ⟨init, step, rfl⟩
      · have hinput := hcollision _ (by simp) _ (by simp [inputs]) hclimb
        have hleaf := s.leafInput_injective hinput
        exact ⟨0, by simp [leaves, hleaf], rfl⟩
      · rw [List.concat_eq_append, climb_snoc] at hclimb
        have hinput := hcollision
          (joinInput s (climb s (s.hash (s.leafInput a)) init) step)
          (by simp [climbInputs_snoc]) (s.leafInput b) (by simp [inputs]) hclimb
        exfalso
        unfold joinInput at hinput
        split at hinput
        · exact s.leafInput_ne_nodeInput _ _ _ hinput.symm
        · exact s.leafInput_ne_nodeInput _ _ _ hinput.symm
  | node left right ihleft ihright =>
      rcases List.eq_nil_or_concat path with rfl | ⟨init, step, rfl⟩
      · have hinput := hcollision (s.leafInput a) (by simp)
          (s.nodeInput (left.digest s) (right.digest s)) (by simp [inputs])
          hclimb
        exact absurd hinput (s.leafInput_ne_nodeInput _ _ _)
      · rw [List.concat_eq_append] at hcollision hclimb ⊢
        rw [climb_snoc] at hclimb
        have hinput := hcollision
          (joinInput s (climb s (s.hash (s.leafInput a)) init) step)
          (by simp [climbInputs_snoc])
          (s.nodeInput (left.digest s) (right.digest s)) (by simp [inputs])
          hclimb
        have hinit : s.leafInput a ::
            climbInputs s (s.hash (s.leafInput a)) init ⊆
              s.leafInput a ::
                climbInputs s (s.hash (s.leafInput a)) (init ++ [step]) := by
          rw [climbInputs_snoc]
          apply List.cons_subset_cons
          apply List.subset_append_left
        obtain ⟨sibling, side⟩ := step
        cases side with
        | true =>
            obtain ⟨hrunning, hsibling⟩ := s.nodeInput_inj hinput
            obtain ⟨m, hget, hpath⟩ := ihleft (hcollision.left hinit) hrunning
            have hlt : m < left.leaves.length :=
              (List.getElem?_eq_some_iff.mp hget).1
            refine ⟨m, ?_, ?_⟩
            · rw [leaves, List.getElem?_append_left hlt]
              exact hget
            · rw [branch, if_pos hlt, ← hpath, ← hsibling]
        | false =>
            obtain ⟨hsibling, hrunning⟩ := s.nodeInput_inj hinput
            obtain ⟨m, hget, hpath⟩ :=
              ihright (hcollision.right hinit) hrunning
            refine ⟨left.leaves.length + m, ?_, ?_⟩
            · rw [leaves, List.getElem?_append_right (Nat.le_add_right _ _)]
              simpa using hget
            · rw [branch, if_neg (by omega), Nat.add_sub_cancel_left, ← hpath,
                ← hsibling]

/-! ## Binding -/

/-- The digest commits to the tree. -/
theorem eq_of_digest_eq (t u : HashTree α)
    (hcollision : NoCollision s (t.inputs s ++ u.inputs s))
    (hdigest : t.digest s = u.digest s) : t = u := by
  induction t generalizing u with
  | leaf a =>
      cases u with
      | leaf b =>
          have hinput := hcollision _ (by simp [inputs]) _ (by simp [inputs])
            hdigest
          rw [s.leafInput_injective hinput]
      | node left right =>
          have hinput := hcollision (s.leafInput a) (by simp [inputs])
            (s.nodeInput (left.digest s) (right.digest s)) (by simp [inputs])
            hdigest
          exact absurd hinput (s.leafInput_ne_nodeInput _ _ _)
  | node left right ihleft ihright =>
      cases u with
      | leaf b =>
          have hinput := hcollision (s.leafInput b) (by simp [inputs])
            (s.nodeInput (left.digest s) (right.digest s)) (by simp [inputs])
            hdigest.symm
          exact absurd hinput (s.leafInput_ne_nodeInput _ _ _)
      | node left' right' =>
          have hinput := hcollision
            (s.nodeInput (left.digest s) (right.digest s)) (by simp [inputs])
            (s.nodeInput (left'.digest s) (right'.digest s)) (by simp [inputs])
            hdigest
          obtain ⟨hleft, hright⟩ := s.nodeInput_inj hinput
          rw [ihleft left' (hcollision.left (inputs_left left' right')) hleft,
            ihright right' (hcollision.right (inputs_right left' right')) hright]

end HashTree
