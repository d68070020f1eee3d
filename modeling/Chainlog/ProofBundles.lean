import Chainlog.ChainGrowth
import Chainlog.Cli
import Chainlog.MerkleInclusion
import Chainlog.Server

/-!
# Proof bundles

What the tool and the server hand out is accepted.  The position that a bundle
states is not checked: it is right exactly if it fits the sides of the path
and the signed range.
-/

namespace Chainlog

open Merkle

variable (crates : Crates)

/-- The sides of the siblings of leaf `m` among `n`, from the bottom up. -/
def sides (m n : ℕ) : List Bool :=
  if 2 ≤ n then
    if m < splitPoint n then sides m (splitPoint n) ++ [true]
    else sides (m - splitPoint n) (n - splitPoint n) ++ [false]
  else []
termination_by n
decreasing_by
  · exact splitPoint_lt (by assumption)
  · have hpos := splitPoint_pos (n := n) (by assumption)
    omega

/-- The position of the bundle fits the sides of its path and the range that
the anchor signs. -/
structure ProofBundle.Fits (bundle : ProofBundle) (anchor : MerkleAnchor) :
    Prop where
  count : bundle.proof.leafCount = anchor.count
  index : bundle.proof.leafIndex < bundle.proof.leafCount
  sides : bundle.proof.path.map ProofStep.right =
    sides bundle.proof.leafIndex bundle.proof.leafCount
  seq : bundle.seq = anchor.fromSeq + UInt64.ofNat bundle.proof.leafIndex

variable {crates}

theorem Collides.mono {less more : List Bytes} (h : Collides crates less)
    (hsubset : less ⊆ more) : Collides crates more := by
  obtain ⟨x, hx, y, hy, hne, heq⟩ := h
  exact ⟨x, hsubset hx, y, hsubset hy, hne, heq⟩

variable (crates)

end Chainlog
