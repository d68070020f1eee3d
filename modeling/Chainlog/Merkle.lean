import Chainlog.Foundation.HashTree
import Chainlog.Checkpoint

/-!
# Merkle batch anchoring

The tree of RFC 6962 over the leaves, inclusion proofs, and the signed anchor
over a range of entries.  `usize` values are natural numbers: no arithmetic is
done on the two that a proof carries.
-/

namespace Chainlog

namespace HexError

/-- The `Debug` form of an ASCII character. -/
def charDebug (c : Char) : String :=
  let escaped :=
    if c = '\t' then "\\t"
    else if c = '\n' then "\\n"
    else if c = '\r' then "\\r"
    else if c = '\'' then "\\'"
    else if c = '\\' then "\\\\"
    else if c.toNat = 0 then "\\0"
    else if c.toNat < 32 ∨ c.toNat = 127 then
      "\\u\x7b" ++ String.ofList (Nat.toDigits 16 c.toNat) ++ "\x7d"
    else c.toString
  "'" ++ escaped ++ "'"

def display : HexError → String
  | invalidByte byte =>
      if byte < 128 then
        s!"invalid hex character: {charDebug (Char.ofNat byte.toNat)}"
      else
        "invalid hex character: 0x" ++
          String.ofList (Nat.toDigits 16 byte.toNat)
  | invalidLen length => s!"expected 64 hex bytes, received {length}"

end HexError

namespace Merkle

/-- Hash bytes read from a proof. -/
def fromHex (s : String) : Result Digest :=
  (Chainlog.fromHex s).mapError fun e =>
    Error.crypto s!"bad hex hash: {e.display}"

/-- `while k << 1 < n { k <<= 1 }`, for `fuel` turns. -/
def doubling : ℕ → ℕ → ℕ → ℕ
  | 0, _, k => k
  | fuel + 1, n, k => if k <<< 1 < n then doubling fuel n (k <<< 1) else k

/-- Largest power of two strictly less than `n`, for `n ≥ 2`. -/
def splitPoint (n : ℕ) : ℕ := doubling n n 1

theorem doubling_spec {fuel n k e : ℕ} (hk : k = 2 ^ e) (hlt : k < n)
    (hfuel : n ≤ k + fuel) :
    ∃ e', doubling fuel n k = 2 ^ e' ∧ 2 ^ e' < n ∧ n ≤ 2 ^ (e' + 1) := by
  induction fuel generalizing k e with
  | zero => omega
  | succ fuel ih =>
      have hshift : k <<< 1 = 2 ^ (e + 1) := by
        rw [Nat.shiftLeft_eq, hk, pow_succ]
        rfl
      have hpos : 0 < 2 ^ e := Nat.two_pow_pos e
      rw [doubling]
      by_cases hnext : k <<< 1 < n
      · rw [if_pos hnext]
        apply ih hshift hnext
        rw [hshift, pow_succ]
        omega
      · rw [if_neg hnext]
        refine ⟨e, hk, by omega, ?_⟩
        rw [← hshift]
        omega

theorem splitPoint_spec {n : ℕ} (hn : 2 ≤ n) :
    ∃ e, splitPoint n = 2 ^ e ∧ 2 ^ e < n ∧ n ≤ 2 ^ (e + 1) := by
  apply doubling_spec (e := 0) rfl (by omega) (by omega)

theorem splitPoint_pos {n : ℕ} (hn : 2 ≤ n) : 0 < splitPoint n := by
  obtain ⟨e, hsplit, _⟩ := splitPoint_spec hn
  rw [hsplit]
  exact Nat.two_pow_pos e

theorem splitPoint_lt {n : ℕ} (hn : 2 ≤ n) : splitPoint n < n := by
  obtain ⟨e, hsplit, hlt, _⟩ := splitPoint_spec hn
  rw [hsplit]
  exact hlt

variable (crates : Crates)

def leafHash (data : Bytes) : Digest := crates.blake3 (0x00 :: data)

def nodeHash (left right : Digest) : Digest :=
  crates.blake3 (0x01 :: (left.val ++ right.val))

/-- RFC 6962 Merkle Tree Hash over a list of leaf byte slices. -/
def mth : List Bytes → Digest
  | [] => crates.blake3 []
  | [leaf] => leafHash crates leaf
  | first :: second :: rest =>
      let leaves := first :: second :: rest
      let k := splitPoint leaves.length
      nodeHash crates (mth (leaves.take k)) (mth (leaves.drop k))
termination_by leaves => leaves.length
decreasing_by
  · have hlt := splitPoint_lt (n := (first :: second :: rest).length) (by simp)
    rw [List.length_take]
    omega
  · have hpos := splitPoint_pos (n := (first :: second :: rest).length) (by simp)
    rw [List.length_drop]
    simp only [List.length_cons] at hpos ⊢
    omega

def path : List Bytes → ℕ → List (Digest × Bool)
  | [], _ => []
  | [_], _ => []
  | first :: second :: rest, m =>
      let leaves := first :: second :: rest
      let k := splitPoint leaves.length
      if m < k then
        -- The sibling is on the right.
        path (leaves.take k) m ++ [(mth crates (leaves.drop k), true)]
      else
        -- The sibling is on the left.
        path (leaves.drop k) (m - k) ++ [(mth crates (leaves.take k), false)]
termination_by leaves => leaves.length
decreasing_by
  · have hlt := splitPoint_lt (n := (first :: second :: rest).length) (by simp)
    rw [List.length_take]
    omega
  · have hpos := splitPoint_pos (n := (first :: second :: rest).length) (by simp)
    rw [List.length_drop]
    simp only [List.length_cons] at hpos ⊢
    omega

end Merkle

open Merkle

/-- One step of an inclusion proof: a hex sibling hash and its side. -/
structure ProofStep where
  hash : String
  right : Bool
  deriving DecidableEq, Repr

/-- A proof that one leaf is included in a Merkle root. -/
structure MerkleProof where
  leafIndex : ℕ
  leafCount : ℕ
  path : List ProofStep
  deriving DecidableEq, Repr

variable (crates : Crates)

def merkleRoot (leaves : List Bytes) : String := toHex (mth crates leaves)

def merkleProof (leaves : List Bytes) (index : ℕ) : Option MerkleProof :=
  if leaves.length ≤ index then none
  else
    some
      { leafIndex := index
        leafCount := leaves.length
        path := (path crates leaves index).map fun (h, right) =>
          { hash := toHex h, right } }

/-- One turn of the verification loop. -/
def climbStep (node : Digest) (step : ProofStep) : Result Digest := do
  let sib ← Merkle.fromHex step.hash
  return if step.right then nodeHash crates node sib
    else nodeHash crates sib node

/-- Is `leaf` included under `rootHex`? -/
def verifyMerkleProof (leaf : Bytes) (proof : MerkleProof) (rootHex : String) :
    Result Bool := do
  let node ← proof.path.foldlM (climbStep crates) (leafHash crates leaf)
  return toHex node = rootHex

/-! ## Anchors -/

/-- A signed commitment to a contiguous range of entries. -/
structure MerkleAnchor where
  fromSeq : UInt64
  toSeq : UInt64
  count : ℕ
  root : String
  timestamp : Int64
  publicKey : String
  signature : String
  deriving DecidableEq, Repr

def anchorMessage (fromSeq toSeq : UInt64) (count : ℕ) (root : String)
    (timestamp : Int64) : Bytes :=
  let buf := []
  let buf := pushField buf (asBytes "chainlog-merkle-v1")
  let buf := pushField buf (u64ToBeBytes fromSeq)
  let buf := pushField buf (u64ToBeBytes toSeq)
  let buf := pushField buf (u64ToBeBytes (UInt64.ofNat count))
  let buf := pushField buf (asBytes root)
  pushField buf (i64ToBeBytes timestamp)

def entryLeaves (entries : List AuditEntry) : List Bytes :=
  entries.map fun e => asBytes e.entryHash

def buildMerkleAnchor {signing : SigningCrates}
    (signer : CheckpointSigner signing) (entries : List AuditEntry)
    (timestamp : Int64) : MerkleAnchor :=
  let root := toHex (mth crates (entryLeaves entries))
  let fromSeq := (entries.head?.map AuditEntry.seq).getD 0
  let toSeq := (entries.getLast?.map AuditEntry.seq).getD 0
  let count := entries.length
  let msg := anchorMessage fromSeq toSeq count root timestamp
  { fromSeq
    toSeq
    count
    root
    timestamp
    publicKey := signer.publicBase64
    signature := signer.signBytes msg }

@[simp] theorem buildMerkleAnchor_root {signing : SigningCrates}
    (signer : CheckpointSigner signing) (entries : List AuditEntry)
    (timestamp : Int64) :
    (buildMerkleAnchor crates signer entries timestamp).root =
      merkleRoot crates (entryLeaves entries) := rfl

/-- An inclusion proof for the first entry with a sequence number. -/
def merkleProofForSeq (entries : List AuditEntry) (seq : UInt64) :
    Option MerkleProof := do
  let index ← entries.findIdx? fun e => e.seq = seq
  merkleProof crates (entryLeaves entries) index

end Chainlog
