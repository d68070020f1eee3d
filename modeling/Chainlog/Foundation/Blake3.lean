import Mathlib.Tactic

/-!
# BLAKE3

The hash mode of BLAKE3: chunks of 1024 bytes in blocks of 64, a compression
function over sixteen 32-bit words, and a binary tree of chunks whose left
half is the largest power of two.
-/

namespace Blake3

abbrev Words := List UInt32

def iv : Words :=
  [0x6A09E667, 0xBB67AE85, 0x3C6EF372, 0xA54FF53A,
    0x510E527F, 0x9B05688C, 0x1F83D9AB, 0x5BE0CD19]

def chunkStart : UInt32 := 1
def chunkEnd : UInt32 := 2
def parent : UInt32 := 4
def root : UInt32 := 8

def rotateRight (x n : UInt32) : UInt32 := (x >>> n) ||| (x <<< (32 - n))

/-- The quarter round on the state words `a`, `b`, `c` and `d`. -/
def mix (state : Words) (a b c d : ℕ) (x y : UInt32) : Words :=
  let va := state.getD a 0 + state.getD b 0 + x
  let vd := rotateRight (state.getD d 0 ^^^ va) 16
  let vc := state.getD c 0 + vd
  let vb := rotateRight (state.getD b 0 ^^^ vc) 12
  let va := va + vb + y
  let vd := rotateRight (vd ^^^ va) 8
  let vc := vc + vd
  let vb := rotateRight (vb ^^^ vc) 7
  (((state.set a va).set b vb).set c vc).set d vd

/-- The columns and the diagonals of the state, with their message words. -/
def schedule : List (ℕ × ℕ × ℕ × ℕ) :=
  [(0, 4, 8, 12), (1, 5, 9, 13), (2, 6, 10, 14), (3, 7, 11, 15),
    (0, 5, 10, 15), (1, 6, 11, 12), (2, 7, 8, 13), (3, 4, 9, 14)]

def round (state message : Words) : Words :=
  (schedule.zipIdx).foldl
    (fun state ((a, b, c, d), i) =>
      mix state a b c d (message.getD (2 * i) 0) (message.getD (2 * i + 1) 0))
    state

def permute (message : Words) : Words :=
  [2, 6, 3, 10, 7, 0, 4, 13, 1, 11, 12, 5, 9, 14, 15, 8].map
    fun i => message.getD i 0

def rounds : ℕ → Words → Words → Words
  | 0, state, _ => state
  | n + 1, state, message => rounds n (round state message) (permute message)

/-- The chaining value after one block. -/
def compress (chaining block : Words) (counter : UInt64) (length flags : UInt32) :
    Words :=
  let state := chaining ++ iv.take 4 ++
    [counter.toUInt32, (counter >>> 32).toUInt32, length, flags]
  let state := rounds 7 state block
  (List.range 8).map fun i => state.getD i 0 ^^^ state.getD (i + 8) 0

def word (bytes : List UInt8) (i : ℕ) : UInt32 :=
  (List.range 4).foldl
    (fun w k => w ||| ((bytes.getD (4 * i + k) 0).toUInt32 <<< UInt32.ofNat (8 * k)))
    0

/-- The sixteen little-endian words of a block, padded with zeros. -/
def blockWords (block : List UInt8) : Words :=
  (List.range 16).map (word block)

/-- Compress the blocks of one chunk; `flags` marks the root of the tree and
`n` bounds the number of blocks. -/
def chunkBlocks (counter : UInt64) (flags : UInt32) :
    ℕ → Words → UInt32 → List UInt8 → Words
  | 0, chaining, _, _ => chaining
  | n + 1, chaining, start, bytes =>
      if bytes.length ≤ 64 then
        compress chaining (blockWords bytes) counter
          (UInt32.ofNat bytes.length) (start ||| chunkEnd ||| flags)
      else
        chunkBlocks counter flags n
          (compress chaining (blockWords (bytes.take 64)) counter 64 start) 0
          (bytes.drop 64)

def chunk (counter : UInt64) (flags : UInt32) (bytes : List UInt8) : Words :=
  chunkBlocks counter flags 16 iv chunkStart bytes

/-- The number of bytes in the left subtree of an input of several chunks. -/
def leftLength (length : ℕ) : ℕ := 1024 * 2 ^ Nat.log2 ((length - 1) / 1024)

/-- The tree over the chunks; `n` bounds its height. -/
def tree : ℕ → ℕ → UInt32 → List UInt8 → Words
  | 0, counter, flags, bytes => chunk (UInt64.ofNat counter) flags bytes
  | n + 1, counter, flags, bytes =>
      if bytes.length ≤ 1024 then chunk (UInt64.ofNat counter) flags bytes
      else
        let k := leftLength bytes.length
        compress iv
          (tree n counter 0 (bytes.take k) ++
            tree n (counter + k / 1024) 0 (bytes.drop k))
          0 64 (parent ||| flags)

/-- The eight words of the digest, little-endian, with their number fixed. -/
def digestBytes (words : Words) : List UInt8 :=
  (List.range 32).map fun i =>
    (words.getD (i / 4) 0 >>> UInt32.ofNat (8 * (i % 4))).toUInt8

/-- The 32-byte BLAKE3 digest. -/
def hash (bytes : List UInt8) : { digest : List UInt8 // digest.length = 32 } :=
  ⟨digestBytes (tree bytes.length 0 root bytes), by simp [digestBytes]⟩

end Blake3
