import Chainlog.Hash

/-!
# Signed checkpoints

A checkpoint states the chain head at a moment in time.  Base64 and Ed25519
are parameters.
-/

namespace Chainlog

/-- The third-party crates behind signatures. -/
structure SignatureCrates where
  base64Decode : String → Except String Bytes
  VerifyingKey : Type
  verifyingKey : { key : Bytes // key.length = 32 } → Except String VerifyingKey
  verify : VerifyingKey → Bytes → { sig : Bytes // sig.length = 64 } →
    Except String Unit

/-- The crates behind the signing side. -/
structure SigningCrates extends SignatureCrates where
  base64Encode : Bytes → String
  SigningKey : Type
  publicKey : SigningKey → { key : Bytes // key.length = 32 }
  sign : SigningKey → Bytes → { sig : Bytes // sig.length = 64 }

/-- Encoded bytes are read back and a key's signatures are valid. -/
structure SigningCrates.Correct (crates : SigningCrates) : Prop where
  decode_encode : ∀ bytes,
    crates.base64Decode (crates.base64Encode bytes) = .ok bytes
  verifies : ∀ key msg, ∃ vk, crates.verifyingKey (crates.publicKey key) = .ok vk ∧
    crates.verify vk msg (crates.sign key msg) = .ok ()

def noSignatures : SignatureCrates where
  base64Decode _ := .error "invalid base64"
  VerifyingKey := Unit
  verifyingKey _ := .error "no key"
  verify _ _ _ := .error "no signature"

/-- A signed statement about the chain head. -/
structure Checkpoint where
  seq : UInt64
  headHash : String
  timestamp : Int64
  /-- Base64 of the signer's public key. -/
  publicKey : String
  /-- Base64 of the signature over the canonical message. -/
  signature : String
  deriving DecidableEq, Repr

namespace Checkpoint

def message (seq : UInt64) (headHash : String) (timestamp : Int64) : Bytes :=
  let buf := []
  let buf := pushField buf (asBytes "chainlog-checkpoint-v1")
  let buf := pushField buf (u64ToBeBytes seq)
  let buf := pushField buf (asBytes headHash)
  pushField buf (i64ToBeBytes timestamp)

end Checkpoint

variable (crates : SignatureCrates)

/-- Decode base64 into an array of a fixed length. -/
def decodeArray (text : String) (length : ℕ) (reason : String) :
    Result { bytes : Bytes // bytes.length = length } := do
  let raw ← (crates.base64Decode text).mapError Error.base64
  if h : raw.length = length then .ok ⟨raw, h⟩
  else .error (.crypto reason)

def verifyCheckpointWith (cp : Checkpoint)
    (expected : { key : Bytes // key.length = 32 }) : Result Unit := do
  let embedded ←
    decodeArray crates cp.publicKey 32 "public key must be 32 bytes"
  if embedded.val ≠ expected.val then
    .error (.crypto "checkpoint public key does not match the expected key")
  else
    let vk ← (crates.verifyingKey expected).mapError fun e =>
      .crypto s!"bad public key: {e}"
    let sig ←
      decodeArray crates cp.signature 64 "signature must be 64 bytes"
    let msg := Checkpoint.message cp.seq cp.headHash cp.timestamp
    (crates.verify vk msg sig).mapError fun e =>
      .crypto s!"checkpoint signature invalid: {e}"

def verifyCheckpoint (cp : Checkpoint) : Result Unit := do
  let key ← decodeArray crates cp.publicKey 32 "public key must be 32 bytes"
  verifyCheckpointWith crates cp key

structure CheckpointSigner (crates : SigningCrates) where
  key : crates.SigningKey

namespace CheckpointSigner

variable {signing : SigningCrates} (signer : CheckpointSigner signing)

def publicBase64 : String :=
  signing.base64Encode (signing.publicKey signer.key).val

/-- Sign an arbitrary message, returning a base64 signature. -/
def signBytes (msg : Bytes) : String :=
  signing.base64Encode (signing.sign signer.key msg).val

omit signer in
theorem decodeArray_encode
    (hdecode : ∀ bytes, signing.base64Decode (signing.base64Encode bytes) =
      .ok bytes) {n : ℕ} (raw : { bytes : Bytes // bytes.length = n })
    (reason : String) :
    decodeArray signing.toSignatureCrates (signing.base64Encode raw.val) n
      reason = .ok raw := by
  unfold decodeArray
  rw [hdecode]
  simp only [Except.mapError, bind, Except.bind]
  rw [dif_pos raw.property]

end CheckpointSigner

end Chainlog
