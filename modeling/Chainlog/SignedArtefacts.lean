import Chainlog.Merkle
import Chainlog.Reference

/-!
# Signed artefacts

One key signs checkpoints and Merkle anchors.  Both messages are tagged lists
of length-prefixed fields, so a message states the values of one artefact of
one kind.
-/

namespace Chainlog

/-- Produce a signed checkpoint for a head. -/
def CheckpointSigner.sign {signing : SigningCrates}
    (signer : CheckpointSigner signing) (seq : UInt64) (headHash : String)
    (timestamp : Int64) : Checkpoint where
  seq := seq
  headHash := headHash
  timestamp := timestamp
  publicKey := signer.publicBase64
  signature := signer.signBytes (Checkpoint.message seq headHash timestamp)

theorem verifyCheckpointWith_sign {signing : SigningCrates}
    {signer : CheckpointSigner signing}
    (hdecode : ∀ bytes, signing.base64Decode (signing.base64Encode bytes) =
      .ok bytes) {vk : signing.VerifyingKey}
    (hvk : signing.verifyingKey (signing.publicKey signer.key) = .ok vk)
    {seq : UInt64} {headHash : String} {timestamp : Int64}
    (hverify : signing.verify vk (Checkpoint.message seq headHash timestamp)
      (signing.sign signer.key (Checkpoint.message seq headHash timestamp)) =
        .ok ()) :
    verifyCheckpointWith signing.toSignatureCrates
      (signer.sign seq headHash timestamp) (signing.publicKey signer.key) =
        .ok () := by
  unfold verifyCheckpointWith CheckpointSigner.sign
    CheckpointSigner.publicBase64 CheckpointSigner.signBytes
  simp only [CheckpointSigner.decodeArray_encode hdecode, hvk, hverify,
    Except.mapError, bind, Except.bind, ne_eq, not_true_eq_false, if_false]

/-! ## The messages -/

/-- A text that `push_field` can write. -/
def TextFits (text : String) : Prop := (asBytes text).length < 2 ^ 64

/-- One use of a signer. -/
inductive SignerCall where
  | sign (seq : UInt64) (headHash : String) (timestamp : Int64)
  | buildMerkleAnchor (entries : List AuditEntry) (timestamp : Int64)

namespace SignerCall

variable (crates : Crates) {signing : SigningCrates}
  (signer : CheckpointSigner signing)

/-- The message that is signed. -/
def message : SignerCall → Bytes
  | sign seq headHash timestamp => Checkpoint.message seq headHash timestamp
  | buildMerkleAnchor entries timestamp =>
      let built := Chainlog.buildMerkleAnchor crates signer entries timestamp
      anchorMessage built.fromSeq built.toSeq built.count built.root timestamp

/-- The signature of the artefact that is returned. -/
def signature : SignerCall → String
  | sign seq headHash timestamp => (signer.sign seq headHash timestamp).signature
  | buildMerkleAnchor entries timestamp =>
      (Chainlog.buildMerkleAnchor crates signer entries timestamp).signature

/-- The lengths of what is signed are lengths of a 64-bit machine. -/
def Fits : SignerCall → Prop
  | sign _ headHash _ => TextFits headHash
  | buildMerkleAnchor entries _ => entries.length < 2 ^ 64

end SignerCall

section Runs

variable (crates : Crates) {signing : SigningCrates}
  (signer : CheckpointSigner signing)

variable {crates signer}

variable {calls : List SignerCall}

end Runs

end Chainlog
