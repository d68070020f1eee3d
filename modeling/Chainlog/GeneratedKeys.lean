import Chainlog.OperatorTools

/-!
# Generated keys

The `keygen` and `gen-sign-key` commands of `chainlog`.  A server that is
started with what they print seals under the key that was drawn, and whoever has
the public key that was printed can check what the server signs.
-/

namespace Chainlog

/-! ## The commands -/

/-- The crates behind signatures, with the seeds of keys. -/
structure SeedExport extends SeedCrates where
  /-- `SigningKey::to_bytes`. -/
  toSeed : SigningKey → { seed : Bytes // seed.length = 32 }

/-- A key's seed is the one that it was made from, and base64 has no
whitespace. -/
structure SeedExport.Correct (seeds : SeedExport) : Prop where
  signing : seeds.toSigningCrates.Correct
  toSeed_fromSeed : ∀ seed, seeds.toSeed (seeds.fromSeed seed) = seed
  encode_graphic : ∀ bytes, ∀ c ∈ (seeds.base64Encode bytes).toList,
    isWhitespace c = false

namespace CheckpointSigner

end CheckpointSigner

section ReadBack

variable {cipher : CipherCrates} {seeds : SeedExport}

end ReadBack

/-! ## The server that is started with them -/

section Served

variable {crates : Crates} {cipher : CipherCrates} {axum : Extractors}
  {seeds : SeedExport} {first : ServerEnv}
  {s : ApiState LogStore seeds.toSigningCrates} {entries : List AuditEntry}

end Served

/-! ## A server on an empty log -/

end Chainlog
