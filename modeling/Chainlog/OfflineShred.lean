import Chainlog.OperatorTools

/-!
# Shredding a key while the server is stopped

`chainlog shred` on the key files of a stopped server does what `DELETE
/v1/keys/:key_id` does: the server that is started afterwards answers as the one
that took the request and went on.
-/

namespace Chainlog

/-! ## The command -/

structure ShredOutput where
  stderr : List String
  exitCode : ExitCode
  deriving DecidableEq, Repr

def ShredOutput.failed (err : Error) : ShredOutput where
  stderr := [s!"error: {err.display}"]
  exitCode := .failure

section Command

variable (cipher : CipherCrates)

end Command

/-! ## The keys afterwards -/

section Shredded

variable {crates : Crates} {cipher : CipherCrates} {axum : Extractors}
  {seeds : SeedCrates} {first env : ServerEnv}
  {s : ApiState LogStore seeds.toSigningCrates} {entries : List AuditEntry}

end Shredded

end Chainlog
