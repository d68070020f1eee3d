import Chainlog.PiiLifetime
import Chainlog.ResponseBodies

/-!
# The operator's view

The `inspect`, `head` and `merkle-anchor` commands of `chainlog`.  Whoever runs
the commands of the tool on the files of a server is told what the server
answers to a request with the read token.
-/

namespace Chainlog

/-! ## The commands -/

/-- The lines that `chainlog inspect` prints and how it ends. -/
structure InspectOutput where
  stdout : List String
  stderr : List String
  ended : Except Panic ExitCode

def InspectOutput.failed (err : Error) : InspectOutput where
  stdout := []
  stderr := [s!"error: {err.display}"]
  ended := .ok .failure

section Commands

variable (crates : Crates) (cipher : CipherCrates)

end Commands

/-! ## The keys of a server -/

namespace ServerEnv

/-- The text that `loadKey` reads the master key from. -/
def keyText (env : ServerEnv) : Option String :=
  match env.var "CHAINLOG_KEY" with
  | some text => some text
  | none => (env.var "CHAINLOG_KEY_FILE").bind fun path =>
      (env.readToString path).toOption

variable {cipher : CipherCrates} {env : ServerEnv}

end ServerEnv

section Keys

variable {crates : Crates} {cipher : CipherCrates}

end Keys

/-! ## What is served and what the tool says -/

section Mirrored

variable {crates : Crates} {cipher : CipherCrates} {axum : Extractors}
  {seeds : SeedCrates} {first : ServerEnv}
  {s : ApiState LogStore seeds.toSigningCrates} {entries : List AuditEntry}

theorem loadEntries_disk (crates : Crates) (store : LogStore) :
    loadEntries crates store.disk =
      readStored crates store.isSegmented store.disk := by
  cases store <;> rfl

theorem ApiState.Serves.loadEntries (h : s.Serves crates entries) :
    loadEntries crates s.log.store.disk = .ok entries :=
  (loadEntries_disk crates s.log.store).trans h.holds.read

end Mirrored

end Chainlog
