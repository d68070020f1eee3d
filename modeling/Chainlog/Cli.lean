import Chainlog.Merkle
import Chainlog.Segment
import Chainlog.Verify

/-!
# The offline tool

The `verify`, `merkle-proof` and `merkle-verify` commands of `chainlog`.  The
JSON files they are given enter as the results of loading them.
-/

namespace Chainlog

inductive ExitCode where
  | success
  | failure
  deriving DecidableEq, Repr

/-- What a verification run prints and how it exits. -/
structure VerifyOutput where
  stdout : List VerifyReport
  stderr : List String
  exitCode : ExitCode
  deriving DecidableEq, Repr

/-- `main` prints an error that a command returns. -/
def VerifyOutput.failed (stdout : List VerifyReport) (stderr : List String)
    (reason : String) : VerifyOutput where
  stdout := stdout
  stderr := stderr ++ [s!"error: {reason}"]
  exitCode := .failure

variable (crates : Crates) (keys : SignatureCrates)

/-- Read entries from either a single log file or a segment directory. -/
def loadEntries (path : DataPath) : Result (List AuditEntry) :=
  match path with
  | .directory _ => readAllSegmented crates path
  | _ => readAll crates path

/-- The trusted anchor of a pruned log. -/
def loadAnchor : Option (Except String Checkpoint) →
    Except String (Option Anchor)
  | none => .ok none
  | some loaded => do
      let cp ← loaded
      (verifyCheckpoint keys cp).mapError Error.display
      return some { seq := cp.seq, hash := cp.headHash }

/-- Does the head match the signed checkpoint? -/
def checkHead (report : VerifyReport) (cp : Checkpoint) : Bool × String :=
  match verifyCheckpoint keys cp with
  | .error err => (false, s!"FAIL: checkpoint signature invalid: {err.display}")
  | .ok () =>
      match report.head with
      | some (seq, hash) =>
          if seq = cp.seq ∧ hash = cp.headHash then
            (true, s!"OK: head matches signed checkpoint (seq {cp.seq})")
          else
            (false, s!"FAIL: head ({seq}, {hash}) != checkpoint " ++
              s!"({cp.seq}, {cp.headHash})")
      | none => (false, "FAIL: log is empty but a checkpoint was supplied")

/-- The summary line of a report. -/
def verdictLine (report : VerifyReport) : String :=
  if report.isValid then
    s!"OK: {report.entriesChecked} entries, chain intact"
  else
    s!"FAIL: {report.violations.length} violation(s) across " ++
      s!"{report.entriesChecked} entries"

/-- `chainlog verify`. -/
def verifyCommand (path : DataPath)
    (checkpoint anchor : Option (Except String Checkpoint)) : VerifyOutput :=
  match loadEntries crates path with
  | .error err => VerifyOutput.failed [] [] err.display
  | .ok entries =>
      match loadAnchor keys anchor with
      | .error reason => VerifyOutput.failed [] [] reason
      | .ok anchorVal =>
          let report := verifyEntriesFrom crates anchorVal entries
          let verdict := verdictLine report
          let exitCode ok := if ok then ExitCode.success else .failure
          match checkpoint with
          | none =>
              { stdout := [report]
                stderr := [verdict]
                exitCode := exitCode report.isValid }
          | some (.error reason) =>
              VerifyOutput.failed [report] [verdict] reason
          | some (.ok cp) =>
              let (matched, line) := checkHead keys report cp
              { stdout := [report]
                stderr := [verdict, line]
                exitCode := exitCode (report.isValid && matched) }

/-! ## Merkle proofs -/

/-- A self-contained inclusion proof. -/
structure ProofBundle where
  seq : UInt64
  leaf : String
  root : String
  proof : MerkleProof
  deriving DecidableEq, Repr

/-- What a run on Merkle proofs prints and how it exits. -/
structure MerkleOutput where
  stdout : Option ProofBundle
  stderr : List String
  exitCode : ExitCode
  deriving DecidableEq, Repr

def MerkleOutput.failed (stderr : List String) (reason : String) :
    MerkleOutput where
  stdout := none
  stderr := stderr ++ [s!"error: {reason}"]
  exitCode := .failure

end Chainlog
