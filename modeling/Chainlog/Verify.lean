import Chainlog.Hash

/-!
# Chain verification

`verify_entries_from` walks the entries once and collects violations; it needs
no decryption key.  The walk's four local variables are the fields of `Walk`.
`seq + 1` is the wrapping addition of a release build.
-/

namespace Chainlog

/-- A trusted starting point for a chain that no longer begins at genesis. -/
structure Anchor where
  /-- The seq of the last entry before the first entry being verified. -/
  seq : UInt64
  /-- That entry's `entry_hash`. -/
  hash : String
  deriving DecidableEq, Repr

inductive ViolationKind where
  | badHash
  | brokenLink
  | sequenceGap
  | badGenesis
  deriving DecidableEq, Repr

structure Violation where
  seq : UInt64
  kind : ViolationKind
  detail : String
  deriving DecidableEq, Repr

structure VerifyReport where
  entriesChecked : ℕ
  violations : List Violation
  /-- `(seq, entry_hash)` of the last entry. -/
  head : Option (UInt64 × String)
  deriving DecidableEq, Repr

def VerifyReport.isValid (report : VerifyReport) : Bool :=
  report.violations.isEmpty

variable (crates : Crates)

/-- Check 1: the stored hash matches the contents. -/
def contentViolations (entry : AuditEntry) : List Violation :=
  let recomputed := entry.recomputeHash crates
  if recomputed ≠ entry.entryHash then
    [{ seq := entry.seq
       kind := .badHash
       detail :=
        s!"stored entry_hash {entry.entryHash} != recomputed {recomputed}" }]
  else []

/-- Check 2a: the first entry follows the anchor, or starts at genesis. -/
def startViolations (anchor : Option Anchor) (entry : AuditEntry) :
    List Violation :=
  match anchor with
  | some a =>
      (if entry.prevHash ≠ a.hash then
        [{ seq := entry.seq
           kind := .brokenLink
           detail :=
            s!"first entry prev_hash {entry.prevHash} != anchor hash {a.hash}" }]
      else []) ++
      (if entry.seq ≠ a.seq + 1 then
        [{ seq := entry.seq
           kind := .sequenceGap
           detail :=
            s!"first entry seq {entry.seq} does not follow anchor seq {a.seq}" }]
      else [])
  | none =>
      (if entry.prevHash ≠ genesisPrevHash then
        [{ seq := entry.seq
           kind := .badGenesis
           detail := s!"first entry prev_hash {entry.prevHash} != genesis " ++
            genesisPrevHash }]
      else []) ++
      (if entry.seq ≠ 1 then
        [{ seq := entry.seq
           kind := .sequenceGap
           detail := s!"first entry seq is {entry.seq}, expected 1" }]
      else [])

/-- Checks 2b and 3: linkage and contiguity with the previous entry. -/
def linkViolations (p entry : AuditEntry) : List Violation :=
  (if entry.prevHash ≠ p.entryHash then
    [{ seq := entry.seq
       kind := .brokenLink
       detail :=
        s!"prev_hash {entry.prevHash} != previous entry_hash {p.entryHash}" }]
  else []) ++
  (if entry.seq ≠ p.seq + 1 then
    [{ seq := entry.seq
       kind := .sequenceGap
       detail := s!"seq {entry.seq} does not follow previous seq {p.seq}" }]
  else [])

/-- The local variables of the verification loop. -/
structure Walk where
  violations : List Violation
  count : ℕ
  prev : Option AuditEntry
  head : Option (UInt64 × String)

def Walk.step (anchor : Option Anchor) (walk : Walk) (entry : AuditEntry) :
    Walk where
  violations := walk.violations ++ contentViolations crates entry ++
    match walk.prev with
    | none => startViolations anchor entry
    | some p => linkViolations p entry
  count := walk.count + 1
  prev := some entry
  head := some (entry.seq, entry.entryHash)

/-- Verify a chain that may start after a trusted anchor instead of genesis. -/
def verifyEntriesFrom (anchor : Option Anchor) (entries : List AuditEntry) :
    VerifyReport :=
  let walk := entries.foldl (Walk.step crates anchor)
    { violations := [], count := 0, prev := none, head := none }
  { entriesChecked := walk.count
    violations := walk.violations
    head := walk.head }

def verifyEntries (entries : List AuditEntry) : VerifyReport :=
  verifyEntriesFrom crates none entries

end Chainlog
