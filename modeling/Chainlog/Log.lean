import Chainlog.LogStore
import Chainlog.Verify

/-!
# The writer

The writer thread's state and its handling of one record.  What the
environment answers during a call (the clock, `crypto::seal` under the
configured provider, the file system) is an input of the call.
-/

namespace Chainlog

/-- The environment's answers while one record is processed. -/
structure Call where
  /-- `now_ms()`. -/
  now : Int64
  /-- `crypto::seal` with the log's provider, at a key id and a PII value. -/
  cryptoSeal : String → Value → Result EncryptedPii
  io : IoOutcome

/-- Mutable state owned by the writer thread. -/
structure WriterState (σ : Type) where
  store : σ
  seq : UInt64
  prevHash : String

variable (crates : Crates)

/-- Encrypt the record's PII, if it has any. -/
def sealPii (call : Call) (record : Record) : Result (Option EncryptedPii) :=
  match record.pii with
  | some value => (call.cryptoSeal record.keyId value).map some
  | none => .ok none

/-- The entry that continues a chain whose last entry is `(seq, prevHash)`. -/
def sealEntry (seq : UInt64) (prevHash : String) (call : Call)
    (record : Record) (pii : Option EncryptedPii) : AuditEntry :=
  let entry : AuditEntry := {
    seq := seq + 1
    timestamp := call.now
    eventType := record.eventType
    outcome := record.outcome
    actor := record.actor
    instructionId := record.instructionId
    payload := { data := record.data, pii }
    prevHash := prevHash
    entryHash := "" }
  { entry with entryHash := entryHash crates entry }

namespace WriterState

variable {σ : Type} [Store σ]

/-- Seal, chain and append one record.  The chain state advances only after
the append has succeeded. -/
def process (writer : WriterState σ) (call : Call) (record : Record) :
    WriterState σ × Result Receipt :=
  match sealPii call record with
  | .error err => (writer, .error err)
  | .ok pii =>
      let entry := sealEntry crates writer.seq writer.prevHash call record pii
      match Store.append crates writer.store entry call.io with
      | (store, .error err) => ({ writer with store }, .error err)
      | (store, .ok ()) =>
          ({ store, seq := entry.seq, prevHash := entry.entryHash },
            .ok entry.receipt)

/-- The reply to a head command. -/
def head (writer : WriterState σ) : UInt64 × String :=
  (writer.seq, writer.prevHash)

end WriterState

/-- The settings of `Builder`; the key provider itself acts through
`Call.cryptoSeal`. -/
structure Builder (σ : Type) where
  store : Option σ
  hasProvider : Bool

/-- Start a writer, resuming from the store's tail. -/
def Builder.build {σ : Type} [Store σ] (builder : Builder σ) :
    Result (WriterState σ) := do
  let store ← match builder.store with
    | some store => .ok store
    | none => .error (.config "no store configured")
  if !builder.hasProvider then
    .error (.config "no key provider configured")
  else
    match ← Store.tail store with
    | some (seq, hash) => return { store, seq, prevHash := hash }
    | none => return { store, seq := 0, prevHash := genesisPrevHash }

end Chainlog
