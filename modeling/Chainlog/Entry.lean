import Chainlog.Serde

/-!
# Records and entries

What a caller submits (`Record`), what is stored (`AuditEntry`) and what is
returned (`Receipt`), with their derived JSON forms.
-/

namespace Chainlog

inductive Outcome where
  | success
  | failure
  | denied
  deriving DecidableEq, Repr

namespace Outcome

def asStr : Outcome → String
  | .success => "success"
  | .failure => "failure"
  | .denied => "denied"

theorem asStr_injective : Function.Injective asStr := by
  intro a b h
  cases a <;> cases b <;> first | rfl | exact absurd h (by decide)

/-- `rename_all = "snake_case"` writes the names of `as_str`. -/
def toDocument (outcome : Outcome) : Document := .string outcome.asStr

def ofName : String → Except String Outcome
  | "success" => .ok .success
  | "failure" => .ok .failure
  | "denied" => .ok .denied
  | other => .error s!"unknown variant {other}"

/-- A unit variant is its name, or an object holding the name over `null`. -/
def ofDocument : Document → Except String Outcome
  | .string name => ofName name
  | .object [(name, .null)] => ofName name
  | _ => .error "invalid type: expected variant identifier"

@[simp] theorem ofDocument_toDocument (outcome : Outcome) :
    ofDocument outcome.toDocument = .ok outcome := by
  cases outcome <;> rfl

end Outcome

/-- A PII bundle after envelope encryption; all but the key id is base64. -/
structure EncryptedPii where
  keyId : String
  wrappedDek : String
  nonce : String
  ciphertext : String
  deriving DecidableEq, Repr

namespace EncryptedPii

def fields : List String := ["key_id", "wrapped_dek", "nonce", "ciphertext"]

def toDocument (pii : EncryptedPii) : Document :=
  .object [("key_id", .string pii.keyId),
    ("wrapped_dek", .string pii.wrappedDek),
    ("nonce", .string pii.nonce),
    ("ciphertext", .string pii.ciphertext)]

def ofDocument (doc : Document) : Except String EncryptedPii := do
  let members ← structMembers fields doc
  let keyId ← required members "key_id" readString
  let wrappedDek ← required members "wrapped_dek" readString
  let nonce ← required members "nonce" readString
  let ciphertext ← required members "ciphertext" readString
  return { keyId, wrappedDek, nonce, ciphertext }

@[simp] theorem ofDocument_toDocument (pii : EncryptedPii) :
    ofDocument pii.toDocument = .ok pii := rfl

theorem toDocument_injective : Function.Injective toDocument := by
  intro p q h
  have hread := congrArg ofDocument h
  simpa using hread

end EncryptedPii

structure Payload where
  data : Value
  pii : Option EncryptedPii

namespace Payload

def fields : List String := ["data", "pii"]

/-- An absent bundle is skipped. -/
def toDocument (payload : Payload) : Document :=
  .object (("data", payload.data.toDocument) ::
    match payload.pii with
    | some pii => [("pii", pii.toDocument)]
    | none => [])

def ofDocument (doc : Document) : Except String Payload := do
  let members ← structMembers fields doc
  let data ← defaulted members "data" Value.null (.ok ∘ Value.ofDocument)
  let pii ← defaulted members "pii" none (readOption EncryptedPii.ofDocument)
  return { data, pii }

@[simp] theorem ofDocument_toDocument (payload : Payload) :
    ofDocument payload.toDocument = .ok payload := by
  obtain ⟨data, _ | pii⟩ := payload
  · simp [ofDocument, toDocument, structMembers, defaulted, structField,
      bind, Except.bind, pure, Except.pure]
  · have hpii : readOption EncryptedPii.ofDocument pii.toDocument =
        .ok (some pii) := rfl
    simp [ofDocument, toDocument, structMembers, defaulted, structField,
      bind, Except.bind, pure, Except.pure, hpii]

theorem toDocument_injective : Function.Injective toDocument := by
  intro p q h
  have hread := congrArg ofDocument h
  simpa using hread

end Payload

structure Record where
  eventType : String
  outcome : Outcome
  actor : String
  instructionId : Option String
  data : Value
  pii : Option Value
  /-- The key-encryption key that wraps this entry's data key. -/
  keyId : String

namespace Record

def new (eventType : String) (outcome : Outcome) (actor : String) : Record where
  eventType := eventType
  outcome := outcome
  actor := actor
  instructionId := none
  data := Value.null
  pii := none
  keyId := "master"

def withInstructionId (record : Record) (id : String) : Record :=
  { record with instructionId := some id }

def withData (record : Record) (data : Value) : Record :=
  { record with data }

def withPii (record : Record) (pii : Value) : Record :=
  { record with pii := some pii }

def withKeyId (record : Record) (keyId : String) : Record :=
  { record with keyId }

end Record

/-- A sealed, hash-chained entry, as it is written to disk. -/
structure AuditEntry where
  seq : UInt64
  timestamp : Int64
  eventType : String
  outcome : Outcome
  actor : String
  instructionId : Option String
  payload : Payload
  prevHash : String
  entryHash : String

namespace AuditEntry

def fields : List String :=
  ["seq", "timestamp", "event_type", "outcome", "actor", "instruction_id",
    "payload", "prev_hash", "entry_hash"]

/-- The fields in declaration order; an absent instruction id is skipped. -/
def toDocument (e : AuditEntry) : Document :=
  .object ([("seq", .number (.posInt e.seq)),
      ("timestamp", i64Document e.timestamp),
      ("event_type", .string e.eventType),
      ("outcome", e.outcome.toDocument),
      ("actor", .string e.actor)] ++
    (match e.instructionId with
      | some id => [("instruction_id", .string id)]
      | none => []) ++
    [("payload", e.payload.toDocument),
      ("prev_hash", .string e.prevHash),
      ("entry_hash", .string e.entryHash)])

def ofDocument (doc : Document) : Except String AuditEntry := do
  let members ← structMembers fields doc
  let seq ← required members "seq" readU64
  let timestamp ← required members "timestamp" readI64
  let eventType ← required members "event_type" readString
  let outcome ← required members "outcome" Outcome.ofDocument
  let actor ← required members "actor" readString
  let instructionId ←
    defaulted members "instruction_id" none (readOption readString)
  let payload ← required members "payload" Payload.ofDocument
  let prevHash ← required members "prev_hash" readString
  let entryHash ← required members "entry_hash" readString
  return ⟨seq, timestamp, eventType, outcome, actor, instructionId, payload,
    prevHash, entryHash⟩

@[simp] theorem ofDocument_toDocument (e : AuditEntry) :
    ofDocument e.toDocument = .ok e := by
  obtain ⟨seq, timestamp, eventType, outcome, actor, _ | id, payload, prevHash,
    entryHash⟩ := e <;>
  simp [ofDocument, toDocument, structMembers, required, defaulted,
    structField, readU64, readString, readOption, readI64_i64Document, bind,
    Except.bind, pure, Except.pure, Except.map]

/-- The stored entry nests its data two levels deeper. -/
theorem depth_toDocument (e : AuditEntry) :
    e.toDocument.depth =
      max e.payload.data.depth (if e.payload.pii.isSome then 1 else 0) + 2 := by
  have htime : (i64Document e.timestamp).depth = 0 := by
    rw [i64Document]
    split_ifs <;> simp
  have houtcome : e.outcome.toDocument.depth = 0 := by simp [Outcome.toDocument]
  have hpayload : e.payload.toDocument.depth =
      max e.payload.data.depth (if e.payload.pii.isSome then 1 else 0) + 1 := by
    cases hpii : e.payload.pii <;>
      simp [Payload.toDocument, hpii, EncryptedPii.toDocument, Value.depth]
  cases hid : e.instructionId <;>
    simp [toDocument, hid, htime, houtcome, hpayload]

end AuditEntry

/-- Returned to the caller once an entry is durably written. -/
structure Receipt where
  seq : UInt64
  timestamp : Int64
  entryHash : String
  prevHash : String
  deriving DecidableEq, Repr

/-- The receipt that names an entry. -/
def AuditEntry.receipt (e : AuditEntry) : Receipt where
  seq := e.seq
  timestamp := e.timestamp
  entryHash := e.entryHash
  prevHash := e.prevHash

/-- `GENESIS_PREV_HASH`: 32 zero bytes in hexadecimal. -/
def genesisPrevHash : String :=
  "0000000000000000000000000000000000000000000000000000000000000000"

end Chainlog
