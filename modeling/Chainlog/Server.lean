import Chainlog.Log
import Chainlog.Merkle

/-!
# The server

The handlers for append, head, verify and Merkle proofs.  A handler that reads the log gets
what the data path names at that moment; the append handler drives the writer.
axum's `Json` extractor is a parameter.
-/

namespace Chainlog

inductive StatusCode where
  | ok
  | created
  | badRequest
  | unauthorized
  | notFound
  | methodNotAllowed
  | conflict
  | payloadTooLarge
  | unsupportedMediaType
  | unprocessableEntity
  | internalServerError
  | notImplemented
  deriving DecidableEq, Repr

/-- An error that maps onto an HTTP status and a JSON body. -/
structure ApiError where
  status : StatusCode
  message : String
  deriving DecidableEq, Repr

/-- `From<chainlog_core::Error>`. -/
def ApiError.ofCore (err : Error) : ApiError where
  status := .internalServerError
  message := err.display

/-- The headers that the handlers read. -/
structure HeaderMap where
  authorization : Option Bytes
  deriving DecidableEq, Repr

/-- `HeaderValue::to_str`: visible ASCII, spaces and tabs only. -/
def headerText (value : Bytes) : Option String :=
  if value.all fun b => b = 9 || (32 ≤ b && b < 127) then fromUtf8 value
  else none

def bearerPrefix : List Char := ['B', 'e', 'a', 'r', 'e', 'r', ' ']

def bearer (headers : HeaderMap) : Option String := do
  let text ← headerText (← headers.authorization)
  (stripPrefix bearerPrefix text.toList).map String.ofList

def require (headers : HeaderMap) (expected : String) : Except ApiError Unit :=
  let denied : Except ApiError Unit :=
    .error { status := .unauthorized, message := "invalid or missing bearer token" }
  match bearer headers with
  | some token => if expected ≠ "" ∧ token = expected then .ok () else denied
  | none => denied

/-- The headers of a request that bears the token. -/
def bearing (token : String) : HeaderMap where
  authorization := some (asBytes ("Bearer " ++ token))

theorem require_bearing : require (bearing "r") "r" = .ok () := by decide

/-! ## Requests -/

structure HttpRequest where
  headers : HeaderMap
  contentType : Option Bytes
  body : Bytes

/-- axum's `Json` extractor, up to the document that the target type is built
from: it checks the content type, the body's size and its syntax. -/
structure Axum where
  json : HttpRequest → Except ApiError Document

structure RecordRequest where
  eventType : String
  outcome : Outcome
  actor : String
  instructionId : Option String
  data : Value
  pii : Option Value
  keyId : String

def defaultKeyId : String := "master"

namespace RecordRequest

def fields : List String :=
  ["event_type", "outcome", "actor", "instruction_id", "data", "pii", "key_id"]

def ofDocument (doc : Document) : Except String RecordRequest := do
  let members ← structMembers fields doc
  let eventType ← required members "event_type" readString
  let outcome ← required members "outcome" Outcome.ofDocument
  let actor ← required members "actor" readString
  let instructionId ←
    defaulted members "instruction_id" none (readOption readString)
  let data ← defaulted members "data" Value.null (.ok ∘ Value.ofDocument)
  let pii ←
    defaulted members "pii" none (readOption (.ok ∘ Value.ofDocument))
  let keyId ← defaulted members "key_id" defaultKeyId readString
  return ⟨eventType, outcome, actor, instructionId, data, pii, keyId⟩

/-- The record that the append handler builds. -/
def toRecord (req : RecordRequest) : Record :=
  let rec₀ := (Record.new req.eventType req.outcome req.actor).withKeyId
    req.keyId
  let rec₁ := match req.instructionId with
    | some id => rec₀.withInstructionId id
    | none => rec₀
  let rec₂ := rec₁.withData req.data
  match req.pii with
  | some pii => rec₂.withPii pii
  | none => rec₂

end RecordRequest

/-! ## State and handlers -/

/-- The part of `AppState` that append, head and verify use. -/
structure AppState (σ : Type) where
  log : WriterState σ
  segmented : Bool
  writeToken : String
  readToken : String

variable (crates : Crates)

/-- Read the full chain, tolerating a not-yet-created log. -/
def readLog (path : DataPath) (segmented : Bool) :
    Except ApiError (List AuditEntry) :=
  match readStored crates segmented path with
  | .ok entries => .ok entries
  | .error (.io _) => .ok []
  | .error err => .error (ApiError.ofCore err)

namespace AppState

variable {σ : Type} [Store σ]

/-- The record that a request asks to append. -/
def acceptRecord (axum : Axum) (st : AppState σ) (request : HttpRequest) :
    Except ApiError Record := do
  let doc ← axum.json request
  let req ← (RecordRequest.ofDocument doc).mapError fun reason =>
    { status := .unprocessableEntity, message := reason }
  require request.headers st.writeToken
  return req.toRecord

/-- `POST /v1/records`. -/
def append (axum : Axum) (st : AppState σ) (request : HttpRequest)
    (call : Call) : AppState σ × Except ApiError (StatusCode × Receipt) :=
  match st.acceptRecord axum request with
  | .error err => (st, .error err)
  | .ok record =>
      match st.log.process crates call record with
      | (log, .error err) => ({ st with log }, .error (ApiError.ofCore err))
      | (log, .ok receipt) => ({ st with log }, .ok (.created, receipt))

/-- An accepted request answers as the writer replies. -/
theorem append_of_accepted {axum : Axum} {st : AppState σ}
    {request : HttpRequest} {record : Record}
    (h : st.acceptRecord axum request = .ok record) (call : Call) :
    st.append crates axum request call =
      ({ st with log := (st.log.process crates call record).1 },
        ((st.log.process crates call record).2.mapError ApiError.ofCore).map
          (StatusCode.created, ·)) := by
  simp only [append, h]
  rcases st.log.process crates call record with ⟨log, _ | _⟩ <;> rfl

omit [Store σ] in
/-- `GET /v1/head`. -/
def head (st : AppState σ) (headers : HeaderMap) :
    Except ApiError (UInt64 × String) := do
  require headers st.readToken
  return st.log.head

omit [Store σ] in
/-- `GET /v1/verify`. -/
def verify (st : AppState σ) (headers : HeaderMap) (path : DataPath) :
    Except ApiError (StatusCode × VerifyReport) := do
  require headers st.readToken
  let entries ← readLog crates path st.segmented
  let report := verifyEntries crates entries
  let status := if report.isValid then StatusCode.ok else .conflict
  return (status, report)

/-- The answer to a request for a proof. -/
structure MerkleProofAnswer where
  seq : UInt64
  leaf : Option String
  root : String
  proof : MerkleProof
  deriving DecidableEq, Repr

omit [Store σ] in
/-- `GET /v1/merkle-proof`. -/
def merkleProofHandler (st : AppState σ) (headers : HeaderMap) (path : DataPath)
    (seq : UInt64) : Except ApiError MerkleProofAnswer := do
  require headers st.readToken
  let entries ← readLog crates path st.segmented
  match merkleProofForSeq crates entries seq with
  | none =>
      .error { status := .notFound, message := s!"no entry with seq {seq}" }
  | some proof =>
      let leaf := (entries.find? fun e => e.seq = seq).map AuditEntry.entryHash
      let root := merkleRoot crates (entryLeaves entries)
      return { seq, leaf, root, proof }

end AppState

end Chainlog
