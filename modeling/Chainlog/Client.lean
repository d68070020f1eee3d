import Chainlog.Api
import Chainlog.Nesting

/-!
# The client

The requests that `chainlog-client` sends.  An append request is built by the
calls that build a record in the program itself, serialised, and rebuilt into
a record by the server; the two records agree unless the PII was set to a JSON
`null`, which the server reads as no PII.
-/

namespace Chainlog

/-! ## Requests -/

inductive ClientError where
  | missingToken (name : String)
  deriving DecidableEq, Repr

structure ClientBuilder where
  base : String
  writeToken : Option String
  readToken : Option String
  adminToken : Option String

structure Client where
  base : String
  writeToken : Option String
  readToken : Option String
  adminToken : Option String

/-- `trim_end_matches('/')`. -/
def trimEndSlashes (s : String) : String :=
  String.ofList (s.toList.rdropWhile (· = '/'))

def ClientBuilder.build (builder : ClientBuilder) : Client where
  base := trimEndSlashes builder.base
  writeToken := builder.writeToken
  readToken := builder.readToken
  adminToken := builder.adminToken

/-- What reqwest is asked to send. -/
structure ClientRequest extends HttpRequest where
  method : Method
  url : String

/-! ## What is appended -/

/-- The calls that set the optional fields; the record and the request have the
same ones. -/
inductive BuilderCall where
  | instructionId (id : String)
  | data (data : Value)
  | pii (pii : Value)
  | keyId (keyId : String)

namespace Record

def apply (record : Record) : BuilderCall → Record
  | .instructionId id => record.withInstructionId id
  | .data data => record.withData data
  | .pii pii => record.withPii pii
  | .keyId keyId => record.withKeyId keyId

def build (eventType : String) (outcome : Outcome) (actor : String)
    (calls : List BuilderCall) : Record :=
  calls.foldl apply (new eventType outcome actor)

end Record

structure AppendRequest where
  eventType : String
  outcome : Outcome
  actor : String
  instructionId : Option String
  data : Value
  pii : Option Value
  keyId : Option String

def isNullDocument : Document → Bool
  | .null => true
  | _ => false

/-- `Value::is_null`. -/
def Value.isNull (value : Value) : Bool := isNullDocument value.toDocument

theorem isNullDocument_iff (doc : Document) :
    isNullDocument doc = true ↔ doc = .null := by
  cases doc <;> simp [isNullDocument]

theorem Value.isNull_iff (value : Value) :
    value.isNull = true ↔ value = Value.null := by
  rw [Value.isNull, isNullDocument_iff]
  exact ⟨fun h => Value.toDocument_injective h, fun h => h ▸ rfl⟩

namespace AppendRequest

def new (eventType : String) (outcome : Outcome) (actor : String) :
    AppendRequest where
  eventType := eventType
  outcome := outcome
  actor := actor
  instructionId := none
  data := Value.null
  pii := none
  keyId := none

def apply (req : AppendRequest) : BuilderCall → AppendRequest
  | .instructionId id => { req with instructionId := some id }
  | .data data => { req with data }
  | .pii pii => { req with pii := some pii }
  | .keyId keyId => { req with keyId := some keyId }

def build (eventType : String) (outcome : Outcome) (actor : String)
    (calls : List BuilderCall) : AppendRequest :=
  calls.foldl apply (new eventType outcome actor)

/-- The fields in declaration order; absent options and null data are
skipped. -/
def members (req : AppendRequest) : List (String × Document) :=
  [("event_type", .string req.eventType),
    ("outcome", req.outcome.toDocument),
    ("actor", .string req.actor)] ++
  (match req.instructionId with
    | some id => [("instruction_id", .string id)]
    | none => []) ++
  (if req.data.isNull then [] else [("data", req.data.toDocument)]) ++
  (match req.pii with
    | some pii => [("pii", pii.toDocument)]
    | none => []) ++
  (match req.keyId with
    | some keyId => [("key_id", .string keyId)]
    | none => [])

def toDocument (req : AppendRequest) : Document := .object req.members

end AppendRequest

namespace Client

def builder (base : String) : ClientBuilder where
  base := base
  writeToken := none
  readToken := none
  adminToken := none

def url (client : Client) (path : String) : String := client.base ++ path

def writeTok (client : Client) : Except ClientError String :=
  match client.writeToken with
  | some token => .ok token
  | none => .error (.missingToken "write")

def adminTok (client : Client) : Except ClientError String :=
  match client.adminToken with
  | some token => .ok token
  | none => .error (.missingToken "admin")

def append (serde : SerdeJson) (client : Client) (req : AppendRequest) :
    Except ClientError ClientRequest := do
  let token ← client.writeTok
  return {
    method := .post
    url := client.url "/v1/records"
    headers := bearing token
    contentType := some (asBytes "application/json")
    body := serde.toVec req.toDocument }

/-- The request of `create_key` and `shred_key`. -/
def keyRequest (client : Client) (method : Method) (keyId : String) :
    Except ClientError ClientRequest := do
  let token ← client.adminTok
  return {
    method
    url := client.url s!"/v1/keys/{keyId}"
    headers := bearing token
    contentType := none
    body := [] }

def createKey (client : Client) (keyId : String) :
    Except ClientError ClientRequest :=
  client.keyRequest .post keyId

def shredKey (client : Client) (keyId : String) :
    Except ClientError ClientRequest :=
  client.keyRequest .delete keyId

end Client

/-! ## What is recorded -/

namespace AppendRequest

/-- The record that a program builds with the calls that built the request. -/
def embedded (req : AppendRequest) : Record where
  eventType := req.eventType
  outcome := req.outcome
  actor := req.actor
  instructionId := req.instructionId
  data := req.data
  pii := req.pii
  keyId := req.keyId.getD defaultKeyId

theorem embedded_new (eventType : String) (outcome : Outcome)
    (actor : String) :
    (new eventType outcome actor).embedded =
      Record.new eventType outcome actor := rfl

theorem embedded_apply (req : AppendRequest) (call : BuilderCall) :
    (req.apply call).embedded = req.embedded.apply call := by
  cases call <;> rfl

theorem embedded_build (eventType : String) (outcome : Outcome)
    (actor : String) (calls : List BuilderCall) :
    (build eventType outcome actor calls).embedded =
      Record.build eventType outcome actor calls := by
  rw [build, Record.build, ← embedded_new]
  exact (List.foldl_hom embedded fun req call =>
    (embedded_apply req call).symm).symm

theorem exists_calls (req : AppendRequest) :
    ∃ calls, build req.eventType req.outcome req.actor calls = req := by
  obtain ⟨eventType, outcome, actor, instructionId, data, pii, keyId⟩ := req
  refine ⟨(instructionId.map BuilderCall.instructionId).toList ++
    [BuilderCall.data data] ++ (pii.map BuilderCall.pii).toList ++
    (keyId.map BuilderCall.keyId).toList, ?_⟩
  cases instructionId <;> cases pii <;> cases keyId <;> rfl

/-- What the server's derived `Deserialize` reads: a null PII is none. -/
def received (req : AppendRequest) : RecordRequest where
  eventType := req.eventType
  outcome := req.outcome
  actor := req.actor
  instructionId := req.instructionId
  data := req.data
  pii := req.pii.filter fun pii => !pii.isNull
  keyId := req.keyId.getD defaultKeyId

theorem readOption_value (value : Value) :
    readOption (.ok ∘ Value.ofDocument) value.toDocument =
      .ok (if value.isNull then none else some value) := by
  have hread : ∀ doc : Document,
      readOption (.ok ∘ Value.ofDocument) doc =
        .ok (if isNullDocument doc then none
          else some (Value.ofDocument doc)) := by
    intro doc
    cases doc <;> rfl
  rw [hread, Value.ofDocument_toDocument, Value.isNull]

theorem structField_members (req : AppendRequest) :
    structField req.members "event_type" = .ok (some (.string req.eventType)) ∧
    structField req.members "outcome" = .ok (some req.outcome.toDocument) ∧
    structField req.members "actor" = .ok (some (.string req.actor)) ∧
    structField req.members "instruction_id" =
      .ok (req.instructionId.map .string) ∧
    structField req.members "data" =
      .ok (if req.data.isNull then none else some req.data.toDocument) ∧
    structField req.members "pii" = .ok (req.pii.map Value.toDocument) ∧
    structField req.members "key_id" = .ok (req.keyId.map .string) := by
  obtain ⟨eventType, outcome, actor, instructionId, data, pii, keyId⟩ := req
  cases hnull : data.isNull <;> cases instructionId <;> cases pii <;>
    cases keyId <;> simp [structField, members, hnull]

/-- The server reads back every field, but a null PII as none. -/
theorem ofDocument_toDocument (req : AppendRequest) :
    RecordRequest.ofDocument req.toDocument = .ok req.received := by
  obtain ⟨heventType, houtcome, hactor, hinstruction, hdata, hpii, hkeyId⟩ :=
    req.structField_members
  have hid : defaulted req.members "instruction_id" none
      (readOption readString) = .ok req.instructionId := by
    rw [defaulted, hinstruction]
    cases req.instructionId <;> rfl
  have hvalue : defaulted req.members "data" Value.null
      (.ok ∘ Value.ofDocument) = .ok req.data := by
    rw [defaulted, hdata]
    cases hnull : req.data.isNull with
    | true =>
        rw [(Value.isNull_iff req.data).mp hnull]
        rfl
    | false => simp [bind, Except.bind]
  have hsealed : defaulted req.members "pii" none
      (readOption (.ok ∘ Value.ofDocument)) =
        .ok (req.pii.filter fun pii => !pii.isNull) := by
    rw [defaulted, hpii]
    cases req.pii with
    | none => rfl
    | some pii =>
        simp only [bind, Except.bind, Option.map_some, readOption_value]
        cases hnull : pii.isNull <;> simp [Option.filter, hnull]
  have hkey : defaulted req.members "key_id" defaultKeyId readString =
      .ok (req.keyId.getD defaultKeyId) := by
    rw [defaulted, hkeyId]
    cases req.keyId <;> rfl
  simp [RecordRequest.ofDocument, toDocument, structMembers, required,
    heventType, houtcome, hactor, hid, hvalue, hsealed, hkey, readString,
    received, bind, Except.bind, pure, Except.pure]

theorem toRecord_received (req : AppendRequest) :
    req.received.toRecord =
      { req.embedded with pii := req.pii.filter fun pii => !pii.isNull } := by
  obtain ⟨eventType, outcome, actor, instructionId, data, pii, keyId⟩ := req
  have hrecord : ∀ received : RecordRequest, received.toRecord =
      { eventType := received.eventType, outcome := received.outcome
        actor := received.actor, instructionId := received.instructionId
        data := received.data, pii := received.pii
        keyId := received.keyId } := by
    rintro ⟨eventType, outcome, actor, instructionId, data, pii, keyId⟩
    cases instructionId <;> cases pii <;> rfl
  exact hrecord _

/-- The two records differ exactly if the PII was set to a JSON null. -/
theorem toRecord_received_eq_iff (req : AppendRequest) :
    req.received.toRecord = req.embedded ↔ req.pii ≠ some Value.null := by
  rw [toRecord_received]
  have hpii : ({ req.embedded with
      pii := req.pii.filter fun pii => !pii.isNull } : Record) = req.embedded ↔
        (req.pii.filter fun pii => !pii.isNull) = req.pii := by
    constructor
    · intro h
      exact congrArg Record.pii h
    · intro h
      rw [h]
      rfl
  rw [hpii]
  cases req.pii with
  | none => simp
  | some pii =>
      have hnull := Value.isNull_iff pii
      cases hpii : pii.isNull <;> simp_all [Option.filter]

end AppendRequest

/-! ## Agreement -/

/-- The extractor reads a document back from its text. -/
def Axum.ReadsBack (axum : Axum) (serde : SerdeJson) (doc : Document) : Prop :=
  ∀ request : HttpRequest,
    request.contentType = some (asBytes "application/json") →
      request.body = serde.toVec doc → axum.json request = .ok doc

namespace Client

/-- For every request and every token that the server takes: the server makes
the record that a program makes with the same calls, whichever they were,
exactly if the PII was not set to a JSON null. -/
theorem recorded_as_embedded_iff {σ : Type} (serde : SerdeJson) (axum : Axum)
    (st : AppState σ) (client : Client) (req : AppendRequest)
    (sent : ClientRequest) (hsent : client.append serde req = .ok sent)
    (hjson : axum.ReadsBack serde req.toDocument)
    (htoken : require sent.headers st.writeToken = .ok ()) :
    (∃ calls, AppendRequest.build req.eventType req.outcome req.actor calls =
        req) ∧
      ((∀ calls,
        AppendRequest.build req.eventType req.outcome req.actor calls = req →
          st.acceptRecord axum sent.toHttpRequest =
            .ok (Record.build req.eventType req.outcome req.actor calls)) ↔
        req.pii ≠ some Value.null) := by
  have hread : axum.json sent.toHttpRequest = .ok req.toDocument := by
    cases htok : client.writeTok with
    | error err => simp [append, htok, bind, Except.bind] at hsent
    | ok token =>
        simp only [append, htok, bind, Except.bind, pure, Except.pure,
          Except.ok.injEq] at hsent
        subst hsent
        exact hjson _ rfl rfl
  have haccept : st.acceptRecord axum sent.toHttpRequest =
      .ok req.received.toRecord := by
    simp [AppState.acceptRecord, hread, AppendRequest.ofDocument_toDocument,
      htoken, bind, Except.bind, Except.mapError, pure, Except.pure]
  have hembedded : ∀ calls,
      AppendRequest.build req.eventType req.outcome req.actor calls = req →
        Record.build req.eventType req.outcome req.actor calls =
          req.embedded := by
    intro calls hbuilt
    rw [← AppendRequest.embedded_build, hbuilt]
  refine ⟨req.exists_calls, ?_⟩
  rw [haccept, ← req.toRecord_received_eq_iff]
  constructor
  · intro hsame
    obtain ⟨calls, hbuilt⟩ := req.exists_calls
    exact (Except.ok.inj (hsame calls hbuilt)).trans (hembedded calls hbuilt)
  · intro hsame calls hbuilt
    rw [hsame, hembedded calls hbuilt]

/-- A client that may append. -/
def writingClient : Client :=
  { builder "http://127.0.0.1:8888/" with writeToken := some "w" }.build

/-- A login with the subject's address as PII. -/
def loginRequest (pii : Value) : AppendRequest :=
  .build "user.login" .success "user-42" [.pii pii]

theorem loginRequest_readsBack {pii : Value} (hdepth : pii.depth ≤ 126) :
    (referenceAxum 127).ReadsBack (referenceSerde 127)
      (loginRequest pii).toDocument := by
  intro request htype hbody
  have hlimit : (loginRequest pii).toDocument.depth ≤ 127 := by
    rw [Value.depth] at hdepth
    simp [loginRequest, AppendRequest.build, AppendRequest.apply,
      AppendRequest.new, AppendRequest.toDocument, AppendRequest.members,
      Value.isNull, isNullDocument, Value.null, Value.toDocument,
      Outcome.toDocument] at hdepth ⊢
    omega
  exact (referenceAxum_invertsUpTo 127 request _ htype hbody).1 hlimit

theorem recorded_as_embedded_iff_login :
    let tokens : Tokens := { write := "w", read := "r" }
    ∃ sent, writingClient.append (referenceSerde 127) (loginRequest
        (Value.ofDocument (.object [("email", .string "a@b.com")]))) =
          .ok sent ∧
      (Engine.onMissing.app tokens).acceptRecord (referenceAxum 127)
        sent.toHttpRequest = .ok (Record.build "user.login" .success "user-42"
          [.pii (Value.ofDocument (.object [("email", .string "a@b.com")]))]) := by
  intro tokens
  refine ⟨_, rfl, ?_⟩
  have hagree := recorded_as_embedded_iff (referenceSerde 127)
    (referenceAxum 127) (Engine.onMissing.app tokens) writingClient (loginRequest
      (Value.ofDocument (.object [("email", .string "a@b.com")]))) _ rfl
    (loginRequest_readsBack (by decide)) require_bearing_write
  refine hagree.2.mpr ?_ _ rfl
  intro h
  exact absurd (congrArg (Option.map Value.isNull) h) (by decide)

/-- A PII bundle of JSON null is sealed by a program that embeds the log, and
not even recorded by the server. -/
theorem nullPii_not_recorded :
    let tokens : Tokens := { write := "w", read := "r" }
    ∃ sent record, writingClient.append (referenceSerde 127)
        (loginRequest Value.null) = .ok sent ∧
      (Engine.onMissing.app tokens).acceptRecord (referenceAxum 127)
        sent.toHttpRequest = .ok record ∧
      record.pii = none ∧
      (Record.build "user.login" .success "user-42"
        [.pii Value.null]).pii = some Value.null := by
  intro tokens
  refine ⟨_, (loginRequest Value.null).received.toRecord, rfl, ?_, rfl, rfl⟩
  have hread := @loginRequest_readsBack Value.null (by decide) {
    headers := bearing "w"
    contentType := some (asBytes "application/json")
    body := (referenceSerde 127).toVec (loginRequest Value.null).toDocument } rfl
    rfl
  have hrequire : require (bearing "w") (Engine.onMissing.app tokens).writeToken =
      .ok () := require_bearing_write
  simp only [AppState.acceptRecord, hread, AppendRequest.ofDocument_toDocument,
    hrequire, bind, Except.bind, Except.mapError, pure, Except.pure]

end Client

end Chainlog
