import Chainlog.KeyAddresses
import Chainlog.ResponseBodies

/-!
# Calls of the client

What a call sends, what comes back and what the client makes of it.  A success
is read as the type of the call, any other status is an error with the body's
text; `verify` takes the report of an invalid chain too.
-/

namespace Chainlog

/-! ## Types of the client -/

/-- The chain head. -/
structure Head where
  seq : UInt64
  headHash : String

structure ReadResponse where
  count : ℕ
  /-- Entries as JSON values. -/
  entries : List Value

structure MerkleProofResponse where
  seq : UInt64
  leaf : Option String
  root : String
  proof : MerkleProof

structure CreateKeyResponse where
  keyId : String
  created : Bool

structure ShredKeyResponse where
  keyId : String
  shredded : Bool

namespace Head

def fields : List String := ["seq", "head_hash"]

def ofDocument (doc : Document) : Except String Head := do
  let members ← structMembers fields doc
  let seq ← required members "seq" readU64
  let headHash ← required members "head_hash" readString
  return { seq, headHash }

end Head

namespace ReadResponse

def fields : List String := ["count", "entries"]

def ofDocument (doc : Document) : Except String ReadResponse := do
  let members ← structMembers fields doc
  let count ← required members "count" readUsize
  let entries ← required members "entries" (readVec (.ok ∘ Value.ofDocument))
  return { count, entries }

end ReadResponse

namespace MerkleProofResponse

def fields : List String := ["seq", "leaf", "root", "proof"]

def ofDocument (doc : Document) : Except String MerkleProofResponse := do
  let members ← structMembers fields doc
  let seq ← required members "seq" readU64
  let leaf ← defaulted members "leaf" none (readOption readString)
  let root ← required members "root" readString
  let proof ← required members "proof" MerkleProof.ofDocument
  return { seq, leaf, root, proof }

end MerkleProofResponse

namespace CreateKeyResponse

def fields : List String := ["key_id", "created"]

def ofDocument (doc : Document) : Except String CreateKeyResponse := do
  let members ← structMembers fields doc
  let keyId ← required members "key_id" readString
  let created ← required members "created" readBool
  return { keyId, created }

end CreateKeyResponse

namespace ShredKeyResponse

def fields : List String := ["key_id", "shredded"]

def ofDocument (doc : Document) : Except String ShredKeyResponse := do
  let members ← structMembers fields doc
  let keyId ← required members "key_id" readString
  let shredded ← required members "shredded" readBool
  return { keyId, shredded }

end ShredKeyResponse

/-- `KeyListResponse`. -/
def readKeyList (doc : Document) : Except String (List String) := do
  let members ← structMembers ["key_ids"] doc
  required members "key_ids" (readVec readString)

/-! ## Responses -/

namespace Answer

/-- The JSON body that a handler answers with. -/
def toDocument : Answer → Document
  | .health => jsonObject [("status", .string "ok")]
  | .receipt r => r.toDocument
  | .head seq headHash =>
      jsonObject [("seq", .number (.posInt seq)), ("head_hash", .string headHash)]
  | .records answer =>
      jsonObject [("count", usizeDocument answer.count),
        ("entries", .array (answer.entries.map Value.toDocument))]
  | .checkpoint cp => cp.toDocument
  | .merkleAnchor anchor => anchor.toDocument
  | .merkleProof answer =>
      jsonObject [("seq", .number (.posInt answer.seq)),
        ("leaf", match answer.leaf with
          | some leaf => .string leaf
          | none => .null),
        ("root", .string answer.root),
        ("proof", answer.proof.toDocument)]
  | .report r => r.toDocument
  | .keyIds ids => jsonObject [("key_ids", .array (ids.map .string))]
  | .created keyId isNew =>
      jsonObject [("key_id", .string keyId), ("created", .bool isNew)]
  | .shredded keyId present =>
      jsonObject [("key_id", .string keyId), ("shredded", .bool present)]

end Answer

/-- The body that `IntoResponse` gives an error. -/
def ApiError.toDocument (err : ApiError) : Document :=
  jsonObject [("error", .string err.message)]

def StatusCode.code : StatusCode → ℕ
  | .ok => 200
  | .created => 201
  | .badRequest => 400
  | .unauthorized => 401
  | .notFound => 404
  | .methodNotAllowed => 405
  | .conflict => 409
  | .payloadTooLarge => 413
  | .unsupportedMediaType => 415
  | .unprocessableEntity => 422
  | .internalServerError => 500
  | .notImplemented => 501

/-- A response as the client receives it; every body is a text. -/
structure WireResponse where
  status : ℕ
  body : String

/-- What axum answers before a handler runs: no route, or an extractor that
rejects the request. -/
def ApiRequest.extracted (axum : Extractors) (request : ApiRequest) :
    Except ApiError Unit := do
  match ← request.endpoint with
  | .get .readRecords => discard (axum.readQuery request.query)
  | .get .merkleProof => discard (axum.proofQuery request.query)
  | .get _ => return ()
  | .append =>
      let doc ← axum.json request.toHttpRequest
      discard ((RecordRequest.ofDocument doc).mapError fun reason =>
        ({ status := .unprocessableEntity, message := reason } : ApiError))
  | .createKey segment | .shredKey segment => discard (axum.pathParam segment)

/-- A handler's error is JSON, a rejection has its text. -/
def Response.wire (serde : SerdeJson) (extracted : Except ApiError Unit) :
    Response → Option WireResponse
  | .answer status body =>
      some { status := status.code, body := serde.toText body.toDocument }
  | .failure err =>
      some {
        status := err.status.code
        body := match extracted with
          | .ok _ => serde.toText err.toDocument
          | .error _ => err.message }
  | .dropped _ => none

/-! ## Requests -/

/-- `form_urlencoded` of letters and digits. -/
def queryText (pairs : List (String × String)) : String :=
  "&".intercalate (pairs.map fun pair => pair.1 ++ "=" ++ pair.2)

/-- `u64::to_string`. -/
def u64Text (n : UInt64) : String := String.ofList (Nat.toDigits 10 n.toNat)

/-- `bool::to_string`. -/
def boolText : Bool → String
  | true => "true"
  | false => "false"

def pairField (pairs : List (String × String)) (name : String) :
    Except String (Option String) :=
  match pairs.filter fun pair => pair.1 = name with
  | [] => .ok none
  | [pair] => .ok (some pair.2)
  | _ => .error s!"duplicate field {name}"

def readU64Text (text : String) : Except String UInt64 :=
  match parseU64 text.toList with
  | some n => .ok n
  | none => .error "invalid digit found in string"

def readBoolText : String → Except String Bool
  | "true" => .ok true
  | "false" => .ok false
  | _ => .error "provided string was not true or false"

/-- A pair whose field has a default. -/
def pairMember {α : Type} (pairs : List (String × String)) (name : String)
    (default : α) (read : String → Except String α) : Except String α := do
  match ← pairField pairs name with
  | some text => read text
  | none => .ok default

/-- `Deserialize for ReadQuery`. -/
def ReadQuery.ofPairs (pairs : List (String × String)) :
    Except String ReadQuery := do
  let fromSeq ← pairMember pairs "from" none fun text =>
    (readU64Text text).map some
  let toSeq ← pairMember pairs "to" none fun text =>
    (readU64Text text).map some
  let decrypt ← pairMember pairs "decrypt" false readBoolText
  return { fromSeq, toSeq, decrypt }

/-- `Deserialize for ProofQuery`. -/
def proofQueryOfPairs (pairs : List (String × String)) :
    Except String UInt64 := do
  match ← pairField pairs "seq" with
  | some text => readU64Text text
  | none => .error "missing field seq"

/-- The errors of a call, besides those of its request. -/
inductive CallError where
  | request (err : ClientError)
  | http (reason : String)
  | status (status : ℕ) (body : String)
  deriving DecidableEq, Repr

inductive ClientCall where
  | append (req : AppendRequest)
  | read (fromSeq toSeq : Option UInt64) (decrypt : Bool)
  | head
  | verify
  | checkpoint
  | merkleAnchor
  | merkleProof (seq : UInt64)
  | createKey (keyId : String)
  | shredKey (keyId : String)
  | listKeys

namespace Client

def readTok (client : Client) : Except ClientError String :=
  match client.readToken with
  | some token => .ok token
  | none => .error (.missingToken "read")

def getRequest (client : Client) (token : Except ClientError String)
    (path : String) (pairs : List (String × String)) :
    Except ClientError ClientRequest := do
  let token ← token
  let query := if pairs.isEmpty then "" else "?" ++ queryText pairs
  return {
    method := .get
    url := client.url path ++ query
    headers := bearing token
    contentType := none
    body := [] }

def readPairs (fromSeq toSeq : Option UInt64) (decrypt : Bool) :
    List (String × String) :=
  [("decrypt", boolText decrypt)] ++
  (match fromSeq with
    | some seq => [("from", u64Text seq)]
    | none => []) ++
  (match toSeq with
    | some seq => [("to", u64Text seq)]
    | none => [])

/-- What a call sends. -/
def request (serde : SerdeJson) (client : Client) :
    ClientCall → Except ClientError ClientRequest
  | .append req => client.append serde req
  | .read fromSeq toSeq decrypt =>
      client.getRequest client.readTok "/v1/records"
        (readPairs fromSeq toSeq decrypt)
  | .head => client.getRequest client.readTok "/v1/head" []
  | .verify => client.getRequest client.readTok "/v1/verify" []
  | .checkpoint => client.getRequest client.readTok "/v1/checkpoint" []
  | .merkleAnchor => client.getRequest client.readTok "/v1/merkle-anchor" []
  | .merkleProof seq =>
      client.getRequest client.readTok "/v1/merkle-proof" [("seq", u64Text seq)]
  | .createKey keyId => client.createKey keyId
  | .shredKey keyId => client.shredKey keyId
  | .listKeys => client.getRequest client.adminTok "/v1/keys" []

end Client

/-! ## Replies -/

namespace ClientCall

/-- The type that a success is read as. -/
def Reply : ClientCall → Type
  | .append _ => Receipt
  | .read _ _ _ => ReadResponse
  | .head => Head
  | .verify => VerifyReport
  | .checkpoint => Checkpoint
  | .merkleAnchor => MerkleAnchor
  | .merkleProof _ => MerkleProofResponse
  | .createKey _ => CreateKeyResponse
  | .shredKey _ => ShredKeyResponse
  | .listKeys => List String

/-- `Deserialize` at the type of the call. -/
def readReply : (call : ClientCall) → Document → Except String call.Reply
  | .append _ => Receipt.ofDocument
  | .read _ _ _ => ReadResponse.ofDocument
  | .head => Head.ofDocument
  | .verify => VerifyReport.ofDocument
  | .checkpoint => Checkpoint.ofDocument
  | .merkleAnchor => MerkleAnchor.ofDocument
  | .merkleProof _ => MerkleProofResponse.ofDocument
  | .createKey _ => CreateKeyResponse.ofDocument
  | .shredKey _ => ShredKeyResponse.ofDocument
  | .listKeys => readKeyList

/-- The statuses whose body is read as the reply. -/
def accepts (call : ClientCall) (status : ℕ) : Bool :=
  (200 ≤ status && status < 300) ||
    match call with
    | .verify => status = 409
    | _ => false

/-- `Client::send`, and its counterpart in `verify`. -/
def receive (serde : SerdeJson) (call : ClientCall) :
    Option WireResponse → Except CallError call.Reply
  | none => .error (.http "connection closed before message completed")
  | some response =>
      if call.accepts response.status then
        (serde.fromStr response.body >>= call.readReply).mapError CallError.http
      else .error (.status response.status response.body)

end ClientCall

/-- The handler of a call, on the call's own arguments. -/
def ApiState.serve {σ : Type} [Store σ] {signing : SigningCrates}
    (crates : Crates) (cipher : CipherCrates) (st : ApiState σ signing)
    (token : String) (env : ApiCall) :
    ClientCall → ApiState σ signing × Response
  | .append req =>
      match require (bearing token) st.writeToken with
      | .error err => (st, .failure err)
      | .ok () =>
          let record := req.received.toRecord
          let (log, result) := st.log.process crates (st.call cipher env) record
          ({ st with log, keys := st.keysAfter cipher env record },
            .ofResult ((result.mapError ApiError.ofCore).map fun receipt =>
              (.created, .receipt receipt)))
  | .read fromSeq toSeq decrypt =>
      (st, match st.readRecords cipher st.keys crates (bearing token) env.disk
          { fromSeq, toSeq, decrypt } with
        | .error panic => .dropped panic
        | .ok answer =>
            .ofResult (answer.map fun answer => (.ok, .records answer)))
  | .head =>
      (st, .ofResult ((st.toAppState.head (bearing token)).map fun head =>
        (.ok, .head head.1 head.2)))
  | .verify =>
      (st, .ofResult ((st.toAppState.verify crates (bearing token)
        env.disk).map fun (status, report) => (status, .report report)))
  | .checkpoint =>
      (st, .ofResult ((st.checkpoint (bearing token) env.now).map fun cp =>
        (.ok, .checkpoint cp)))
  | .merkleAnchor =>
      (st, .ofResult ((st.merkleAnchor crates (bearing token) env.disk
        env.now).map fun anchor => (.ok, .merkleAnchor anchor)))
  | .merkleProof seq =>
      (st, .ofResult ((st.merkleProofHandler crates (bearing token) env.disk
        seq).map fun answer => (.ok, .merkleProof answer)))
  | .createKey keyId => st.createKey cipher (bearing token) keyId env.mint
  | .shredKey keyId => st.shredKey cipher (bearing token) keyId env.removal
  | .listKeys =>
      (st, .ofResult ((st.listKeys (bearing token)).map fun ids =>
        (.ok, .keyIds ids)))

/-- `HeaderValue::try_from` on the bytes of a token. -/
def headerValid (value : Bytes) : Bool :=
  value.all fun b => b = 9 || (32 ≤ b && b ≠ 127)

/-- One call of the client over the network, to a server in a state. -/
def Client.perform {σ : Type} [Store σ] {signing : SigningCrates}
    (crates : Crates) (cipher : CipherCrates) (axum : Extractors)
    (urls : UrlLibrary) (client : Client) (call : ClientCall)
    (st : ApiState σ signing) (env : ApiCall) :
    ApiState σ signing × Except CallError call.Reply :=
  match client.request crates.serde call with
  | .error err => (st, .error (.request err))
  | .ok sent =>
      if headerValid (sent.headers.authorization.getD []) then
        match sent.delivered urls with
        | .error reason => (st, .error (.http reason))
        | .ok request =>
            let (next, response) := st.handle crates cipher axum request env
            (next, call.receive crates.serde
              (response.wire crates.serde (request.extracted axum)))
      else (st, .error (.http "builder error"))

end Chainlog
