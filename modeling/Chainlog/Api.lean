import Chainlog.Linearizability
import Chainlog.ReadRecords
import Chainlog.SignedArtefacts

/-!
# The HTTP API

The router and its handlers over the whole state of the server.  A handler
checks the token before it looks at anything but its extracted arguments; only
three of them can change the state.
-/

namespace Chainlog

/-! ## State and requests -/

/-- The provider that the log seals with and, in keyring mode, that the
handlers manage keys with. -/
inductive Keys where
  | master (provider : LocalKeyProvider)
  | keyring (held : Keyring)

namespace Keys

variable (cipher : CipherCrates)

def wrapDek (keys : Keys) (keyId : String) (dek : Bytes)
    (answers : WrapAnswers) : Keys × Result Bytes :=
  match keys with
  | .master provider =>
      let (next, wrapped) :=
        KeyProvider.wrapDek cipher provider keyId dek answers.nonce
      (.master next, wrapped)
  | .keyring held =>
      let (next, wrapped) := held.wrapDek cipher keyId dek answers
      (.keyring next, wrapped)

def unwrapDek (keys : Keys) (keyId : String) (wrapped : Bytes) : Result Bytes :=
  match keys with
  | .master provider => KeyProvider.unwrapDek cipher provider keyId wrapped
  | .keyring held => held.unwrapDek cipher keyId wrapped

end Keys

instance : KeyProvider Keys WrapAnswers where
  wrapDek := Keys.wrapDek
  unwrapDek := Keys.unwrapDek

/-- `AppState`. -/
structure ApiState (σ : Type) (signing : SigningCrates) extends AppState σ where
  keys : Keys
  signer : Option (CheckpointSigner signing)
  adminToken : String

inductive Method where
  | get
  | head
  | post
  | delete
  | other (name : String)
  deriving DecidableEq, Repr

structure ApiRequest extends HttpRequest where
  method : Method
  /-- The segments of the path, as sent. -/
  path : List String
  query : Option String

/-- axum's extractors: `Path` decodes a segment, `Query` reads the arguments of
a handler. -/
structure Extractors extends Axum where
  pathParam : String → Except ApiError String
  readQuery : Option String → Except ApiError ReadQuery
  proofQuery : Option String → Except ApiError UInt64

/-- What the environment answers while one request is handled. -/
structure ApiCall where
  now : Int64
  sealing : SealAnswers WrapAnswers
  io : IoOutcome
  mint : MintAnswers
  removal : Option String
  /-- What the data path names. -/
  disk : DataPath

inductive Answer where
  | health
  | receipt (receipt : Receipt)
  | head (seq : UInt64) (headHash : String)
  | records (answer : RecordsAnswer)
  | checkpoint (cp : Checkpoint)
  | merkleAnchor (anchor : MerkleAnchor)
  | merkleProof (answer : AppState.MerkleProofAnswer)
  | report (report : VerifyReport)
  | keyIds (ids : List String)
  | created (keyId : String) (created : Bool)
  | shredded (keyId : String) (shredded : Bool)

inductive Response where
  | answer (status : StatusCode) (body : Answer)
  | failure (err : ApiError)
  /-- The handler panicked: the connection is closed without a response. -/
  | dropped (panic : Panic)

namespace Response

/-- A status of the 200 class; an error answers with its own status. -/
def isSuccess : Response → Bool
  | answer status _ => status = .ok || status = .created
  | failure _ => false
  | dropped _ => false

def ofResult : Except ApiError (StatusCode × Answer) → Response
  | .ok (status, body) => answer status body
  | .error err => failure err

end Response

/-! ## Routing -/

/-- The handlers of `GET`. -/
inductive Getter where
  | health
  | readRecords
  | head
  | checkpoint
  | merkleAnchor
  | merkleProof
  | verify
  | listKeys
  deriving DecidableEq, Repr

inductive Endpoint where
  | get (getter : Getter)
  | append
  | createKey (segment : String)
  | shredKey (segment : String)
  deriving DecidableEq, Repr

def methodNotAllowed : ApiError where
  status := .methodNotAllowed
  message := ""

def noRoute : ApiError where
  status := .notFound
  message := ""

/-- `get(handler)`, which also answers `HEAD`. -/
def getting (getter : Getter) : Method → Except ApiError Endpoint
  | .get | .head => .ok (.get getter)
  | _ => .error methodNotAllowed

/-- The router of `main`; a path parameter is not empty. -/
def route (method : Method) : List String → Except ApiError Endpoint
  | ["health"] => getting .health method
  | ["v1", "records"] =>
      if method = .post then .ok .append else getting .readRecords method
  | ["v1", "head"] => getting .head method
  | ["v1", "checkpoint"] => getting .checkpoint method
  | ["v1", "merkle-anchor"] => getting .merkleAnchor method
  | ["v1", "merkle-proof"] => getting .merkleProof method
  | ["v1", "verify"] => getting .verify method
  | ["v1", "keys"] => getting .listKeys method
  | ["v1", "keys", segment] =>
      if segment = "" then .error noRoute
      else match method with
        | .post => .ok (.createKey segment)
        | .delete => .ok (.shredKey segment)
        | _ => .error methodNotAllowed
  | _ => .error noRoute

def ApiRequest.endpoint (request : ApiRequest) : Except ApiError Endpoint :=
  route request.method request.path

/-! ## Handlers -/

namespace ApiState

variable {σ : Type} {signing : SigningCrates} (crates : Crates)
  (cipher : CipherCrates) (axum : Extractors) (st : ApiState σ signing)

def call (env : ApiCall) : Call where
  now := env.now
  cryptoSeal := fun keyId pii => (cryptoSeal cipher st.keys keyId pii env.sealing).2
  io := env.io

/-- The keys after a record was sealed: the provider may have minted one. -/
def keysAfter (env : ApiCall) (record : Record) : Keys :=
  match record.pii with
  | some pii => (cryptoSeal cipher st.keys record.keyId pii env.sealing).1
  | none => st.keys

def appendRecord [Store σ] (request : ApiRequest) (env : ApiCall) :
    ApiState σ signing × Response :=
  let (app, answer) := st.append crates axum.toAxum request.toHttpRequest
    (st.call cipher env)
  let keys := match st.acceptRecord axum.toAxum request.toHttpRequest with
    | .ok record => st.keysAfter cipher env record
    | .error _ => st.keys
  ({ st with toAppState := app, keys },
    .ofResult (answer.map fun (status, receipt) => (status, Answer.receipt receipt)))

def requireSigner : Except ApiError (CheckpointSigner signing) :=
  match st.signer with
  | some signer => .ok signer
  | none => .error {
      status := .notImplemented
      message := "no signing key configured (set CHAINLOG_SIGN_KEY)" }

def checkpoint (headers : HeaderMap) (now : Int64) :
    Except ApiError Checkpoint := do
  require headers st.readToken
  let signer ← st.requireSigner
  return signer.sign st.log.head.1 st.log.head.2 now

def merkleAnchor (headers : HeaderMap) (path : DataPath) (now : Int64) :
    Except ApiError MerkleAnchor := do
  require headers st.readToken
  let signer ← st.requireSigner
  let entries ← readLog crates path st.segmented
  return buildMerkleAnchor crates signer entries now

def requireKeyring : Except ApiError Keyring :=
  match st.keys with
  | .keyring keyring => .ok keyring
  | .master _ => .error {
      status := .notImplemented
      message :=
        "key management requires keyring mode (set CHAINLOG_KEYRING_DIR)" }

/-- The keyring, for a request that bears the admin token. -/
def managedKeyring (headers : HeaderMap) : Except ApiError Keyring := do
  require headers st.adminToken
  st.requireKeyring

def createKey (headers : HeaderMap) (keyId : String) (mint : MintAnswers) :
    ApiState σ signing × Response :=
  match st.managedKeyring headers with
  | .error err => (st, .failure err)
  | .ok keyring =>
      let (next, created) := keyring.ensure cipher keyId mint
      ({ st with keys := .keyring next },
        .ofResult ((created.mapError ApiError.ofCore).map fun created =>
          (.created, .created keyId created)))

def shredKey (headers : HeaderMap) (keyId : String) (removal : Option String) :
    ApiState σ signing × Response :=
  match st.managedKeyring headers with
  | .error err => (st, .failure err)
  | .ok keyring =>
      let (next, shredded) := keyring.shred cipher keyId removal
      ({ st with keys := .keyring next },
        .ofResult ((shredded.mapError ApiError.ofCore).map fun shredded =>
          (.ok, .shredded keyId shredded)))

def listKeys (headers : HeaderMap) : Except ApiError (List String) := do
  let keyring ← st.managedKeyring headers
  return keyring.provider.list

/-- `GET /v1/records`, behind its extractor. -/
def records (request : ApiRequest) (env : ApiCall) : Response :=
  match axum.readQuery request.query with
  | .error err => .failure err
  | .ok query =>
      match st.readRecords cipher st.keys crates request.headers env.disk
          query with
      | .error panic => .dropped panic
      | .ok answer => .ofResult (answer.map fun answer => (.ok, .records answer))

/-- `GET /v1/merkle-proof`, behind its extractor. -/
def proof (request : ApiRequest) (env : ApiCall) :
    Except ApiError AppState.MerkleProofAnswer := do
  let seq ← axum.proofQuery request.query
  st.merkleProofHandler crates request.headers env.disk seq

def answerGet (request : ApiRequest) (env : ApiCall) : Getter → Response
  | .health => .answer .ok .health
  | .readRecords => st.records crates cipher axum request env
  | .head => .ofResult ((st.toAppState.head request.headers).map fun head =>
      (.ok, .head head.1 head.2))
  | .checkpoint => .ofResult ((st.checkpoint request.headers env.now).map
      fun cp => (.ok, .checkpoint cp))
  | .merkleAnchor => .ofResult ((st.merkleAnchor crates request.headers env.disk
      env.now).map fun anchor => (.ok, .merkleAnchor anchor))
  | .merkleProof => .ofResult ((st.proof crates axum request env).map
      fun answer => (.ok, .merkleProof answer))
  | .verify => .ofResult ((st.toAppState.verify crates request.headers
      env.disk).map fun (status, report) => (status, .report report))
  | .listKeys => .ofResult ((st.listKeys request.headers).map
      fun ids => (.ok, .keyIds ids))

def handle [Store σ] (request : ApiRequest) (env : ApiCall) :
    ApiState σ signing × Response :=
  match request.endpoint with
  | .error err => (st, .failure err)
  | .ok (.get getter) =>
      (st, st.answerGet crates cipher axum request env getter)
  | .ok .append => st.appendRecord crates cipher axum request env
  | .ok (.createKey segment) =>
      match axum.pathParam segment with
      | .error err => (st, .failure err)
      | .ok keyId => st.createKey cipher request.headers keyId env.mint
  | .ok (.shredKey segment) =>
      match axum.pathParam segment with
      | .error err => (st, .failure err)
      | .ok keyId => st.shredKey cipher request.headers keyId env.removal

end ApiState

end Chainlog
