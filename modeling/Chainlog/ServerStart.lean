import Chainlog.AppendOnly
import Chainlog.HeadCheckpoints

/-!
# Starting the server

`main` of the server, up to the state that its handlers share: the variables it
reads, the keys, the log and the signer.  A server that is stopped and started
again on what it left serves the log that it served before.
-/

namespace Chainlog

/-- What `main` reads. -/
structure ServerEnv where
  /-- `std::env::var`, if it is set. -/
  var : String → Option String
  /-- `std::fs::read_to_string`. -/
  readToString : String → Except String String
  disk : String → DataPath
  keyFiles : String → Dir
  opening : OpenAnswers
  /-- The error of binding the listener, if there is one. -/
  binding : Option String

namespace ServerEnv

variable (env : ServerEnv)

def varOr (name default : String) : String := (env.var name).getD default

def dataPath : String := env.varOr "CHAINLOG_DATA" "./chainlog.log"

/-- With a limit the data path is a segment directory. -/
def segmentMax : Mode :=
  (env.var "CHAINLOG_SEGMENT_MAX_ENTRIES").bind fun text =>
    (parseU64 text.toList).map UInt64.toNat

def loadKey (cipher : CipherCrates) : Except String LocalKeyProvider :=
  match env.var "CHAINLOG_KEY" with
  | some text => (LocalKeyProvider.fromBase64 cipher text).mapError Error.display
  | none =>
      match env.var "CHAINLOG_KEY_FILE" with
      | some path =>
          match env.readToString path with
          | .ok contents =>
              (LocalKeyProvider.fromBase64 cipher contents).mapError Error.display
          | .error reason => .error s!"reading {path}: {reason}"
      | none => .error "set CHAINLOG_KEY (base64) or CHAINLOG_KEY_FILE"

/-- A per-subject keyring or a single master key. -/
def keys (cipher : CipherCrates) : Except String Keys :=
  match env.var "CHAINLOG_KEYRING_DIR" with
  | some dir =>
      match KeyringProvider.openDir cipher dir true (env.keyFiles dir)
          env.opening with
      | .ok provider => .ok (.keyring { provider, files := env.keyFiles dir })
      | .error err => .error s!"opening keyring dir {dir}: {err.display}"
  | none =>
      match env.loadKey cipher with
      | .ok provider => .ok (.master provider)
      | .error reason => .error s!"key configuration error: {reason}"

def log (crates : Crates) : Except String (WriterState LogStore) := do
  let path := env.dataPath
  let store ← (LogStore.openPath crates env.segmentMax (env.disk path)).mapError
    fun err => match env.segmentMax with
      | some _ => s!"opening segment dir {path}: {err.display}"
      | none => s!"opening data file {path}: {err.display}"
  (Builder.build { store := some store, hasProvider := true }).mapError
    fun err => s!"building audit log: {err.display}"

def signer (seeds : SeedCrates) :
    Except String (Option (CheckpointSigner seeds.toSigningCrates)) :=
  match env.var "CHAINLOG_SIGN_KEY" with
  | some secret =>
      match CheckpointSigner.fromBase64 seeds secret with
      | .ok signer => .ok (some signer)
      | .error err => .error s!"invalid CHAINLOG_SIGN_KEY: {err.display}"
  | none => .ok none

end ServerEnv

/-- The state that a started server serves, or the error that it logs before
it exits with code 1. -/
def ApiState.start (crates : Crates) (cipher : CipherCrates) (seeds : SeedCrates)
    (env : ServerEnv) : Except String (ApiState LogStore seeds.toSigningCrates) := do
  let writeToken := env.varOr "CHAINLOG_WRITE_TOKEN" ""
  let readToken := env.varOr "CHAINLOG_READ_TOKEN" ""
  let keys ← env.keys cipher
  let adminToken := env.varOr "CHAINLOG_ADMIN_TOKEN" ""
  let log ← env.log crates
  let signer ← env.signer seeds
  let addr := env.varOr "CHAINLOG_ADDR" "127.0.0.1:8888"
  match env.binding with
  | some reason => .error s!"binding {addr}: {reason}"
  | none => return {
      log, segmented := env.segmentMax.isSome, writeToken, readToken, keys,
      signer, adminToken }

/-! ## The log of a started server -/

section Started

variable {crates : Crates} {cipher : CipherCrates} {seeds : SeedCrates}
  {env : ServerEnv}

theorem engine_of_log {writer : WriterState LogStore}
    (hlog : env.log crates = .ok writer) :
    Engine.start crates env.segmentMax (env.disk env.dataPath) = .ok {
        writer, replies := [], acked := [], stale := false } := by
  obtain ⟨store, hopen, hbuild⟩ := bind_eq_ok.mp hlog
  rw [mapError_eq_ok] at hopen hbuild
  simp only [Engine.start, hopen, hbuild, bind, Except.bind, pure, Except.pure]

theorem store_of_build {σ : Type} [Store σ] {store : σ} {writer : WriterState σ}
    (hbuild : Builder.build { store := some store, hasProvider := true } =
      .ok writer) : writer.store = store := by
  cases htail : Store.tail store with
  | error err =>
      simp [Builder.build, htail, bind, Except.bind] at hbuild
  | ok tail =>
      rw [build_eq htail] at hbuild
      obtain rfl := Except.ok.inj hbuild
      rfl

theorem isSegmented_of_log {writer : WriterState LogStore}
    (hlog : env.log crates = .ok writer) :
    writer.store.isSegmented = env.segmentMax.isSome := by
  obtain ⟨store, hopen, hbuild⟩ := bind_eq_ok.mp hlog
  rw [mapError_eq_ok] at hopen hbuild
  rw [store_of_build hbuild]
  exact LogStore.isSegmented_openPath crates hopen

theorem log_of_engine {e : Engine}
    (hengine : Engine.start crates env.segmentMax (env.disk env.dataPath) =
      .ok e) : env.log crates = .ok e.writer := by
  obtain ⟨store, hopen, hbuilt⟩ := bind_eq_ok.mp hengine
  obtain ⟨writer, hbuild, he⟩ := bind_eq_ok.mp hbuilt
  obtain rfl := Except.ok.inj he
  simp only [ServerEnv.log, hopen, hbuild, Except.mapError, bind, Except.bind]

/-- A server starts if its keys, its log and its signer are there and the
listener is bound. -/
theorem ApiState.start_ok {s : ApiState LogStore seeds.toSigningCrates} :
    ApiState.start crates cipher seeds env = .ok s ↔
      env.keys cipher = .ok s.keys ∧ env.log crates = .ok s.log ∧
        env.signer seeds = .ok s.signer ∧ env.binding = none ∧
        s.segmented = env.segmentMax.isSome ∧
        s.writeToken = env.varOr "CHAINLOG_WRITE_TOKEN" "" ∧
        s.readToken = env.varOr "CHAINLOG_READ_TOKEN" "" ∧
        s.adminToken = env.varOr "CHAINLOG_ADMIN_TOKEN" "" := by
  constructor
  · intro hstart
    obtain ⟨keys, hkeys, hstart⟩ := bind_eq_ok.mp hstart
    obtain ⟨log, hlog, hstart⟩ := bind_eq_ok.mp hstart
    obtain ⟨signer, hsigner, hstart⟩ := bind_eq_ok.mp hstart
    cases hbinding : env.binding with
    | some reason =>
        rw [hbinding] at hstart
        cases hstart
    | none =>
        rw [hbinding] at hstart
        obtain rfl := Except.ok.inj hstart
        exact ⟨hkeys, hlog, hsigner, rfl, rfl, rfl, rfl, rfl⟩
  · rintro ⟨hkeys, hlog, hsigner, hbinding, hsegmented, hwrite, hread, hadmin⟩
    simp only [ApiState.start, hkeys, hlog, hsigner, hbinding, bind, Except.bind,
      pure, Except.pure, ← hsegmented, ← hwrite, ← hread, ← hadmin]

end Started

/-! ## Serving -/

/-- A server over a log that holds the entries, laid out as it is told. -/
structure ApiState.Serves {signing : SigningCrates} (crates : Crates)
    (s : ApiState LogStore signing) (entries : List AuditEntry) : Prop where
  holds : s.engine.Holds crates entries
  layout : s.segmented = s.log.store.isSegmented

/-- No operation on the files of the log fails while the request is handled,
there is room for one entry more, and an entry that is appended is read back. -/
structure ApiState.Calm {signing : SigningCrates} (crates : Crates)
    (cipher : CipherCrates) (axum : Extractors) (s : ApiState LogStore signing)
    (request : ApiRequest) (env : ApiCall) : Prop where
  io : env.io = .ok
  room : (LogStore.entries crates s.log.store).length + 1 < 2 ^ 64
  parses : ∀ record entry, request.endpoint = .ok .append →
    s.acceptRecord axum.toAxum request.toHttpRequest = .ok record →
      s.log.nextEntry crates (s.call cipher env) record = .ok entry →
        ParsesBack crates entry

section Serving

variable {crates : Crates} {cipher : CipherCrates} {axum : Extractors}
  {signing : SigningCrates} {s : ApiState LogStore signing}
  {entries : List AuditEntry}

theorem entries_of_holds (h : s.engine.Holds crates entries) :
    LogStore.entries crates s.log.store = entries := by
  unfold LogStore.entries
  rw [show readStored crates s.log.store.isSegmented s.log.store.disk =
    .ok entries from h.read]
  rfl

/-- A calm append adds and answers the entry that the writer builds. -/
theorem ApiState.Serves.process (h : s.Serves crates entries) {call : Call}
    {record : Record} (hcalm : call.io = .ok)
    (hroom : entries.length + 1 < 2 ^ 64)
    (hparses : ∀ entry, s.log.nextEntry crates call record = .ok entry →
      ParsesBack crates entry) (keys : Keys) :
    (s.log.process crates call record).2 =
        (s.log.nextEntry crates call record).map AuditEntry.receipt ∧
      ({ s with log := (s.log.process crates call record).1, keys } :
        ApiState LogStore signing).Serves crates
          (entries ++ (s.log.nextEntry crates call record).toOption.toList) := by
  have hkind := s.log.isSegmented_process crates call record
  cases hnext : s.log.nextEntry crates call record with
  | error err =>
      have hsame : s.log.process crates call record = (s.log, .error err) := by
        rcases s.log.process_cases crates call record with
          ⟨other, hother, hprocess⟩ | ⟨e, _, _, hother, _⟩ | ⟨e, _, hother, _⟩
        · obtain rfl := Except.error.inj (hnext.symm.trans hother)
          exact hprocess
        · cases hnext.symm.trans hother
        · cases hnext.symm.trans hother
      rw [hsame]
      refine ⟨rfl, ?_, h.layout⟩
      rw [Except.toOption, Option.toList_none, List.append_nil]
      exact h.holds
  | ok entry =>
      obtain ⟨hholds, _, hreplies⟩ := h.holds.record_ok hnext hcalm hroom
        (hparses entry hnext)
      refine ⟨?_, ?_, h.layout.trans hkind.symm⟩
      · exact List.head_eq_of_cons_eq (show
          [(s.log.process crates call record).2] = [.ok entry.receipt] from
            hreplies)
      · exact @Engine.Holds.forget crates (s.engine.record crates record call)
          _ hholds

/-- A calm request adds what it appends. -/
theorem ApiState.Serves.handle (h : s.Serves crates entries)
    {request : ApiRequest} {env : ApiCall}
    (hcalm : s.Calm crates cipher axum request env) :
    ∃ new, (s.handle crates cipher axum request env).1.Serves crates
      (entries ++ new) := by
  have hroom := hcalm.room
  rw [entries_of_holds h.holds] at hroom
  have hsame : s.Serves crates (entries ++ []) := by rwa [List.append_nil]
  have hhandled := s.handled crates cipher axum request env
  generalize s.handle crates cipher axum request env = outcome at hhandled
  cases hhandled with
  | refused err => exact ⟨[], hsame⟩
  | read getter hroute => exact ⟨[], hsame⟩
  | created segment keyId held hroute hheld =>
      exact ⟨[], hsame.holds, hsame.layout⟩
  | shredded segment keyId held hroute hparam hheld =>
      exact ⟨[], hsame.holds, hsame.layout⟩
  | appended record hroute haccept =>
      obtain ⟨_, hserves⟩ := h.process hcalm.io hroom
        (fun entry => hcalm.parses record entry hroute haccept)
        (s.keysAfter cipher env record)
      exact ⟨_, hserves⟩

theorem ApiState.Serves.restarted {seeds : SeedCrates}
    {s t : ApiState LogStore seeds.toSigningCrates} (h : s.Serves crates entries)
    {env : ServerEnv} (hdisk : env.disk env.dataPath = s.log.store.disk)
    (hadmits : s.log.store.Admits env.segmentMax)
    (hstart : ApiState.start crates cipher seeds env = .ok t) :
    t.Serves crates entries := by
  obtain ⟨_, hlog, _, _, hsegmented, _⟩ := ApiState.start_ok.mp hstart
  have hengine := engine_of_log hlog
  rw [hdisk] at hengine
  obtain ⟨opened, hopened, hholds, _⟩ := h.holds.restart hadmits
  rw [show s.engine.writer.store.disk = s.log.store.disk from rfl, hengine]
    at hopened
  obtain rfl := Except.ok.inj hopened
  exact ⟨hholds, hsegmented.trans (isSegmented_of_log hlog).symm⟩

end Serving

/-! ## Many lives of one log -/

/-- Requests are served without faults of the log, and the server may be
stopped and started on the log that it left. -/
inductive ServerLife (crates : Crates) (cipher : CipherCrates)
    (axum : Extractors) {seeds : SeedCrates}
    (s : ApiState LogStore seeds.toSigningCrates) :
    ApiState LogStore seeds.toSigningCrates → Prop
  | start : ServerLife crates cipher axum s s
  | served {t : ApiState LogStore seeds.toSigningCrates}
      (past : ServerLife crates cipher axum s t) (request : ApiRequest)
      (env : ApiCall) (calm : t.Calm crates cipher axum request env) :
      ServerLife crates cipher axum s
        (t.handle crates cipher axum request env).1
  | restarted {t u : ApiState LogStore seeds.toSigningCrates} {env : ServerEnv}
      (past : ServerLife crates cipher axum s t)
      (disk : env.disk env.dataPath = t.log.store.disk)
      (admits : t.log.store.Admits env.segmentMax)
      (started : ApiState.start crates cipher seeds env = .ok u) :
      ServerLife crates cipher axum s u

/-- In all its lives the log keeps what it held. -/
theorem ServerLife.grows {crates : Crates} {cipher : CipherCrates}
    {axum : Extractors} {seeds : SeedCrates}
    {s t : ApiState LogStore seeds.toSigningCrates}
    (hlife : ServerLife crates cipher axum s t) {entries : List AuditEntry}
    (h : s.Serves crates entries) :
    ∃ new, t.Serves crates (entries ++ new) := by
  induction hlife with
  | start => exact ⟨[], by rwa [List.append_nil]⟩
  | served _ request env calm ih =>
      obtain ⟨new, hnew⟩ := ih
      obtain ⟨more, hmore⟩ := hnew.handle calm
      refine ⟨new ++ more, ?_⟩
      rwa [List.append_assoc] at hmore
  | restarted _ disk admits started ih =>
      obtain ⟨new, hnew⟩ := ih
      exact ⟨new, hnew.restarted disk admits started⟩

end Chainlog
