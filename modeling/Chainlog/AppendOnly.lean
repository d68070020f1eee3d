import Chainlog.Api
import Chainlog.Nesting

/-!
# The API only appends

What one request can do to the server, and from it what any sequence of
requests can do: entries are added, each for a request that bears the write
token, and keys are taken away by a request that bears the admin token.
-/

namespace Chainlog

/-- The request bears a token, and the token is not empty. -/
def Bears (headers : HeaderMap) (token : String) : Prop :=
  token ≠ "" ∧ headers.authorization = some (asBytes ("Bearer " ++ token))

theorem bearer_eq_some {headers : HeaderMap} {token : String}
    (h : bearer headers = some token) :
    headers.authorization = some (asBytes ("Bearer " ++ token)) := by
  unfold bearer at h
  cases hvalue : headers.authorization with
  | none => simp [hvalue] at h
  | some value =>
      simp only [hvalue, bind, Option.bind] at h
      cases htext : headerText value with
      | none => simp [htext] at h
      | some text =>
          simp only [htext] at h
          obtain ⟨rest, hrest, rfl⟩ := Option.map_eq_some_iff.mp h
          have hutf8 : fromUtf8 value = some text := by
            unfold headerText at htext
            split_ifs at htext
            exact htext
          rw [fromUtf8_eq_some.mp hutf8]
          have hsplit : text.toList = bearerPrefix ++ rest :=
            stripPrefix_eq_some hrest
          have happend : text = "Bearer " ++ String.ofList rest := by
            apply String.toList_inj.mp
            rw [hsplit, String.toList_append, @String.toList_ofList rest]
            rfl
          rw [happend]

theorem bears_of_require {headers : HeaderMap} {token : String}
    (h : require headers token = .ok ()) : Bears headers token := by
  unfold require at h
  cases hbearer : bearer headers with
  | none => simp [hbearer] at h
  | some borne =>
      simp only [hbearer] at h
      by_cases hmatch : token ≠ "" ∧ borne = token
      · obtain ⟨hne, rfl⟩ := hmatch
        exact ⟨hne, bearer_eq_some hbearer⟩
      · simp [hmatch] at h

theorem require_empty (headers : HeaderMap) :
    ∃ err, require headers "" = .error err := by
  cases h : require headers "" with
  | error err => exact ⟨err, rfl⟩
  | ok done => exact absurd rfl (bears_of_require h).1

/-! ## One request -/

/-- The key of a key id that the keyring holds. -/
def Keys.cached : Keys → String → Option Key
  | .master _, _ => none
  | .keyring held, keyId => held.provider.cache.lookup keyId

def Keys.HasFile : Keys → String → Prop
  | .master _, _ => False
  | .keyring held, keyId =>
      (held.files.find (keyFileName keyId)).isSome = true

/-- The key of the id is still there: in the keyring and on disk. -/
structure Keys.Keeps (before after : Keys) (keyId : String) : Prop where
  cached : ∀ key, before.cached keyId = some key →
    after.cached keyId = some key
  file : before.HasFile keyId → after.HasFile keyId

theorem Keys.Keeps.refl (keys : Keys) (keyId : String) :
    keys.Keeps keys keyId := ⟨fun _ h => h, fun h => h⟩

theorem Keys.Keeps.trans {a b c : Keys} {keyId : String}
    (hab : a.Keeps b keyId) (hbc : b.Keeps c keyId) : a.Keeps c keyId where
  cached key h := hbc.cached key (hab.cached key h)
  file h := hbc.file (hab.file h)

theorem Keyring.keeps_ensure (cipher : CipherCrates) (held : Keyring)
    (keyId other : String) (mint : MintAnswers) :
    Keys.Keeps (.keyring held) (.keyring (held.ensure cipher keyId mint).1)
      other := by
  have hfile (content : Bytes) (h : (held.files.find
      (keyFileName other)).isSome = true) :
      ((held.files.put (keyFileName keyId) content).find
        (keyFileName other)).isSome = true := by
    rw [Dir.find_put]
    split_ifs
    · rfl
    · exact h
  rcases @Keyring.ensure_cases cipher held keyId mint with
    ⟨result, heq, _⟩ | ⟨key, _, _, habsent, heq | ⟨n, reason, _, heq⟩⟩
  · rw [heq]
    exact Keys.Keeps.refl _ other
  · rw [heq]
    refine ⟨fun old hold => ?_, hfile _⟩
    have hne : other ≠ keyId := by
      rintro rfl
      rw [Keys.cached, habsent] at hold
      cases hold
    exact (AList.lookup_insert_ne hne).trans hold
  · rw [heq]
    exact ⟨fun old hold => hold, hfile _⟩

theorem Keyring.keeps_shred (cipher : CipherCrates) (held : Keyring)
    {keyId other : String} (hne : other ≠ keyId) (removal : Option String) :
    Keys.Keeps (.keyring held) (.keyring (held.shred cipher keyId removal).1)
      other := by
  have hname : keyFileName other ≠ keyFileName keyId := fun h =>
    hne (keyFileName_injective h)
  have hcache (key : Key) (h : held.provider.cache.lookup other = some key) :
      (held.provider.cache.erase keyId).lookup other = some key :=
    (AList.lookup_erase_ne hne).trans h
  rcases @Keyring.shred_cases cipher held keyId removal with
    ⟨err, _, heq⟩ | ⟨reason, _, heq⟩ | ⟨present, heq, _⟩
  · rw [heq]
    exact Keys.Keeps.refl _ other
  · rw [heq]
    exact ⟨hcache, fun h => h⟩
  · rw [heq]
    refine ⟨hcache, fun h => ?_⟩
    show ((held.files.remove (keyFileName keyId)).find
      (keyFileName other)).isSome = true
    rw [Dir.find_remove, if_neg hname]
    exact h

theorem Keys.keeps_cryptoSeal (cipher : CipherCrates) (keys : Keys)
    (keyId other : String) (pii : Value) (answers : SealAnswers WrapAnswers) :
    keys.Keeps (cryptoSeal cipher keys keyId pii answers).1 other := by
  unfold cryptoSeal
  cases encryptPii cipher pii answers.dek answers.nonce with
  | error err => exact Keys.Keeps.refl _ other
  | ok parts =>
      obtain ⟨dek, nonce, ciphertext⟩ := parts
      have hwrap : keys.Keeps
          (keys.wrapDek cipher keyId dek.val answers.wrap).1 other := by
        cases keys with
        | master provider => exact Keys.Keeps.refl _ other
        | keyring held =>
            have hfst := @Keyring.wrapDek_fst cipher held keyId dek.val
              answers.wrap
            show Keys.Keeps _ (.keyring
              (held.wrapDek cipher keyId dek.val answers.wrap).1) other
            rw [hfst]
            split_ifs
            · exact held.keeps_ensure cipher keyId other answers.wrap.mint
            · exact Keys.Keeps.refl _ other
      simp only [show KeyProvider.wrapDek cipher keys keyId dek.val
        answers.wrap = keys.wrapDek cipher keyId dek.val answers.wrap from rfl]
      rcases houtcome : keys.wrapDek cipher keyId dek.val answers.wrap with
        ⟨next, _ | _⟩
      · rw [houtcome] at hwrap
        exact hwrap
      · rw [houtcome] at hwrap
        exact hwrap

namespace ApiState

variable {σ : Type} [Store σ] {signing : SigningCrates} (crates : Crates)
  (cipher : CipherCrates) (axum : Extractors)

inductive Handled (st : ApiState σ signing) (request : ApiRequest)
    (env : ApiCall) : ApiState σ signing × Response → Prop
  | refused (err : ApiError) : Handled st request env (st, .failure err)
  | read (getter : Getter) (hroute : request.endpoint = .ok (.get getter)) :
      Handled st request env
        (st, st.answerGet crates cipher axum request env getter)
  | appended (record : Record) (hroute : request.endpoint = .ok .append)
      (haccept : st.acceptRecord axum.toAxum request.toHttpRequest =
        .ok record) :
      Handled st request env
        ({ st with
            log := (st.log.process crates (st.call cipher env) record).1
            keys := st.keysAfter cipher env record },
          .ofResult (((st.log.process crates (st.call cipher env)
            record).2.mapError ApiError.ofCore).map
              fun receipt => (.created, .receipt receipt)))
  | created (segment keyId : String) (held : Keyring)
      (hroute : request.endpoint = .ok (.createKey segment))
      (hheld : st.managedKeyring request.headers = .ok held) :
      Handled st request env
        ({ st with keys := .keyring (held.ensure cipher keyId env.mint).1 },
          .ofResult (((held.ensure cipher keyId env.mint).2.mapError
            ApiError.ofCore).map fun created =>
              (.created, .created keyId created)))
  | shredded (segment keyId : String) (held : Keyring)
      (hroute : request.endpoint = .ok (.shredKey segment))
      (hparam : axum.pathParam segment = .ok keyId)
      (hheld : st.managedKeyring request.headers = .ok held) :
      Handled st request env
        ({ st with keys := .keyring (held.shred cipher keyId env.removal).1 },
          .ofResult (((held.shred cipher keyId env.removal).2.mapError
            ApiError.ofCore).map fun shredded =>
              (.ok, .shredded keyId shredded)))

theorem handled (st : ApiState σ signing) (request : ApiRequest)
    (env : ApiCall) :
    st.Handled crates cipher axum request env
      (st.handle crates cipher axum request env) := by
  unfold handle
  cases hroute : request.endpoint with
  | error err => exact .refused err
  | ok endpoint =>
      cases endpoint with
      | get getter => exact .read getter hroute
      | append =>
          dsimp only
          cases haccept : st.acceptRecord axum.toAxum request.toHttpRequest with
          | error err =>
              simp only [appendRecord, AppState.append, haccept]
              exact .refused err
          | ok record =>
              have hcase := @Handled.appended σ _ signing crates cipher axum st
                request env record hroute haccept
              have happend := AppState.append_of_accepted crates haccept
                (st.call cipher env)
              simp only [appendRecord, happend, haccept]
              cases hreply : (st.log.process crates (st.call cipher env)
                  record).2 with
              | error err =>
                  rw [hreply] at hcase
                  exact hcase
              | ok receipt =>
                  rw [hreply] at hcase
                  exact hcase
      | createKey segment =>
          dsimp only
          cases hparam : axum.pathParam segment with
          | error err => exact .refused err
          | ok keyId =>
              simp only [createKey]
              cases hheld : st.managedKeyring request.headers with
              | error err => exact .refused err
              | ok held => exact .created segment keyId held hroute hheld
      | shredKey segment =>
          dsimp only
          cases hparam : axum.pathParam segment with
          | error err => exact .refused err
          | ok keyId =>
              simp only [shredKey]
              cases hheld : st.managedKeyring request.headers with
              | error err => exact .refused err
              | ok held => exact .shredded segment keyId held hroute hparam hheld

omit [Store σ] in
/-- Without tokens nothing is read but the health of the server. -/
theorem answerGet_tokenless {st : ApiState σ signing} (hread : st.readToken = "")
    (hadmin : st.adminToken = "") {getter : Getter} (hgetter : getter ≠ .health)
    (request : ApiRequest) (env : ApiCall) :
    ∃ err, st.answerGet crates cipher axum request env getter =
      .failure err := by
  obtain ⟨err, hdenied⟩ := require_empty request.headers
  cases getter with
  | health => exact absurd rfl hgetter
  | readRecords =>
      unfold answerGet records
      cases hquery : axum.readQuery request.query with
      | error rejected => exact ⟨rejected, rfl⟩
      | ok query =>
          refine ⟨err, ?_⟩
          simp only [AppState.readRecords, hread, hdenied, Except.map,
            Response.ofResult]
  | head =>
      refine ⟨err, ?_⟩
      simp only [answerGet, AppState.head, hread, hdenied, bind, Except.bind,
        Except.map, Response.ofResult]
  | checkpoint =>
      refine ⟨err, ?_⟩
      simp only [answerGet, checkpoint, hread, hdenied, bind, Except.bind,
        Except.map, Response.ofResult]
  | merkleAnchor =>
      refine ⟨err, ?_⟩
      simp only [answerGet, merkleAnchor, hread, hdenied, bind, Except.bind,
        Except.map, Response.ofResult]
  | merkleProof =>
      simp only [answerGet, proof]
      cases hquery : axum.proofQuery request.query with
      | error rejected => exact ⟨rejected, rfl⟩
      | ok seq =>
          refine ⟨err, ?_⟩
          simp only [AppState.merkleProofHandler, hread, hdenied, bind,
            Except.bind, Except.map, Response.ofResult]
  | verify =>
      refine ⟨err, ?_⟩
      simp only [answerGet, AppState.verify, hread, hdenied, bind, Except.bind,
        Except.map, Response.ofResult]
  | listKeys =>
      refine ⟨err, ?_⟩
      simp only [answerGet, listKeys, managedKeyring, hadmin, hdenied, bind,
        Except.bind, Except.map, Response.ofResult]

omit [Store σ] in
theorem bears_of_acceptRecord {st : ApiState σ signing} {request : ApiRequest}
    {record : Record}
    (h : st.acceptRecord axum.toAxum request.toHttpRequest = .ok record) :
    Bears request.headers st.writeToken := by
  unfold AppState.acceptRecord at h
  obtain ⟨doc, _, h⟩ := bind_eq_ok.mp h
  obtain ⟨req, _, h⟩ := bind_eq_ok.mp h
  obtain ⟨done, hrequire, _⟩ := bind_eq_ok.mp h
  exact bears_of_require hrequire

omit [Store σ] in
theorem bears_of_managedKeyring {st : ApiState σ signing} {headers : HeaderMap}
    {held : Keyring} (h : st.managedKeyring headers = .ok held) :
    Bears headers st.adminToken ∧ st.keys = .keyring held := by
  unfold managedKeyring at h
  obtain ⟨done, hrequire, h⟩ := bind_eq_ok.mp h
  refine ⟨bears_of_require hrequire, ?_⟩
  unfold requireKeyring at h
  cases hkeys : st.keys with
  | master provider => simp [hkeys] at h
  | keyring other =>
      simp only [hkeys, Except.ok.injEq] at h
      rw [h]

end ApiState

/-! ## Any sequence of requests -/

structure Served where
  request : ApiRequest
  response : Response

namespace Served

/-- The request is a `POST /v1/records` that is answered 201. -/
def isRecorded (served : Served) : Bool :=
  match served.request.endpoint, served.response with
  | .ok .append, .answer .created _ => true
  | _, _ => false

/-- The request is a `DELETE /v1/keys/:key_id` for the key id. -/
def Deletes (axum : Extractors) (keyId : String) (served : Served) : Prop :=
  ∃ segment, served.request.endpoint = .ok (.shredKey segment) ∧
    axum.pathParam segment = .ok keyId

end Served

section Requests

variable {σ : Type} [Store σ] {signing : SigningCrates} (crates : Crates)
  (cipher : CipherCrates) (axum : Extractors) (view : σ → List AuditEntry)

/-- Requests are handled one after the other; the append that a request leads
to adds its entry or fails without effect. -/
inductive Serving (s : ApiState σ signing) :
    List Served → ApiState σ signing → Prop
  | start : Serving s [] s
  | request {trace : List Served} {t : ApiState σ signing}
      (past : Serving s trace t) (request : ApiRequest) (env : ApiCall)
      (atomic : ∀ record entry, request.endpoint = .ok .append →
        t.acceptRecord axum.toAxum request.toHttpRequest = .ok record →
        t.log.nextEntry crates (t.call cipher env) record = .ok entry →
          AppendsOrFails crates view t.log.store entry env.io) :
      Serving s
        (trace ++ [⟨request, (t.handle crates cipher axum request env).2⟩])
        (t.handle crates cipher axum request env).1

/-- What the clients of the API can and cannot do. -/
structure AppendsOnly (s : ApiState σ signing) (trace : List Served)
    (t : ApiState σ signing) : Prop where
  /-- The log grows by one entry for each request answered 201, in order. -/
  recorded : ∃ new, view t.log.store = view s.log.store ++ new ∧
    List.Forall₂ (fun entry served =>
      served.response = .answer .created (.receipt entry.receipt))
      new (trace.filter Served.isRecorded)
  writers : ∀ served ∈ trace, served.isRecorded = true →
    Bears served.request.headers s.writeToken
  /-- A key leaves by a request that bears the admin token. -/
  keys : ∀ keyId, s.keys.Keeps t.keys keyId ∨
    ∃ served ∈ trace, served.Deletes axum keyId ∧
      Bears served.request.headers s.adminToken
  tokens : t.writeToken = s.writeToken ∧ t.readToken = s.readToken ∧
    t.adminToken = s.adminToken
  tokenless : s.writeToken = "" → s.readToken = "" → s.adminToken = "" →
    t = s ∧ ∀ served ∈ trace,
      served.request.endpoint ≠ .ok (.get .health) →
        served.response.isSuccess = false

variable {crates cipher axum view}

omit [Store σ] in
theorem AppendsOnly.start (s : ApiState σ signing) :
    AppendsOnly axum view s [] s where
  recorded := ⟨[], by simp, by simp⟩
  writers := by simp
  keys keyId := Or.inl (Keys.Keeps.refl _ keyId)
  tokens := ⟨rfl, rfl, rfl⟩
  tokenless := by simp

omit [Store σ] in
theorem AppendsOnly.trans {s t u : ApiState σ signing}
    {left right : List Served} (hleft : AppendsOnly axum view s left t)
    (hright : AppendsOnly axum view t right u) :
    AppendsOnly axum view s (left ++ right) u := by
  obtain ⟨hwrite, hread, hadmin⟩ := hleft.tokens
  constructor
  · obtain ⟨new, hview, hreceipts⟩ := hleft.recorded
    obtain ⟨new', hview', hreceipts'⟩ := hright.recorded
    refine ⟨new ++ new', ?_, ?_⟩
    · rw [hview', hview, List.append_assoc]
    · rw [List.filter_append]
      exact List.rel_append hreceipts hreceipts'
  · intro served hserved hrecorded
    rcases List.mem_append.mp hserved with h | h
    · exact hleft.writers served h hrecorded
    · rw [← hwrite]
      exact hright.writers served h hrecorded
  · intro keyId
    rcases hleft.keys keyId with hkeep | ⟨served, hserved, hdeletes, hbears⟩
    · rcases hright.keys keyId with
        hkeep' | ⟨served, hserved, hdeletes, hbears⟩
      · exact Or.inl (hkeep.trans hkeep')
      · exact Or.inr ⟨served, List.mem_append_right _ hserved, hdeletes,
          hadmin ▸ hbears⟩
    · exact Or.inr ⟨served, List.mem_append_left _ hserved, hdeletes, hbears⟩
  · obtain ⟨hwrite', hread', hadmin'⟩ := hright.tokens
    exact ⟨hwrite'.trans hwrite, hread'.trans hread, hadmin'.trans hadmin⟩
  · intro hnowrite hnoread hnoadmin
    obtain ⟨rfl, hfail⟩ := hleft.tokenless hnowrite hnoread hnoadmin
    obtain ⟨rfl, hfail'⟩ := hright.tokenless hnowrite hnoread hnoadmin
    refine ⟨rfl, fun served hserved => ?_⟩
    rcases List.mem_append.mp hserved with h | h
    · exact hfail served h
    · exact hfail' served h

omit [Store σ] in
theorem AppendsOnly.unchanged {s : ApiState σ signing} {request : ApiRequest}
    {response : Response}
    (hrecorded : Served.isRecorded ⟨request, response⟩ = false)
    (hfail : s.readToken = "" → s.adminToken = "" →
      request.endpoint ≠ .ok (.get .health) → response.isSuccess = false) :
    AppendsOnly axum view s [⟨request, response⟩] s where
  recorded := ⟨[], by simp, by simp [hrecorded]⟩
  writers served hserved h := by
    obtain rfl := List.mem_singleton.mp hserved
    rw [hrecorded] at h
    cases h
  keys keyId := Or.inl (Keys.Keeps.refl _ keyId)
  tokens := ⟨rfl, rfl, rfl⟩
  tokenless _ hread hadmin := by
    refine ⟨rfl, fun served hserved => ?_⟩
    obtain rfl := List.mem_singleton.mp hserved
    exact hfail hread hadmin

omit [Store σ] in
/-- A request of the key management, whose keyring is changed. -/
theorem AppendsOnly.managed {s : ApiState σ signing} {request : ApiRequest}
    {response : Response} {held : Keyring}
    (hheld : s.managedKeyring request.headers = .ok held) {next : Keys}
    (hroute : request.endpoint ≠ .ok .append)
    (hkeys : ∀ keyId, s.keys.Keeps next keyId ∨
      Served.Deletes axum keyId ⟨request, response⟩) :
    AppendsOnly axum view s [⟨request, response⟩] { s with keys := next } := by
  obtain ⟨hbears, _⟩ := s.bears_of_managedKeyring hheld
  have hrecorded : Served.isRecorded ⟨request, response⟩ = false := by
    unfold Served.isRecorded
    split
    · exact absurd ‹_› hroute
    · rfl
  constructor
  · exact ⟨[], by simp, by simp [hrecorded]⟩
  · intro served hserved h
    obtain rfl := List.mem_singleton.mp hserved
    rw [hrecorded] at h
    cases h
  · intro keyId
    rcases hkeys keyId with hkeep | hdeletes
    · exact Or.inl hkeep
    · exact Or.inr ⟨_, List.mem_singleton_self _, hdeletes, hbears⟩
  · exact ⟨rfl, rfl, rfl⟩
  · intro _ _ hadmin
    exact absurd hadmin hbears.1

/-- A record that the server takes. -/
theorem AppendsOnly.appended {s : ApiState σ signing} {request : ApiRequest}
    {env : ApiCall} {record : Record}
    (hroute : request.endpoint = .ok .append)
    (haccept : s.acceptRecord axum.toAxum request.toHttpRequest = .ok record)
    (atomic : ∀ entry,
      s.log.nextEntry crates (s.call cipher env) record = .ok entry →
        AppendsOrFails crates view s.log.store entry env.io) :
    let outcome := s.log.process crates (s.call cipher env) record
    AppendsOnly axum view s
      [⟨request, .ofResult ((outcome.2.mapError ApiError.ofCore).map
        fun receipt => (.created, .receipt receipt))⟩]
      { s with log := outcome.1, keys := s.keysAfter cipher env record } := by
  intro outcome
  have houtcome : outcome = s.log.process crates (s.call cipher env) record :=
    rfl
  have hbears := s.bears_of_acceptRecord axum haccept
  have hkeys (keyId : String) : s.keys.Keeps
      (s.keysAfter cipher env record) keyId := by
    unfold ApiState.keysAfter
    cases record.pii with
    | none => exact Keys.Keeps.refl _ keyId
    | some pii => exact Keys.keeps_cryptoSeal cipher _ _ _ _ _
  constructor
  · rcases s.log.process_cases crates (s.call cipher env) record with
      ⟨err, hnext, hprocess⟩ | ⟨entry, store, err, hnext, happend, hprocess⟩ |
        ⟨entry, store, hnext, happend, hprocess⟩
    · rw [houtcome, hprocess]
      exact ⟨[], by simp, by
        simp [Served.isRecorded, hroute, Except.mapError, Except.map,
          Response.ofResult]⟩
    · have hatomic := atomic entry hnext
      have hview : view store = view s.log.store := by
        rwa [AppendsOrFails, show Store.append crates s.log.store entry
          env.io = (store, .error err) from happend] at hatomic
      rw [houtcome, hprocess]
      exact ⟨[], by simpa using hview, by
        simp [Served.isRecorded, hroute, Except.mapError, Except.map,
          Response.ofResult]⟩
    · have hatomic := atomic entry hnext
      have hview : view store = view s.log.store ++ [entry] := by
        rwa [AppendsOrFails, show Store.append crates s.log.store entry
          env.io = (store, .ok ()) from happend] at hatomic
      rw [houtcome, hprocess]
      exact ⟨[entry], hview, by
        simp [Served.isRecorded, hroute, Except.mapError, Except.map,
          Response.ofResult]⟩
  · intro served hserved _
    obtain rfl := List.mem_singleton.mp hserved
    exact hbears
  · exact fun keyId => Or.inl (hkeys keyId)
  · exact ⟨rfl, rfl, rfl⟩
  · intro hwrite
    exact absurd hwrite hbears.1

theorem appendsOnly_handle {s : ApiState σ signing} (request : ApiRequest)
    (env : ApiCall)
    (atomic : ∀ record entry, request.endpoint = .ok .append →
      s.acceptRecord axum.toAxum request.toHttpRequest = .ok record →
      s.log.nextEntry crates (s.call cipher env) record = .ok entry →
        AppendsOrFails crates view s.log.store entry env.io) :
    AppendsOnly axum view s
      [⟨request, (s.handle crates cipher axum request env).2⟩]
      (s.handle crates cipher axum request env).1 := by
  have hhandled := s.handled crates cipher axum request env
  generalize s.handle crates cipher axum request env = outcome at hhandled
  cases hhandled with
  | refused err =>
      refine AppendsOnly.unchanged ?_ fun _ _ _ => rfl
      unfold Served.isRecorded
      split
      · cases ‹Response.failure err = _›
      · rfl
  | read getter hroute =>
      refine AppendsOnly.unchanged ?_ fun hread hadmin hhealth => ?_
      · simp [Served.isRecorded, hroute]
      · have hgetter : getter ≠ .health := by
          rintro rfl
          exact hhealth hroute
        obtain ⟨err, herr⟩ := s.answerGet_tokenless crates cipher axum hread
          hadmin hgetter request env
        rw [herr]
        rfl
  | appended record hroute haccept =>
      exact AppendsOnly.appended hroute haccept fun entry hnext =>
        atomic record entry hroute haccept hnext
  | created segment keyId held hroute hheld =>
      obtain ⟨_, hkeys⟩ := s.bears_of_managedKeyring hheld
      refine AppendsOnly.managed hheld (by simp [hroute]) fun other => ?_
      rw [hkeys]
      exact Or.inl (held.keeps_ensure cipher keyId other env.mint)
  | shredded segment keyId held hroute hparam hheld =>
      obtain ⟨_, hkeys⟩ := s.bears_of_managedKeyring hheld
      refine AppendsOnly.managed hheld (by simp [hroute]) fun other => ?_
      by_cases hother : other = keyId
      · subst hother
        exact Or.inr ⟨segment, hroute, hparam⟩
      · rw [hkeys]
        exact Or.inl (held.keeps_shred cipher hother env.removal)

theorem Serving.appendsOnly {s t : ApiState σ signing} {trace : List Served}
    (hserving : Serving crates cipher axum view s trace t) :
    AppendsOnly axum view s trace t := by
  induction hserving with
  | start => exact AppendsOnly.start s
  | request _ request env atomic ih =>
      exact ih.trans (appendsOnly_handle request env atomic)

end Requests

/-! ## Stores on disk -/

section Disk

variable (crates : Crates)

/-- The entries that are read from the disk. -/
def LogStore.entries (store : LogStore) : List AuditEntry :=
  (readStored crates store.isSegmented store.disk).toOption.getD []

variable {crates} in
/-- A log on disk adds an entry that is read back, where no operation on its
files fails. -/
theorem Engine.Holds.appendsOrFails {s : Engine} {entries : List AuditEntry}
    (h : s.Holds crates entries) {record : Record} {call : Call}
    {entry : AuditEntry}
    (hnext : s.writer.nextEntry crates call record = .ok entry)
    (hio : call.io = .ok) (hparse : ParsesBack crates entry)
    (hlength : entries.length + 1 < 2 ^ 64) :
    AppendsOrFails crates (LogStore.entries crates) s.writer.store entry
      call.io := by
  obtain ⟨hholds, hacked, _⟩ := h.record_ok hnext hio hlength hparse
  have hbefore : LogStore.entries crates s.writer.store = entries := by
    unfold LogStore.entries
    rw [h.read]
    rfl
  have hafter : LogStore.entries crates (s.record crates record call).writer.store
      = entries ++ [entry] := by
    unfold LogStore.entries
    rw [hholds.read]
    rfl
  rw [Engine.record_store crates hnext] at hafter
  unfold AppendsOrFails
  cases happend : Store.append crates s.writer.store entry call.io with
  | mk store result =>
      have hstore : (s.writer.store.append crates entry call.io).1 = store :=
        congrArg Prod.fst happend
      cases result with
      | ok done =>
          rw [hstore] at hafter
          show LogStore.entries crates store = _
          rw [hafter, hbefore]
      | error err =>
          -- the engine would not have acknowledged the entry
          rcases s.writer.process_cases crates call record with
            ⟨_, hnext', _⟩ | ⟨_, _, err', _, _, hprocess⟩ |
              ⟨entry', store', hnext', happend', _⟩
          · rw [hnext] at hnext'
            cases hnext'
          · have hsame : (s.record crates record call).acked = s.acked := by
              simp [Engine.record, hprocess, Except.isOk, Except.toBool]
            rw [hsame] at hacked
            simp at hacked
          · obtain rfl : entry = entry' := by
              rw [hnext] at hnext'
              exact Except.ok.inj hnext'
            rw [happend] at happend'
            cases happend'

variable {crates} in
/-- What a log holds does not rest on what is remembered of its run. -/
theorem Engine.Holds.forget {s : Engine} {entries : List AuditEntry}
    (h : s.Holds crates entries) :
    ({ writer := s.writer, replies := [], acked := [], stale := false } :
      Engine).Holds crates entries := by
  obtain ⟨j, before, current, hready, hcontent, rfl⟩ := h
  refine ⟨j, before, current, ?_, hcontent, rfl⟩
  exact {
    represents := hready.represents
    stores := hready.stores
    chain := hready.chain
    length := hready.length
    acked := List.nil_sublist _
    head := fun _ => hready.head hready.fresh
    room := fun hstale => absurd hstale Bool.false_ne_true
    fresh := rfl
    terminated := hready.terminated }

variable {signing : SigningCrates}

/-- The server's writer as an engine without a history. -/
def ApiState.engine (s : ApiState LogStore signing) : Engine where
  writer := s.log
  replies := []
  acked := []
  stale := false

variable (cipher : CipherCrates) (axum : Extractors)

/-- Requests are handled one after the other, no operation on the files of the
log fails, and every entry is read back. -/
inductive ServingOnDisk (s : ApiState LogStore signing) :
    List Served → ApiState LogStore signing → Prop
  | start : ServingOnDisk s [] s
  | request {trace : List Served} {t : ApiState LogStore signing}
      (past : ServingOnDisk s trace t) (request : ApiRequest) (env : ApiCall)
      (calm : env.io = .ok)
      (room : (LogStore.entries crates t.log.store).length + 1 < 2 ^ 64)
      (parses : ∀ record entry,
        t.log.nextEntry crates (t.call cipher env) record = .ok entry →
          ParsesBack crates entry) :
      ServingOnDisk s
        (trace ++ [⟨request, (t.handle crates cipher axum request env).2⟩])
        (t.handle crates cipher axum request env).1

variable {crates cipher axum}

/-- A log on disk is served as an abstract log that holds its entries. -/
theorem ServingOnDisk.serving {s t : ApiState LogStore signing}
    {trace : List Served} {entries : List AuditEntry}
    (hstart : s.engine.Holds crates entries)
    (hserving : ServingOnDisk crates cipher axum s trace t) :
    Serving crates cipher axum (LogStore.entries crates) s trace t ∧
      ∃ entries', t.engine.Holds crates entries' := by
  induction hserving with
  | start => exact ⟨.start, entries, hstart⟩
  | @request trace t _ request env calm room parses ih =>
      obtain ⟨hbefore, held, hholds⟩ := ih
      have hread : LogStore.entries crates t.log.store = held := by
        unfold LogStore.entries
        rw [show readStored crates t.log.store.isSegmented t.log.store.disk =
          .ok held from hholds.read]
        rfl
      rw [hread] at room
      refine ⟨hbefore.request request env fun record entry _ _ hnext =>
        hholds.appendsOrFails hnext calm (parses record entry hnext) room, ?_⟩
      have hhandled := t.handled crates cipher axum request env
      generalize t.handle crates cipher axum request env = outcome at hhandled
      cases hhandled with
      | refused err => exact ⟨held, hholds⟩
      | read getter hroute => exact ⟨held, hholds⟩
      | created segment keyId keyring hroute hheld => exact ⟨held, hholds⟩
      | shredded segment keyId keyring hroute hparam hheld =>
          exact ⟨held, hholds⟩
      | appended record hroute haccept =>
          let call := t.call cipher env
          cases hnext : t.log.nextEntry crates call record with
          | error err =>
              exact ⟨held, @Engine.Holds.forget crates
                (t.engine.record crates record call) held
                (hholds.record_error hnext)⟩
          | ok entry =>
              exact ⟨held ++ [entry], @Engine.Holds.forget crates
                (t.engine.record crates record call) _
                (hholds.record_ok hnext calm room
                  (parses record entry hnext)).1⟩

end Disk

/-- Whatever the clients send, in any number and order: the log only grows, by
the accepted records, and a key is only taken away by an administrator; the log
is what a store holds, and what is read from the disk. -/
theorem api_append_only (crates : Crates) (cipher : CipherCrates)
    (axum : Extractors) (signing : SigningCrates) :
    (∀ (σ : Type) [Store σ] (view : σ → List AuditEntry)
        (s t : ApiState σ signing) (trace : List Served),
      Serving crates cipher axum view s trace t →
        AppendsOnly axum view s trace t) ∧
    ∀ (s t : ApiState LogStore signing) (trace : List Served)
        (entries : List AuditEntry),
      s.engine.Holds crates entries →
      ServingOnDisk crates cipher axum s trace t →
        AppendsOnly axum (LogStore.entries crates) s trace t := by
  constructor
  · intro σ _ view s t trace hserving
    exact hserving.appendsOnly
  · intro s t trace entries hstart hserving
    exact (hserving.serving hstart).1.appendsOnly

def keyringServer : ApiState MemoryStore referenceSigning where
  log := { store := { entries := [] }, seq := 0, prevHash := genesisPrevHash }
  segmented := false
  writeToken := "w"
  readToken := "r"
  keys := .keyring { provider := { dir := "keys", cache := ∅, autoCreate := true }
                     files := [] }
  signer := none
  adminToken := "a"

/-- Extractors that take a segment as it is and know no query. -/
noncomputable def referenceExtractors : Extractors where
  json := (referenceAxum 127).json
  pathParam segment := .ok segment
  readQuery _ := .ok { fromSeq := none, toSeq := none, decrypt := false }
  proofQuery _ := .error { status := .badRequest, message := "missing field seq" }

noncomputable def loginPost : ApiRequest where
  toHttpRequest := nestedPost 127 0
  method := .post
  path := ["v1", "records"]
  query := none

def calmCall : ApiCall where
  now := 0
  sealing := { dek := .error "", nonce := .error ""
               wrap := { mint := { draw := .error "", write := .written }
                         nonce := .error "" } }
  io := .ok
  mint := { draw := .error "", write := .written }
  removal := none
  disk := .missing

theorem recorded_loginPost :
    Served.isRecorded ⟨loginPost, (keyringServer.handle referenceCrates
      referenceCipher referenceExtractors loginPost calmCall).2⟩ = true := by
  have hroute : loginPost.endpoint = .ok .append := rfl
  have haccept : keyringServer.acceptRecord referenceExtractors.toAxum
      loginPost.toHttpRequest =
        .ok (alice.withData (Value.ofDocument (nest 0))) :=
    acceptRecord_nestedPost rfl (by decide)
  have hanswer := AppState.append_of_accepted referenceCrates haccept
    (keyringServer.call referenceCipher calmCall)
  unfold Served.isRecorded
  simp only [ApiState.handle, hroute, ApiState.appendRecord, hanswer]
  rcases keyringServer.log.process_cases referenceCrates
      (keyringServer.call referenceCipher calmCall)
      (alice.withData (Value.ofDocument (nest 0))) with
    ⟨err, hnext, _⟩ | ⟨entry, store, err, _, happend, _⟩ |
      ⟨entry, store, _, _, hprocess⟩
  · cases hnext
  · cases happend
  · rw [hprocess]
    rfl

theorem api_append_only_login :
    ∃ (trace : List Served) (t : ApiState MemoryStore referenceSigning),
      (trace.filter Served.isRecorded).length = 1 ∧
        AppendsOnly referenceExtractors MemoryStore.entries keyringServer trace
          t := by
  have hstart : Serving referenceCrates referenceCipher referenceExtractors
      MemoryStore.entries keyringServer [] keyringServer := .start
  have hserving := hstart.request loginPost calmCall fun _ _ _ _ _ => rfl
  obtain ⟨hmemory, _⟩ := api_append_only referenceCrates referenceCipher
    referenceExtractors referenceSigning
  refine ⟨_, _, ?_, hmemory MemoryStore MemoryStore.entries _ _ _ hserving⟩
  rw [List.nil_append, List.filter_cons_of_pos recorded_loginPost]
  rfl

end Chainlog
