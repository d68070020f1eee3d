import Chainlog.AnsweredCalls

/-!
# The client is transparent

A call over the network changes the server as its handler does on the call's
own arguments, and returns what the handler answers.  The one thing lost is a
page of records that is nested too deeply to be read: such entries are stored,
verified and served, but no client gets them.
-/

namespace Chainlog

variable {limit : ℕ} {round : FloatBits → FloatBits}

namespace ClientCall

variable (round) in
/-- The reply as it is read: stored data may hold floats. -/
def reloadReply : (call : ClientCall) → call.Reply → call.Reply
  | .read _ _ _, page =>
      { page with entries := page.entries.map (Value.reload round) }
  | .append _, reply => reply
  | .head, reply => reply
  | .verify, reply => reply
  | .checkpoint, reply => reply
  | .merkleAnchor, reply => reply
  | .merkleProof _, reply => reply
  | .createKey _, reply => reply
  | .shredKey _, reply => reply
  | .listKeys, reply => reply

theorem answerOf_reloadReply (call : ClientCall) (reply : call.Reply) :
    call.answerOf (call.reloadReply round reply) =
      (call.answerOf reply).reload round := by
  cases call <;> rfl

theorem answerOf_injective (call : ClientCall) :
    Function.Injective call.answerOf := by
  intro reply other h
  cases call with
  | append req => exact Answer.receipt.inj h
  | read fromSeq toSeq decrypt =>
      obtain ⟨count, entries⟩ := reply
      obtain ⟨count', entries'⟩ := other
      obtain ⟨rfl, rfl⟩ := RecordsAnswer.mk.inj (Answer.records.inj h)
      rfl
  | head =>
      obtain ⟨seq, headHash⟩ := reply
      obtain ⟨seq', headHash'⟩ := other
      obtain ⟨rfl, rfl⟩ := Answer.head.inj h
      rfl
  | verify => exact Answer.report.inj h
  | checkpoint => exact Answer.checkpoint.inj h
  | merkleAnchor => exact Answer.merkleAnchor.inj h
  | merkleProof seq =>
      obtain ⟨seq, leaf, root, proof⟩ := reply
      obtain ⟨seq', leaf', root', proof'⟩ := other
      obtain ⟨rfl, rfl, rfl, rfl⟩ :=
        AppState.MerkleProofAnswer.mk.inj (Answer.merkleProof.inj h)
      rfl
  | createKey keyId =>
      obtain ⟨keyId, created⟩ := reply
      obtain ⟨keyId', created'⟩ := other
      obtain ⟨rfl, rfl⟩ := Answer.created.inj h
      rfl
  | shredKey keyId =>
      obtain ⟨keyId, shredded⟩ := reply
      obtain ⟨keyId', shredded'⟩ := other
      obtain ⟨rfl, rfl⟩ := Answer.shredded.inj h
      rfl
  | listKeys => exact Answer.keyIds.inj h

theorem fits_reloadReply {call : ClientCall} {reply : call.Reply}
    (hfits : (call.answerOf reply).Fits) :
    (call.answerOf (call.reloadReply round reply)).Fits := by
  cases call <;> exact hfits

/-- What the client has of a response of the call's handler. -/
def Receives (serde : SerdeJson) (limit : ℕ) (round : FloatBits → FloatBits)
    (call : ClientCall) (received : Except CallError call.Reply) :
    Response → Prop
  | .answer _ answer =>
      if answer.toDocument.depth ≤ limit then
        ∃ reply, received = .ok reply ∧
          call.answerOf reply = answer.reload round
      else ∃ reason, received = .error (.http reason)
  | .failure err =>
      received = .error (.status err.status.code (serde.toText err.toDocument))
  | .dropped _ => ∃ reason, received = .error (.http reason)

theorem accepts_failure {call : ClientCall} {err : ApiError}
    (herr : err.FromHandler) : call.accepts err.status.code = false := by
  unfold accepts
  rcases herr with h | h | h | h <;> rw [h] <;> cases call <;> rfl

/-- The client makes of a response what its handler meant. -/
theorem receives_of_responds {serde : SerdeJson}
    (hserde : serde.InvertsUpToFloats limit round) {call : ClientCall}
    {response : Response} (h : call.Responds response) :
    call.Receives serde limit round
      (call.receive serde (response.wire serde (.ok ()))) response := by
  cases h with
  | dropped panic => exact ⟨_, rfl⟩
  | @failed err herr =>
      simp only [Response.wire, receive, accepts_failure herr]
      rfl
  | @answered status reply haccepts hfits =>
      obtain ⟨hread, hreject⟩ := hserde (call.answerOf reply).toDocument
      simp only [Response.wire, receive, haccepts, if_true, Receives]
      split_ifs with hdepth
      · have hreply := call.readReply_answerOf (call.reloadReply round reply)
          (fits_reloadReply hfits)
        rw [answerOf_reloadReply, ← Answer.mapNumbers_toDocument] at hreply
        refine ⟨call.reloadReply round reply, ?_, answerOf_reloadReply call reply⟩
        rw [hread hdepth]
        simp only [bind, Except.bind, hreply, Except.mapError]
      · obtain ⟨reason, hreason⟩ := hreject (by omega)
        refine ⟨reason, ?_⟩
        rw [hreason]
        rfl

/-- A reply that the client has was answered. -/
theorem Receives.answered {serde : SerdeJson} {call : ClientCall}
    {received : Except CallError call.Reply} {response : Response}
    (h : call.Receives serde limit round received response)
    {reply : call.Reply} (hreply : received = .ok reply) :
    ∃ status answer, response = .answer status answer ∧
      call.answerOf reply = answer.reload round := by
  subst hreply
  cases response with
  | failure err => cases h
  | dropped panic =>
      obtain ⟨reason, hreason⟩ := h
      cases hreason
  | answer status answer =>
      refine ⟨status, answer, rfl, ?_⟩
      rw [Receives] at h
      split_ifs at h
      · obtain ⟨other, hother, hanswer⟩ := h
        rw [Except.ok.inj hother, hanswer]
      · obtain ⟨reason, hreason⟩ := h
        cases hreason

theorem request_eq_error (serde : SerdeJson) {client : Client}
    {call : ClientCall} {err : ClientError} (h : call.token client = .error err) :
    client.request serde call = .error err := by
  cases call <;>
  simp only [token] at h <;>
  simp only [Client.request, Client.append, Client.getRequest, Client.createKey,
    Client.shredKey, Client.keyRequest, h, bind, Except.bind]

theorem token_configured {client : Client} {call : ClientCall} {bearer : String}
    (h : call.token client = .ok bearer) :
    client.writeToken = some bearer ∨ client.readToken = some bearer ∨
      client.adminToken = some bearer := by
  cases call with
  | append req => exact Or.inl (tokenOf_eq_ok h)
  | createKey keyId => exact Or.inr (Or.inr (tokenOf_eq_ok h))
  | shredKey keyId => exact Or.inr (Or.inr (tokenOf_eq_ok h))
  | listKeys => exact Or.inr (Or.inr (tokenOf_eq_ok h))
  | _ => exact Or.inr (Or.inl (tokenOf_eq_ok h))

end ClientCall

section Calls

variable {σ : Type} [Store σ] {signing : SigningCrates} {crates : Crates}
  {axum : Extractors} {urls : UrlLibrary} {escaped : Char → Bool}
  {client : Client}

theorem perform_eq (crates : Crates) (cipher : CipherCrates)
    (hconnected : client.Connected axum urls escaped) (call : ClientCall)
    (hsendable : call.Sendable crates.serde axum escaped)
    (st : ApiState σ signing) (env : ApiCall) {token : String}
    (htoken : call.token client = .ok token) :
    let served := st.serve crates cipher token env call
    client.perform crates cipher axum urls call st env =
      (served.1, call.receive crates.serde
        (served.2.wire crates.serde (.ok ()))) := by
  intro served
  obtain ⟨sent, request, hsent, hheaders, hdelivered, harrives⟩ :=
    exists_arrives hconnected call htoken hsendable
  have hvalid : headerValid (sent.headers.authorization.getD []) = true := by
    rw [hheaders]
    exact hconnected.tokens token (ClientCall.token_configured htoken)
  have hserved := harrives.handle_eq_serve crates cipher st env
  simp only [Client.perform, hsent, hvalid, if_true, hdelivered, hserved,
    harrives.extracted, served]

theorem perform_of_token (cipher : CipherCrates)
    (hserde : crates.serde.InvertsUpToFloats limit round)
    (hconnected : client.Connected axum urls escaped) (call : ClientCall)
    (hsendable : call.Sendable crates.serde axum escaped)
    {st : ApiState σ signing} {env : ApiCall}
    (hcounts : st.CountsEntries crates env.disk) {token : String}
    (htoken : call.token client = .ok token) :
    let performed := client.perform crates cipher axum urls call st env
    let served := st.serve crates cipher token env call
    performed.1 = served.1 ∧
      call.Receives crates.serde limit round performed.2 served.2 := by
  intro performed served
  have hperformed := perform_eq crates cipher hconnected call hsendable st env
    htoken
  rw [show performed = _ from hperformed]
  exact ⟨rfl, ClientCall.receives_of_responds hserde
    (st.responds_serve hcounts token call)⟩

/-- Every call of a client is its handler's function on the call's own
arguments, for every state of the server: it changes the state as the handler
does and returns what the handler answers, or its error. -/
theorem client_call_transparent (crates : Crates) (cipher : CipherCrates)
    (hserde : crates.serde.InvertsUpToFloats limit round)
    (hconnected : client.Connected axum urls escaped) (call : ClientCall)
    (hsendable : call.Sendable crates.serde axum escaped)
    (st : ApiState σ signing) (env : ApiCall)
    (hcounts : st.CountsEntries crates env.disk) :
    let performed := client.perform crates cipher axum urls call st env
    match call.token client with
    | .error err => performed = (st, .error (.request err))
    | .ok token =>
        let served := st.serve crates cipher token env call
        performed.1 = served.1 ∧
          call.Receives crates.serde limit round performed.2 served.2 := by
  intro performed
  cases htoken : call.token client with
  | error err =>
      have hrequest := ClientCall.request_eq_error crates.serde htoken
      simp only [performed, Client.perform, hrequest]
  | ok token =>
      exact perform_of_token cipher hserde hconnected call hsendable hcounts
        htoken

end Calls

theorem client_call_transparent_read :
    ∃ page : ReadResponse,
      readingClient.perform referenceCrates referenceCipher queryExtractors
        queryUrls (.read none (some 7) true) keyringServer calmCall =
          (keyringServer, .ok page) ∧
      page.count = 0 := by
  have hcounts : keyringServer.CountsEntries referenceCrates calmCall.disk := by
    intro entries hread
    obtain rfl := Except.ok.inj hread
    decide
  obtain ⟨hstate, hreceives⟩ := client_call_transparent referenceCrates
    referenceCipher (referenceSerde_invertsUpTo 127).floats
    readingClient_connected (.read none (some 7) true) trivial keyringServer
    calmCall hcounts
  have hserved : (keyringServer.serve referenceCrates referenceCipher "r"
      calmCall (.read none (some 7) true)).2 =
        .answer .ok (.records { count := 0, entries := [] }) := by
    simp only [ApiState.serve, AppState.readRecords,
      show keyringServer.readToken = "r" from rfl, require_bearing]
    rfl
  rw [hserved, ClientCall.Receives,
    if_pos (Answer.depth_records_le_iff.mpr (by simp))] at hreceives
  obtain ⟨page, hpage, hanswer⟩ := hreceives
  refine ⟨page, Prod.ext hstate hpage, ?_⟩
  exact congrArg RecordsAnswer.count (Answer.records.inj hanswer)

/-! ## Deep entries -/

theorem AuditEntry.distinct_toDocument (e : AuditEntry) :
    e.toDocument.Distinct := by
  have hdata : e.payload.data.toDocument.Distinct :=
    Json.Sorted.distinct _ e.payload.data.property
  have htime : (i64Document e.timestamp).Distinct := by
    unfold i64Document
    split_ifs <;> simp [Json.Distinct]
  obtain ⟨seq, timestamp, eventType, outcome, actor, instructionId,
    ⟨data, pii⟩, prevHash, entryHash⟩ := e
  have hpii : ∀ bundle : EncryptedPii, bundle.toDocument.Distinct := by
    intro bundle
    simp [EncryptedPii.toDocument, Json.Distinct, Json.DistinctMembers]
  cases instructionId <;> cases pii <;>
  simp [toDocument, Payload.toDocument, Outcome.toDocument, Json.Distinct,
    Json.DistinctMembers, htime, hdata, hpii]

theorem AuditEntry.depth_toValue (e : AuditEntry) :
    e.toValue.depth = e.toDocument.depth :=
  Json.depth_sortKeys e.toDocument e.distinct_toDocument

theorem depth_toValue_le_iff {e : AuditEntry} (hlimit : 2 ≤ limit) :
    e.toValue.depth + 2 ≤ limit ↔ e.FitsBelow (limit - 2) := by
  rw [e.depth_toValue, ← depth_le_iff_fitsBelow]
  omega

theorem showEntries_plain {σ α : Type} [KeyProvider σ α] (cipher : CipherCrates)
    (provider : σ) (entries : List AuditEntry) :
    showEntries cipher provider false entries =
      .ok (entries.map AuditEntry.toValue) := by
  induction entries with
  | nil => rfl
  | cons e rest ih =>
      simp only [showEntries, showEntry, ih, Except.map, List.map_cons]

section Reading

variable {σ : Type} [Store σ] {signing : SigningCrates} {crates : Crates}
  (cipher : CipherCrates) {axum : Extractors} {urls : UrlLibrary}
  {escaped : Char → Bool} {client : Client} {st : ApiState σ signing}
  {env : ApiCall} {entries : List AuditEntry}

variable {cipher} in
/-- A reply that is not nested too deeply is returned. -/
theorem perform_of_serve (hserde : crates.serde.InvertsUpToFloats limit round)
    (hconnected : client.Connected axum urls escaped) (call : ClientCall)
    (hsendable : call.Sendable crates.serde axum escaped)
    (hcounts : st.CountsEntries crates env.disk) {token : String}
    (htoken : call.token client = .ok token) {status : StatusCode}
    (reply : call.Reply)
    (hserved : (st.serve crates cipher token env call).2 =
      .answer status (call.answerOf reply))
    (hdepth : (call.answerOf reply).toDocument.depth ≤ limit) :
    (client.perform crates cipher axum urls call st env).2 =
      .ok (call.reloadReply round reply) := by
  obtain ⟨_, hreceives⟩ := perform_of_token cipher hserde hconnected call
    hsendable hcounts htoken
  rw [hserved, ClientCall.Receives, if_pos hdepth,
    ← ClientCall.answerOf_reloadReply] at hreceives
  obtain ⟨received, hreceived, hanswer⟩ := hreceives
  rw [hreceived, call.answerOf_injective hanswer]

omit [Store σ] in
theorem countsEntries_of_readLog
    (hread : readLog crates env.disk st.segmented = .ok entries)
    (hlength : entries.length < 2 ^ 64) : st.CountsEntries crates env.disk := by
  intro other hother
  rw [hread] at hother
  obtain rfl := Except.ok.inj hother
  exact hlength

theorem serve_read (hgranted : require (bearing st.readToken) st.readToken = .ok ())
    (hread : readLog crates env.disk st.segmented = .ok entries)
    (fromSeq toSeq : Option UInt64) :
    let range := ReadQuery.select { fromSeq, toSeq, decrypt := false } entries
    (st.serve crates cipher st.readToken env (.read fromSeq toSeq false)).2 =
      .answer .ok (.records {
        count := range.length
        entries := range.map AuditEntry.toValue }) := by
  intro range
  simp only [ApiState.serve, AppState.readRecords, hgranted, hread,
    showEntries_plain, Except.map, List.length_map]
  rfl

theorem serve_verify
    (hgranted : require (bearing st.readToken) st.readToken = .ok ())
    (hread : readLog crates env.disk st.segmented = .ok entries) :
    ∃ status,
      (st.serve crates cipher st.readToken env .verify).2 =
        .answer status (.report (verifyEntries crates entries)) := by
  simp only [ApiState.serve, AppState.verify, hgranted, hread, bind, Except.bind,
    pure, Except.pure, Except.map]
  exact ⟨_, rfl⟩

omit [Store σ] in
theorem depth_page_le_iff (hlimit : 2 ≤ limit) {range : List AuditEntry} :
    (Answer.records ⟨range.length, range.map AuditEntry.toValue⟩
      ).toDocument.depth ≤ limit ↔ ∀ e ∈ range, e.FitsBelow (limit - 2) := by
  rw [Answer.depth_records_le_iff]
  simp only [List.forall_mem_map, depth_toValue_le_iff hlimit]
  exact and_iff_right hlimit

theorem perform_read (hserde : crates.serde.InvertsUpToFloats limit round)
    (hlimit : 2 ≤ limit) (hconnected : client.Connected axum urls escaped)
    (htoken : client.readToken = some st.readToken)
    (hgranted : require (bearing st.readToken) st.readToken = .ok ())
    (hread : readLog crates env.disk st.segmented = .ok entries)
    (hlength : entries.length < 2 ^ 64) (fromSeq toSeq : Option UInt64)
    (hfits : ∀ e ∈ ReadQuery.select { fromSeq, toSeq, decrypt := false } entries,
      e.FitsBelow (limit - 2)) :
    let range := ReadQuery.select { fromSeq, toSeq, decrypt := false } entries
    let page : ReadResponse := {
      count := range.length
      entries := range.map fun e => e.toValue.reload round }
    (client.perform crates cipher axum urls (.read fromSeq toSeq false) st env).2 =
      .ok page := by
  intro range page
  have hbears : client.readTok = .ok st.readToken := by
    rw [Client.readTok, htoken]
  have hreply := perform_of_serve hserde hconnected (.read fromSeq toSeq false)
    trivial (countsEntries_of_readLog hread hlength) hbears
    ⟨range.length, range.map AuditEntry.toValue⟩
    (serve_read cipher hgranted hread fromSeq toSeq)
    ((depth_page_le_iff hlimit).mpr hfits)
  rw [hreply]
  simp only [ClientCall.reloadReply, List.map_map, page]
  rfl

/-- A client reads a range exactly if the data of all its entries nest two
levels less than what the server itself can read; it gets the entries of the
range then.  The log is verified all the same. -/
theorem client_read_iff (hserde : crates.serde.InvertsUpToFloats limit round)
    (hlimit : 4 ≤ limit) (hconnected : client.Connected axum urls escaped)
    (htoken : client.readToken = some st.readToken)
    (hgranted : require (bearing st.readToken) st.readToken = .ok ())
    (hread : readLog crates env.disk st.segmented = .ok entries)
    (hlength : entries.length < 2 ^ 64) (fromSeq toSeq : Option UInt64) :
    let range := ReadQuery.select { fromSeq, toSeq, decrypt := false } entries
    let page : ReadResponse := {
      count := range.length
      entries := range.map fun e => e.toValue.reload round }
    let received := (client.perform crates cipher axum urls
      (.read fromSeq toSeq false) st env).2
    ((∃ reply, received = .ok reply) ↔
        ∀ e ∈ range, e.FitsBelow (limit - 2)) ∧
      ((∀ e ∈ range, e.FitsBelow (limit - 2)) → received = .ok page) ∧
      (client.perform crates cipher axum urls .verify st env).2 =
        .ok (verifyEntries crates entries) := by
  intro range page received
  have htwo : 2 ≤ limit := by omega
  have hcounts := countsEntries_of_readLog hread hlength
  have hbears : client.readTok = .ok st.readToken := by
    rw [Client.readTok, htoken]
  have hsuccess := perform_read cipher hserde htwo hconnected htoken hgranted
    hread hlength fromSeq toSeq
  obtain ⟨status, hserved⟩ := serve_verify cipher hgranted hread
  have hreport := perform_of_serve hserde hconnected .verify trivial hcounts
    hbears (verifyEntries crates entries) hserved
    ((Answer.depth_le (by simp [ClientCall.answerOf])).trans hlimit)
  refine ⟨⟨fun hok => ?_, fun hall => ⟨page, hsuccess hall⟩⟩, hsuccess, hreport⟩
  by_contra hdeep
  obtain ⟨_, hreceives⟩ := perform_of_token cipher hserde hconnected
    (.read fromSeq toSeq false) trivial hcounts hbears
  rw [serve_read cipher hgranted hread, ClientCall.Receives,
    if_neg (mt (depth_page_le_iff htwo).mp hdeep)] at hreceives
  obtain ⟨reason, hreason⟩ := hreceives
  obtain ⟨reply, hreply⟩ := hok
  rw [show received = _ from hreason] at hreply
  cases hreply

end Reading

/-- An entry of the log is read by a client that has the token. -/
theorem client_read_iff_bundle :
    ∃ (bundle : EncryptedPii) (env : ApiCall) (page : ReadResponse),
      env.disk =
        .file (.readable (entryLine referenceCrates (piiEntry bundle))) ∧
      (readingClient.perform referenceCrates referenceCipher queryExtractors
        queryUrls (.read none (some 7) false) keyringServer env).2 = .ok page ∧
      page.count = 1 := by
  let bundle : EncryptedPii :=
    { keyId := "subject-123", wrappedDek := "", nonce := "", ciphertext := "" }
  obtain ⟨env, hdisk⟩ : ∃ env : ApiCall, env.disk =
      .file (.readable (entryLine referenceCrates (piiEntry bundle))) :=
    ⟨{ calmCall with
      disk := .file (.readable (entryLine referenceCrates (piiEntry bundle))) },
      rfl⟩
  have hread : readLog referenceCrates env.disk keyringServer.segmented =
      .ok [piiEntry bundle] := by
    rw [hdisk, readLog, readStored, if_neg (by simp [keyringServer]),
      readAll_piiEntry]
  have hiff := client_read_iff referenceCipher
    (referenceSerde_invertsUpTo 127).floats (by decide) readingClient_connected
    (show readingClient.readToken = some keyringServer.readToken from rfl)
    require_bearing hread (by simp) none (some 7)
  obtain ⟨_, hpage, _⟩ := hiff
  refine ⟨bundle, env, _, hdisk, hpage ?_, rfl⟩
  intro e he
  have he : e = piiEntry bundle :=
    List.mem_singleton.mp (List.mem_of_mem_filter he)
  rw [he]
  exact ⟨by decide, by decide⟩

end Chainlog
