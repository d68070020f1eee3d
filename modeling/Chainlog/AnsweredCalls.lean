import Chainlog.RemoteCalls

/-!
# Answered calls

A request that arrives is handled as the call itself, and the client makes of
the response what the handler meant.  Only bodies that nest too deeply are
lost on the way back.
-/

namespace Chainlog

section Answered

variable {axum : Extractors} {token : String} {call : ClientCall}
  {request : ApiRequest}

/-! ## Requests are handled as calls -/

theorem ClientCall.Arrives.extracted (h : call.Arrives axum token request) :
    request.extracted axum = .ok () := by
  obtain ⟨_, harrives⟩ := h
  unfold ApiRequest.extracted
  cases call with
  | append req =>
      rw [harrives.1]
      simp [harrives.2, AppendRequest.ofDocument_toDocument, discard, bind,
        Except.bind, Functor.discard, Functor.mapConst, Except.mapError,
        Except.map]
  | read fromSeq toSeq decrypt =>
      rw [harrives.1]
      simp [harrives.2, discard, bind, Except.bind, Functor.discard,
        Functor.mapConst, Except.map]
  | merkleProof seq =>
      rw [harrives.1]
      simp [harrives.2, discard, bind, Except.bind, Functor.discard,
        Functor.mapConst, Except.map]
  | createKey keyId =>
      obtain ⟨segment, hroute, hparam⟩ := harrives
      rw [hroute]
      simp [hparam, discard, bind, Except.bind, Functor.discard,
        Functor.mapConst, Except.map]
  | shredKey keyId =>
      obtain ⟨segment, hroute, hparam⟩ := harrives
      rw [hroute]
      simp [hparam, discard, bind, Except.bind, Functor.discard,
        Functor.mapConst, Except.map]
  | _ =>
      rw [harrives]
      rfl

/-- A request that arrives is handled as the call itself. -/
theorem ClientCall.Arrives.handle_eq_serve {σ : Type} [Store σ]
    {signing : SigningCrates} (h : call.Arrives axum token request)
    (crates : Crates) (cipher : CipherCrates) (st : ApiState σ signing)
    (env : ApiCall) :
    st.handle crates cipher axum request env =
      st.serve crates cipher token env call := by
  obtain ⟨hheaders, harrives⟩ := h
  unfold ApiState.handle
  cases call with
  | append req =>
      obtain ⟨hroute, hjson⟩ := harrives
      have haccept : st.acceptRecord axum.toAxum request.toHttpRequest =
          (require (bearing token) st.writeToken).map
            fun _ => req.received.toRecord := by
        simp only [AppState.acceptRecord, hjson, hheaders,
          AppendRequest.ofDocument_toDocument, bind, Except.bind,
          Except.mapError]
        cases require (bearing token) st.writeToken <;> rfl
      rw [hroute]
      simp only [ApiState.appendRecord, ApiState.serve]
      cases hrequire : require (bearing token) st.writeToken with
      | error err =>
          rw [hrequire] at haccept
          simp only [haccept, AppState.append, Except.map, Response.ofResult]
      | ok done =>
          rw [hrequire] at haccept
          have happend := AppState.append_of_accepted crates haccept
            (st.call cipher env)
          simp only [Except.map] at haccept
          simp only [happend, haccept]
          cases (st.log.process crates (st.call cipher env)
            req.received.toRecord).2 <;> rfl
  | read fromSeq toSeq decrypt =>
      rw [harrives.1]
      simp only [ApiState.answerGet, ApiState.records, harrives.2, hheaders]
      rfl
  | merkleProof seq =>
      rw [harrives.1]
      simp only [ApiState.answerGet, ApiState.proof, harrives.2, hheaders,
        ApiState.serve, bind, Except.bind]
  | createKey keyId =>
      obtain ⟨segment, hroute, hparam⟩ := harrives
      rw [hroute]
      simp only [hparam, hheaders, ApiState.serve]
  | shredKey keyId =>
      obtain ⟨segment, hroute, hparam⟩ := harrives
      rw [hroute]
      simp only [hparam, hheaders, ApiState.serve]
  | _ =>
      rw [harrives]
      simp only [ApiState.answerGet, hheaders, ApiState.serve]

end Answered

/-! ## What a handler answers -/

/-- The statuses of errors that a handler itself makes. -/
def ApiError.FromHandler (err : ApiError) : Prop :=
  err.status = .unauthorized ∨ err.status = .notFound ∨
    err.status = .internalServerError ∨ err.status = .notImplemented

/-- A result that is an error of a handler, or as stated. -/
def Meets {α : Type} (post : α → Prop) : Except ApiError α → Prop
  | .ok a => post a
  | .error err => err.FromHandler

theorem Meets.bind {α β : Type} {post : α → Prop} {next : β → Prop}
    {x : Except ApiError α} {f : α → Except ApiError β} (hx : Meets post x)
    (hf : ∀ a, post a → Meets next (f a)) : Meets next (x >>= f) := by
  cases x with
  | error err => exact hx
  | ok a => exact hf a hx

theorem meets_ofCore {α : Type} (result : Result α) :
    Meets (fun _ => True) (result.mapError ApiError.ofCore) := by
  cases result with
  | error err => exact Or.inr (Or.inr (Or.inl rfl))
  | ok a => trivial

theorem meets_require (headers : HeaderMap) (expected : String) :
    Meets (fun _ => True) (require headers expected) := by
  unfold require
  split
  · split_ifs
    · trivial
    · exact Or.inl rfl
  · exact Or.inl rfl

theorem meets_readLog (crates : Crates) (path : DataPath) (segmented : Bool) :
    Meets (fun entries => readLog crates path segmented = .ok entries)
      (readLog crates path segmented) := by
  unfold readLog
  split
  · rfl
  · rfl
  · exact Or.inr (Or.inr (Or.inl rfl))

namespace ApiState

variable {σ : Type} {signing : SigningCrates} (st : ApiState σ signing)

/-- The entries of the log are counted by a `usize`. -/
def CountsEntries (crates : Crates) (path : DataPath) : Prop :=
  ∀ entries, readLog crates path st.segmented = .ok entries →
    entries.length < 2 ^ 64

theorem meets_requireSigner : Meets (fun _ => True) st.requireSigner := by
  unfold requireSigner
  split
  · trivial
  · exact Or.inr (Or.inr (Or.inr rfl))

theorem meets_managedKeyring (headers : HeaderMap) :
    Meets (fun _ => True) (st.managedKeyring headers) := by
  refine (meets_require headers st.adminToken).bind fun _ _ => ?_
  unfold requireKeyring
  split
  · trivial
  · exact Or.inr (Or.inr (Or.inr rfl))

end ApiState

/-- A response of the call's handler: a reply, or an error. -/
inductive ClientCall.Responds (call : ClientCall) : Response → Prop where
  | answered {status : StatusCode} (reply : call.Reply)
      (haccepts : call.accepts status.code = true)
      (hfits : (call.answerOf reply).Fits) :
      call.Responds (.answer status (call.answerOf reply))
  | failed {err : ApiError} (herr : err.FromHandler) :
      call.Responds (.failure err)
  | dropped (panic : Panic) : call.Responds (.dropped panic)

theorem ClientCall.responds_ofResult {call : ClientCall} {α : Type}
    {result : Except ApiError α} {shown : α → StatusCode × Answer}
    (h : Meets (fun a => ∃ reply, call.answerOf reply = (shown a).2 ∧
      (call.answerOf reply).Fits ∧ call.accepts (shown a).1.code = true)
        result) :
    call.Responds (.ofResult (result.map shown)) := by
  cases result with
  | error err => exact .failed h
  | ok a =>
      obtain ⟨reply, hanswer, hfits, haccepts⟩ := h
      have hresponse : Response.ofResult (Except.map shown (.ok a)) =
          .answer (shown a).1 (call.answerOf reply) := by
        rw [hanswer]
        rfl
      rw [hresponse]
      exact .answered reply haccepts hfits

theorem length_showEntries {σ α : Type} [KeyProvider σ α]
    {cipher : CipherCrates} {provider : σ} {decrypt : Bool}
    {entries : List AuditEntry} {out : List Value}
    (h : showEntries cipher provider decrypt entries = .ok out) :
    out.length = entries.length := by
  induction entries generalizing out with
  | nil =>
      obtain rfl := Except.ok.inj h
      rfl
  | cons e rest ih =>
      rw [showEntries] at h
      cases hshow : showEntry cipher provider decrypt e with
      | error panic => simp [hshow] at h
      | ok v =>
          cases hrest : showEntries cipher provider decrypt rest with
          | error panic => simp [hshow, hrest, Except.map] at h
          | ok tail =>
              simp only [hshow, hrest, Except.map, Except.ok.injEq] at h
              subst h
              simp [ih hrest]

theorem fits_merkleProofForSeq {crates : Crates} {entries : List AuditEntry}
    {seq : UInt64} {proof : MerkleProof} (hlength : entries.length < 2 ^ 64)
    (h : merkleProofForSeq crates entries seq = some proof) :
    proof.leafIndex < 2 ^ 64 ∧ proof.leafCount < 2 ^ 64 := by
  unfold merkleProofForSeq at h
  obtain ⟨index, _, h⟩ := Option.bind_eq_some_iff.mp h
  unfold merkleProof at h
  split_ifs at h with hindex
  obtain rfl := Option.some.inj h
  have hleaves : (entryLeaves entries).length = entries.length :=
    List.length_map _
  dsimp only
  omega

section Responses

variable {σ : Type} {signing : SigningCrates} {crates : Crates}
  {cipher : CipherCrates} {st : ApiState σ signing}

theorem responds_records {path : DataPath}
    (hcounts : st.CountsEntries crates path) (headers : HeaderMap)
    (query : ReadQuery) :
    (ClientCall.read query.fromSeq query.toSeq query.decrypt).Responds
      (match st.readRecords cipher st.keys crates headers path query with
        | .error panic => .dropped panic
        | .ok answer =>
            .ofResult (answer.map fun answer => (.ok, .records answer))) := by
  unfold AppState.readRecords
  have hrequire := meets_require headers st.readToken
  cases hdone : require headers st.readToken with
  | error err =>
      rw [hdone] at hrequire
      exact .failed hrequire
  | ok done =>
      have hread := meets_readLog crates path st.segmented
      cases hentries : readLog crates path st.segmented with
      | error err =>
          rw [hentries] at hread
          exact .failed hread
      | ok entries =>
          dsimp only
          cases hshow : showEntries cipher st.keys query.decrypt
              (query.select entries) with
          | error panic => exact .dropped panic
          | ok out =>
              have hlength := length_showEntries hshow
              have hselect : (query.select entries).length ≤ entries.length :=
                List.length_filter_le _ _
              have hentries := hcounts entries hentries
              let page : (ClientCall.read query.fromSeq query.toSeq
                  query.decrypt).Reply :=
                { count := out.length, entries := out }
              have hfits : (ClientCall.answerOf _ page).Fits := by
                show out.length < 2 ^ 64
                omega
              exact .answered page rfl hfits

theorem responds_verify {path : DataPath}
    (hcounts : st.CountsEntries crates path) (headers : HeaderMap) :
    ClientCall.verify.Responds (.ofResult
      ((st.toAppState.verify crates headers path).map
        fun answer => (answer.1, .report answer.2))) := by
  apply ClientCall.responds_ofResult
  refine (meets_require headers st.readToken).bind fun _ _ => ?_
  refine (meets_readLog crates path st.segmented).bind fun entries hread => ?_
  refine ⟨verifyEntries crates entries, rfl, ?_, ?_⟩
  · show (verifyEntriesFrom crates none entries).entriesChecked < 2 ^ 64
    rw [verifyEntriesFrom_eq]
    exact hcounts entries hread
  · dsimp only
    split_ifs <;> rfl

theorem responds_merkleAnchor {path : DataPath}
    (hcounts : st.CountsEntries crates path) (headers : HeaderMap)
    (now : Int64) :
    ClientCall.merkleAnchor.Responds (.ofResult
      ((st.merkleAnchor crates headers path now).map
        fun anchor => (.ok, .merkleAnchor anchor))) := by
  apply ClientCall.responds_ofResult
  refine (meets_require headers st.readToken).bind fun _ _ => ?_
  refine st.meets_requireSigner.bind fun signer _ => ?_
  refine (meets_readLog crates path st.segmented).bind fun entries hread => ?_
  exact ⟨_, rfl, hcounts entries hread, rfl⟩

theorem responds_merkleProof {path : DataPath}
    (hcounts : st.CountsEntries crates path) (headers : HeaderMap)
    (seq : UInt64) :
    (ClientCall.merkleProof seq).Responds (.ofResult
      ((st.merkleProofHandler crates headers path seq).map
        fun answer => (.ok, .merkleProof answer))) := by
  apply ClientCall.responds_ofResult
  refine (meets_require headers st.readToken).bind fun _ _ => ?_
  refine (meets_readLog crates path st.segmented).bind fun entries hread => ?_
  cases hproof : merkleProofForSeq crates entries seq with
  | none => exact Or.inr (Or.inl rfl)
  | some proof =>
      let reply : MerkleProofResponse := {
        seq
        leaf := (entries.find? fun e => e.seq = seq).map AuditEntry.entryHash
        root := merkleRoot crates (entryLeaves entries)
        proof }
      exact ⟨reply, rfl, fits_merkleProofForSeq (hcounts entries hread) hproof,
        rfl⟩

theorem responds_createKey (headers : HeaderMap) (keyId : String)
    (mint : MintAnswers) :
    (ClientCall.createKey keyId).Responds
      (st.createKey cipher headers keyId mint).2 := by
  have hheld := st.meets_managedKeyring headers
  unfold ApiState.createKey
  cases hkeyring : st.managedKeyring headers with
  | error err =>
      rw [hkeyring] at hheld
      exact .failed hheld
  | ok keyring =>
      have hcreated := meets_ofCore (keyring.ensure cipher keyId mint).2
      apply ClientCall.responds_ofResult
      cases hresult : (keyring.ensure cipher keyId mint).2 with
      | error err =>
          rw [hresult] at hcreated
          exact hcreated
      | ok created =>
          let reply : CreateKeyResponse := { keyId, created }
          exact ⟨reply, rfl, trivial, rfl⟩

theorem responds_shredKey (headers : HeaderMap) (keyId : String)
    (removal : Option String) :
    (ClientCall.shredKey keyId).Responds
      (st.shredKey cipher headers keyId removal).2 := by
  have hheld := st.meets_managedKeyring headers
  unfold ApiState.shredKey
  cases hkeyring : st.managedKeyring headers with
  | error err =>
      rw [hkeyring] at hheld
      exact .failed hheld
  | ok keyring =>
      have hshredded := meets_ofCore (keyring.shred cipher keyId removal).2
      apply ClientCall.responds_ofResult
      cases hresult : (keyring.shred cipher keyId removal).2 with
      | error err =>
          rw [hresult] at hshredded
          exact hshredded
      | ok shredded =>
          let reply : ShredKeyResponse := { keyId, shredded }
          exact ⟨reply, rfl, trivial, rfl⟩

theorem responds_append [Store σ] (crates : Crates) (cipher : CipherCrates)
    (st : ApiState σ signing) (token : String) (env : ApiCall)
    (req : AppendRequest) :
    (ClientCall.append req).Responds
      (st.serve crates cipher token env (.append req)).2 := by
  have hmeets := meets_require (bearing token) st.writeToken
  unfold ApiState.serve
  cases hrequire : require (bearing token) st.writeToken with
  | error err =>
      rw [hrequire] at hmeets
      exact .failed hmeets
  | ok done =>
      have happended := meets_ofCore (st.log.process crates
        (st.call cipher env) req.received.toRecord).2
      apply ClientCall.responds_ofResult
      cases hresult : (st.log.process crates (st.call cipher env)
          req.received.toRecord).2 with
      | error err =>
          rw [hresult] at happended
          exact happended
      | ok receipt => exact ⟨receipt, rfl, trivial, rfl⟩

/-- Every response is a reply of the call's own type, or an error. -/
theorem ApiState.responds_serve [Store σ] {env : ApiCall}
    (hcounts : st.CountsEntries crates env.disk) (token : String)
    (call : ClientCall) :
    call.Responds (st.serve crates cipher token env call).2 := by
  cases call with
  | append req => exact responds_append crates cipher st token env req
  | read fromSeq toSeq decrypt =>
      exact responds_records hcounts (bearing token)
        { fromSeq, toSeq, decrypt }
  | head =>
      apply ClientCall.responds_ofResult
      refine (meets_require (bearing token) st.readToken).bind fun _ _ => ?_
      let reply : Head := { seq := st.log.head.1, headHash := st.log.head.2 }
      exact ⟨reply, rfl, trivial, rfl⟩
  | verify => exact responds_verify hcounts (bearing token)
  | checkpoint =>
      apply ClientCall.responds_ofResult
      refine (meets_require (bearing token) st.readToken).bind fun _ _ => ?_
      refine st.meets_requireSigner.bind fun signer _ => ?_
      exact ⟨_, rfl, trivial, rfl⟩
  | merkleAnchor => exact responds_merkleAnchor hcounts (bearing token) env.now
  | merkleProof seq => exact responds_merkleProof hcounts (bearing token) seq
  | createKey keyId => exact responds_createKey (bearing token) keyId env.mint
  | shredKey keyId => exact responds_shredKey (bearing token) keyId env.removal
  | listKeys =>
      apply ClientCall.responds_ofResult
      refine (st.meets_managedKeyring (bearing token)).bind fun keyring _ => ?_
      exact ⟨_, rfl, trivial, rfl⟩

end Responses

end Chainlog
