import Chainlog.AppendOnly
import Chainlog.Client
import Chainlog.Foundation.UrlPath

/-!
# Which key a request addresses

`create_key` and `shred_key` splice the key id into a URL as it is.  The URL
library gives the text its meaning again, the router takes a segment of the
path and axum decodes it.  What arrives is the key id exactly if nothing in it
has a meaning in a URL; anything else that still arrives is another key id.
-/

namespace Chainlog

/-- What reqwest sends for a URL: the segments of the path and the query. -/
structure UrlLibrary where
  target : String → Except String (List String × Option String)

/-- The path of a text by the rules for URLs. -/
def pathOf (escaped : Char → Bool) (text : String) : List String :=
  (UrlPath.path escaped text.toList).map String.ofList

/-- The base is a URL without query and fragment, with `start` behind its host;
what is written behind a slash is parsed as its path. -/
structure UrlLibrary.PathFollows (urls : UrlLibrary) (escaped : Char → Bool)
    (base start : String) : Prop where
  plain : ∀ c ∈ start.toList, UrlPath.endsPath c = false
  parses : ∀ rest, ∃ query, urls.target (base ++ "/" ++ rest) =
    .ok (pathOf escaped (start ++ "/" ++ rest), query)

/-- `Path` percent-decodes a segment, which has to be UTF-8 then. -/
def Extractors.DecodesPath (axum : Extractors) : Prop :=
  ∀ segment, match fromUtf8 (UrlPath.percentDecode segment.toList) with
    | some text => axum.pathParam segment = .ok text
    | none => ∃ err, axum.pathParam segment = .error err

/-- `Json` takes no request without a content type. -/
def Axum.RequiresContentType (axum : Axum) : Prop :=
  ∀ request : HttpRequest, request.contentType = none →
    ∃ err, axum.json request = .error err

/-- The request as the server gets it. -/
def ClientRequest.delivered (urls : UrlLibrary) (sent : ClientRequest) :
    Except String ApiRequest := do
  let (path, query) ← urls.target sent.url
  return { sent.toHttpRequest with method := sent.method, path, query }

/-- A handler for keys runs, with a key id. -/
def ApiRequest.ReceivesKey (axum : Extractors) (request : ApiRequest)
    (keyId : String) : Prop :=
  ∃ segment, (request.endpoint = .ok (.createKey segment) ∨
      request.endpoint = .ok (.shredKey segment)) ∧
    axum.pathParam segment = .ok keyId

/-- A handler for keys gets the key id; where none runs, the request is
rejected and nothing changes. -/
structure ApiRequest.AddressesOnly (crates : Crates) (cipher : CipherCrates)
    (axum : Extractors) (request : ApiRequest) (keyId : String) : Prop where
  received : ∀ other, request.ReceivesKey axum other → other = keyId
  rejected : (∀ other, ¬request.ReceivesKey axum other) →
    ∀ {σ : Type} [Store σ] {signing : SigningCrates}
      (st : ApiState σ signing) (env : ApiCall),
      ∃ err, st.handle crates cipher axum request env = (st, .failure err)

/-- The spliced text is a path of the key handlers. -/
def ReachesKeys (escaped : Char → Bool) (start keyId : String) : Prop :=
  ∃ segment text, pathOf escaped (start ++ "/v1/keys/" ++ keyId) =
      ["v1", "keys", segment] ∧ segment ≠ "" ∧
    fromUtf8 (UrlPath.percentDecode segment.toList) = some text

/-! ## Routing -/

theorem route_eq_key {method : Method} {path : List String} {segment : String}
    (h : route method path = .ok (.createKey segment) ∨
      route method path = .ok (.shredKey segment)) :
    path = ["v1", "keys", segment] ∧ segment ≠ "" := by
  unfold route at h
  split at h
  case h_9 other =>
    by_cases hempty : other = ""
    · simp [hempty] at h
    · have hsame : other = segment := by
        cases method <;> simp [hempty] at h <;> exact h
      rw [← hsame]
      exact ⟨rfl, hempty⟩
  case h_2 =>
    split_ifs at h
    · simp at h
    · cases method <;> simp [getting] at h
  all_goals cases method <;> simp [getting] at h

theorem route_key {method : Method} (hmethod : method = .post ∨ method = .delete)
    {segment : String} (hsegment : segment ≠ "") :
    route method ["v1", "keys", segment] = .ok (.createKey segment) ∨
      route method ["v1", "keys", segment] = .ok (.shredKey segment) := by
  rcases hmethod with rfl | rfl
  · left
    simp [route, hsegment]
  · right
    simp [route, hsegment]

theorem route_ne_get {method : Method} (hmethod : method = .post ∨ method = .delete)
    (path : List String) (getter : Getter) :
    route method path ≠ .ok (.get getter) := by
  unfold route
  rcases hmethod with rfl | rfl <;> split <;> simp [getting]
  all_goals split_ifs <;> simp

/-! ## The last segment -/

theorem utf8_toList (s : String) : UrlPath.utf8 s.toList = asBytes s :=
  (asBytes_eq_flatMap s).symm

/-- The key handlers are reached by the last segment of the key id, if by
any. -/
theorem segment_of_pathOf {escaped : Char → Bool} {start : String}
    (hstart : ∀ c ∈ start.toList, UrlPath.endsPath c = false)
    {keyId segment : String}
    (hpath : pathOf escaped (start ++ "/v1/keys/" ++ keyId) =
      ["v1", "keys", segment]) (hsegment : segment ≠ "") :
    segment.toList =
      UrlPath.percentEncode escaped (UrlPath.lastSegment keyId.toList) := by
  have htext : (start ++ "/v1/keys/" ++ keyId).toList =
      (start.toList ++ "/v1/keys".toList) ++ '/' :: keyId.toList := by
    simp [String.toList_append]
  have hkeys : ∀ c ∈ "/v1/keys".toList, UrlPath.endsPath c = false := by
    simp [UrlPath.endsPath]
  have hfront : ∀ c ∈ start.toList ++ "/v1/keys".toList,
      UrlPath.endsPath c = false := fun c hc =>
    (List.mem_append.mp hc).elim (hstart c) (hkeys c)
  obtain ⟨kept, hkept⟩ := UrlPath.exists_path_eq escaped hfront keyId.toList
  rw [pathOf, htext] at hpath
  have hlast : ∀ last, UrlPath.path escaped
      ((start.toList ++ "/v1/keys".toList) ++ '/' :: keyId.toList) =
        kept ++ [last] → segment.toList = last := by
    intro last heq
    rw [heq, List.map_append, List.map_singleton] at hpath
    have hconcat : kept.map String.ofList ++ [String.ofList last] =
        ["v1", "keys"] ++ [segment] := hpath
    have hsame := (List.append_inj' hconcat rfl).2
    rw [← (List.cons.inj hsame).1, String.toList_ofList]
  rcases hkept with hkept | hkept
  · exact hlast _ hkept
  · exact absurd (String.toList_eq_nil_iff.mp (hlast [] hkept)) hsegment

theorem text_of_reached {escaped : Char → Bool}
    (hset : UrlPath.KeepsEscapes escaped) {start : String}
    (hstart : ∀ c ∈ start.toList, UrlPath.endsPath c = false)
    {keyId segment text : String}
    (hpath : pathOf escaped (start ++ "/v1/keys/" ++ keyId) =
      ["v1", "keys", segment]) (hsegment : segment ≠ "")
    (hdecode : fromUtf8 (UrlPath.percentDecode segment.toList) = some text) :
    text = keyId ↔ UrlPath.Verbatim keyId.toList := by
  rw [fromUtf8_eq_some, segment_of_pathOf hstart hpath hsegment,
    UrlPath.percentDecode_percentEncode hset] at hdecode
  rw [← UrlPath.percentDecode_lastSegment_iff, hdecode, utf8_toList]
  exact ⟨fun h => by rw [h], fun h => asBytes_injective h⟩

/-! ## Requests for keys -/

theorem Client.keyRequest_eq_ok {client : Client} {method : Method}
    {keyId : String} {sent : ClientRequest}
    (h : client.keyRequest method keyId = .ok sent) :
    sent.url = client.base ++ "/" ++ ("v1/keys/" ++ keyId) ∧
      sent.contentType = none ∧ sent.method = method := by
  unfold keyRequest at h
  obtain ⟨token, _, h⟩ := bind_eq_ok.mp h
  obtain rfl := Except.ok.inj h
  refine ⟨?_, rfl, rfl⟩
  show client.base ++ ("/v1/keys/" ++ keyId) =
    client.base ++ "/" ++ ("v1/keys/" ++ keyId)
  apply String.toList_inj.mp
  simp [String.toList_append]

theorem ClientRequest.exists_delivered {urls : UrlLibrary}
    {escaped : Char → Bool} {client : Client} {start : String}
    (hbase : urls.PathFollows escaped client.base start) {method : Method}
    {keyId : String} {sent : ClientRequest}
    (hsent : client.keyRequest method keyId = .ok sent) :
    ∃ request, sent.delivered urls = .ok request ∧
      request.path = pathOf escaped (start ++ "/v1/keys/" ++ keyId) ∧
      request.method = method ∧ request.contentType = none := by
  obtain ⟨hurl, htype, hmethod⟩ := Client.keyRequest_eq_ok hsent
  obtain ⟨query, htarget⟩ := hbase.parses ("v1/keys/" ++ keyId)
  have hjoin : start ++ "/" ++ ("v1/keys/" ++ keyId) =
      start ++ "/v1/keys/" ++ keyId := by
    apply String.toList_inj.mp
    simp [String.toList_append]
  rw [hjoin] at htarget
  refine ⟨{ sent.toHttpRequest with
    method := sent.method
    path := pathOf escaped (start ++ "/v1/keys/" ++ keyId)
    query }, ?_, rfl, hmethod, htype⟩
  simp only [delivered, hurl, htarget, bind, Except.bind, pure, Except.pure]

/-- Without a key handler nothing changes: no other handler takes the
request. -/
theorem ApiRequest.rejected_of_not_receives (crates : Crates)
    (cipher : CipherCrates) {axum : Extractors}
    (hjson : axum.toAxum.RequiresContentType) {request : ApiRequest}
    (hmethod : request.method = .post ∨ request.method = .delete)
    (htype : request.contentType = none)
    (hnone : ∀ other, ¬request.ReceivesKey axum other)
    {σ : Type} [Store σ] {signing : SigningCrates} (st : ApiState σ signing)
    (env : ApiCall) :
    ∃ err, st.handle crates cipher axum request env = (st, .failure err) := by
  unfold ApiState.handle
  cases hroute : request.endpoint with
  | error err => exact ⟨err, rfl⟩
  | ok endpoint =>
      cases endpoint with
      | get getter => exact absurd hroute (route_ne_get hmethod _ getter)
      | append =>
          obtain ⟨err, herr⟩ := hjson request.toHttpRequest htype
          have hrefused : st.acceptRecord axum.toAxum request.toHttpRequest =
              .error err := by
            simp [AppState.acceptRecord, herr, bind, Except.bind]
          refine ⟨err, ?_⟩
          simp only [ApiState.appendRecord, AppState.append, hrefused]
          rfl
      | createKey segment =>
          cases hparam : axum.pathParam segment with
          | error err => exact ⟨err, by simp only [hparam]⟩
          | ok keyId =>
              exact absurd ⟨segment, Or.inl hroute, hparam⟩ (hnone keyId)
      | shredKey segment =>
          cases hparam : axum.pathParam segment with
          | error err => exact ⟨err, by simp only [hparam]⟩
          | ok keyId =>
              exact absurd ⟨segment, Or.inr hroute, hparam⟩ (hnone keyId)

theorem ApiRequest.receivesKey_iff {axum : Extractors}
    (hdecode : axum.DecodesPath) {request : ApiRequest}
    (hmethod : request.method = .post ∨ request.method = .delete)
    (text : String) :
    request.ReceivesKey axum text ↔ ∃ segment,
      request.path = ["v1", "keys", segment] ∧ segment ≠ "" ∧
        fromUtf8 (UrlPath.percentDecode segment.toList) = some text := by
  have hparam : ∀ segment, axum.pathParam segment = .ok text ↔
      fromUtf8 (UrlPath.percentDecode segment.toList) = some text := by
    intro segment
    have hsegment := hdecode segment
    cases hutf : fromUtf8 (UrlPath.percentDecode segment.toList) with
    | none =>
        rw [hutf] at hsegment
        obtain ⟨err, herr⟩ := hsegment
        simp [herr]
    | some other =>
        rw [hutf] at hsegment
        simp [hsegment]
  constructor
  · rintro ⟨segment, hroute, hread⟩
    obtain ⟨hpath, hsegment⟩ := route_eq_key hroute
    exact ⟨segment, hpath, hsegment, (hparam segment).mp hread⟩
  · rintro ⟨segment, hpath, hsegment, hread⟩
    refine ⟨segment, ?_, (hparam segment).mpr hread⟩
    rw [ApiRequest.endpoint, hpath]
    exact route_key hmethod hsegment

/-- For every base URL and every key id: the request for it reaches a handler
with this key id only, and changes nothing otherwise, exactly if the key id is
verbatim or its text reaches no key handler. -/
theorem keyRequest_addressesOnly_iff (crates : Crates) (cipher : CipherCrates)
    {axum : Extractors} (hdecode : axum.DecodesPath)
    (hjson : axum.toAxum.RequiresContentType) {urls : UrlLibrary}
    {escaped : Char → Bool} (hset : UrlPath.KeepsEscapes escaped)
    {client : Client} {start : String}
    (hbase : urls.PathFollows escaped client.base start) {keyId : String}
    {sent : ClientRequest}
    (hsent : client.createKey keyId = .ok sent ∨
      client.shredKey keyId = .ok sent) :
    ∃ request, sent.delivered urls = .ok request ∧
      (request.AddressesOnly crates cipher axum keyId ↔
        (ReachesKeys escaped start keyId → UrlPath.Verbatim keyId.toList)) := by
  obtain ⟨method, hmethod, hrequest⟩ : ∃ method,
      (method = .post ∨ method = .delete) ∧
        client.keyRequest method keyId = .ok sent :=
    hsent.elim (fun h => ⟨.post, Or.inl rfl, h⟩)
      fun h => ⟨.delete, Or.inr rfl, h⟩
  obtain ⟨request, hdelivered, hpath, hsame, htype⟩ :=
    ClientRequest.exists_delivered hbase hrequest
  rw [← hsame] at hmethod
  refine ⟨request, hdelivered, ?_, ?_⟩
  · rintro hkept ⟨segment, text, hreached, hsegment, hread⟩
    have harrives : request.ReceivesKey axum text :=
      (ApiRequest.receivesKey_iff hdecode hmethod text).mpr
        ⟨segment, hpath.trans hreached, hsegment, hread⟩
    exact (text_of_reached hset hbase.plain hreached hsegment hread).mp
      (hkept.received text harrives)
  · intro hverbatim
    refine ⟨fun text harrives => ?_, fun hnone => ?_⟩
    · obtain ⟨segment, hreached, hsegment, hread⟩ :=
        (ApiRequest.receivesKey_iff hdecode hmethod text).mp harrives
      rw [hpath] at hreached
      exact (text_of_reached hset hbase.plain hreached hsegment hread).mpr
        (hverbatim ⟨segment, text, hreached, hsegment, hread⟩)
    · exact ApiRequest.rejected_of_not_receives crates cipher hjson hmethod
        htype hnone

/-! ## A client of one server -/

/-- The characters that are escaped in a path. -/
def pathSet (c : Char) : Bool :=
  c.toNat ≤ 32 || 126 < c.toNat ||
    c ∈ ['"', '#', '<', '>', '?', '`', '\x7b', '\x7d']

theorem keepsEscapes_pathSet : UrlPath.KeepsEscapes pathSet := by
  intro c hc
  simp only [pathSet, Bool.or_eq_true, decide_eq_true_eq] at hc
  rcases hc with (hlow | hhigh) | hlisted
  · refine ⟨?_, ?_⟩
    · rintro rfl
      exact absurd hlow (by decide)
    · unfold UrlPath.hexValue
      rw [if_neg (by omega), if_neg (by omega), if_neg (by omega)]
  · refine ⟨?_, ?_⟩
    · rintro rfl
      exact absurd hhigh (by decide)
    · unfold UrlPath.hexValue
      rw [if_neg (by omega), if_neg (by omega), if_neg (by omega)]
  · simp only [List.mem_cons, List.not_mem_nil, or_false] at hlisted
    rcases hlisted with rfl | rfl | rfl | rfl | rfl | rfl | rfl | rfl <;> decide

def serverBase : String := "http://127.0.0.1:8888"

/-- A library that knows the URLs of one server. -/
def serverUrls : UrlLibrary where
  target url :=
    match stripPrefix serverBase.toList url.toList with
    | some rest => .ok (pathOf pathSet (String.ofList rest), none)
    | none => .error "relative URL without a base"

theorem serverUrls_pathFollows :
    serverUrls.PathFollows pathSet serverBase "" where
  plain := by simp
  parses rest := by
    refine ⟨none, ?_⟩
    have htext : (serverBase ++ "/" ++ rest).toList =
        serverBase.toList ++ ("/" ++ rest).toList := by
      simp [String.toList_append]
    simp only [serverUrls, htext, stripPrefix_append, String.ofList_toList]
    rfl

/-- Extractors that percent-decode a segment. -/
noncomputable def decodingExtractors : Extractors where
  json := referenceExtractors.json
  pathParam segment :=
    match fromUtf8 (UrlPath.percentDecode segment.toList) with
    | some text => .ok text
    | none => .error { status := .badRequest, message := "" }
  readQuery := referenceExtractors.readQuery
  proofQuery := referenceExtractors.proofQuery

theorem decodingExtractors_decodesPath : decodingExtractors.DecodesPath := by
  intro segment
  simp only [decodingExtractors]
  cases fromUtf8 (UrlPath.percentDecode segment.toList) with
  | none => exact ⟨_, rfl⟩
  | some text => rfl

theorem decodingExtractors_requiresContentType :
    decodingExtractors.toAxum.RequiresContentType := by
  intro request hnone
  refine ⟨_, if_neg ?_⟩
  rw [hnone]
  exact Option.some_ne_none _ ∘ Eq.symm

/-- A client that may manage keys. -/
def managingClient : Client :=
  { Client.builder "http://127.0.0.1:8888/" with adminToken := some "a" }.build

theorem managingClient_pathFollows :
    serverUrls.PathFollows pathSet managingClient.base "" := by
  have hbase : managingClient.base = serverBase := by decide
  rw [hbase]
  exact serverUrls_pathFollows

theorem keyRequest_addressesOnly_subject :
    ∃ sent request, managingClient.shredKey "subject-123" = .ok sent ∧
      sent.delivered serverUrls = .ok request ∧
      request.AddressesOnly referenceCrates referenceCipher decodingExtractors
        "subject-123" := by
  obtain ⟨sent, hsent⟩ :
      ∃ sent, managingClient.shredKey "subject-123" = .ok sent := ⟨_, rfl⟩
  obtain ⟨request, hdelivered, haddress⟩ :=
    keyRequest_addressesOnly_iff referenceCrates referenceCipher
      decodingExtractors_decodesPath decodingExtractors_requiresContentType
      keepsEscapes_pathSet managingClient_pathFollows (Or.inr hsent)
  refine ⟨sent, request, hsent, hdelivered, haddress.mpr fun _ => ?_⟩
  refine ⟨?_, ?_, (UrlPath.percentDecode_eq_utf8_iff _).mp (by decide)⟩
  · simp [UrlPath.isSlash, UrlPath.endsPath, UrlPath.isDropped]
  · simp [UrlPath.isBlankEnd]

/-- Behind a question mark nothing of the key id arrives: another subject's key
is shredded. -/
theorem shredKey_other_subject :
    ∃ sent request, managingClient.shredKey "subject-123?x" = .ok sent ∧
      sent.delivered serverUrls = .ok request ∧
      ¬request.AddressesOnly referenceCrates referenceCipher decodingExtractors
        "subject-123?x" ∧
      ∀ (st : ApiState MemoryStore referenceSigning) (env : ApiCall),
        st.handle referenceCrates referenceCipher decodingExtractors request
            env =
          st.shredKey referenceCipher request.headers "subject-123"
            env.removal := by
  obtain ⟨sent, hsent⟩ :
      ∃ sent, managingClient.shredKey "subject-123?x" = .ok sent := ⟨_, rfl⟩
  obtain ⟨request, hdelivered, hpath, hmethod, _⟩ :=
    ClientRequest.exists_delivered managingClient_pathFollows hsent
  have hsegments : pathOf pathSet ("" ++ "/v1/keys/" ++ "subject-123?x") =
      ["v1", "keys", "subject-123"] := by decide
  have hroute : request.endpoint = .ok (.shredKey "subject-123") := by
    rw [ApiRequest.endpoint, hmethod, hpath, hsegments]
    rfl
  have hparam : decodingExtractors.pathParam "subject-123" =
      .ok "subject-123" := by
    have htext : UrlPath.percentDecode "subject-123".toList =
        asBytes "subject-123" := by decide
    simp only [decodingExtractors, htext, fromUtf8_asBytes]
  have harrives : request.ReceivesKey decodingExtractors "subject-123" :=
    ⟨_, Or.inr hroute, hparam⟩
  refine ⟨sent, request, hsent, hdelivered, fun honly => ?_, fun st env => ?_⟩
  · exact absurd (honly.received _ harrives) (by decide)
  · simp only [ApiState.handle, hroute, hparam]

end Chainlog
