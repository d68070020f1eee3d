import Chainlog.ReplyBodies

/-!
# Remote calls

A call of the client is the handler's function at the call's own arguments:
the URL, the routes and the extractors hand them over, and the client reads
what the handler answered.  Only a body that is nested too deep is lost.
-/

namespace Chainlog

variable {round : FloatBits → FloatBits}

/-! ## Queries -/

theorem parseU64_toDigits (n : UInt64) :
    parseU64 (Nat.toDigits 10 n.toNat) = some n := by
  have hpad : Nat.toDigits 10 n.toNat = Decimal.pad 0 n.toNat := by
    simp [Decimal.pad]
  have hnumeral := Decimal.numeral_pad 0 n.toNat
  have hvalue : Nat.ofDigitChars 10 (Decimal.pad 0 n.toNat) 0 = n.toNat :=
    Decimal.value_pad 0 n.toNat
  rw [← hpad] at hnumeral hvalue
  have hsign : ∀ rest, Nat.toDigits 10 n.toNat ≠ '+' :: rest := by
    intro rest h
    have hdigit := hnumeral '+' (by simp [h])
    exact absurd hdigit (by decide)
  have hall : (Nat.toDigits 10 n.toNat).all Char.isDigit = true := by
    rw [List.all_eq_true]
    exact hnumeral
  simp only [parseU64, hvalue]
  rw [if_pos ⟨Nat.toDigits_ne_nil, hall, n.toNat_lt⟩, UInt64.ofNat_toNat]

theorem readU64Text_u64Text (n : UInt64) : readU64Text (u64Text n) = .ok n := by
  rw [readU64Text, u64Text, String.toList_ofList, parseU64_toDigits]

/-- A pair of letters and digits. -/
def PlainPair (pair : String × String) : Prop :=
  (∀ c ∈ pair.1.toList, c.isAlphanum = true) ∧
    ∀ c ∈ pair.2.toList, c.isAlphanum = true

theorem plain_u64Text (n : UInt64) :
    ∀ c ∈ (u64Text n).toList, c.isAlphanum = true := by
  intro c hc
  rw [u64Text, String.toList_ofList] at hc
  have hpad : Nat.toDigits 10 n.toNat = Decimal.pad 0 n.toNat := by
    simp [Decimal.pad]
  rw [hpad] at hc
  have hdigit := Decimal.numeral_pad 0 n.toNat c hc
  simp [Char.isAlphanum, hdigit]

theorem plain_readPairs (fromSeq toSeq : Option UInt64) (decrypt : Bool) :
    ∀ pair ∈ Client.readPairs fromSeq toSeq decrypt, PlainPair pair := by
  have hname : ∀ name ∈ ["decrypt", "from", "to", "true", "false"],
      ∀ c ∈ name.toList, c.isAlphanum = true := by
    have hall : ["decrypt", "from", "to", "true", "false"].all
        (fun name => name.toList.all Char.isAlphanum) = true := rfl
    intro name hmem
    exact List.all_eq_true.mp (List.all_eq_true.mp hall name hmem)
  intro pair hpair
  have hcases : pair = ("decrypt", boolText decrypt) ∨
      (∃ seq, pair = ("from", u64Text seq)) ∨
        ∃ seq, pair = ("to", u64Text seq) := by
    cases fromSeq <;> cases toSeq <;> simp [Client.readPairs] at hpair <;> grind
  rcases hcases with rfl | ⟨seq, rfl⟩ | ⟨seq, rfl⟩
  · refine ⟨hname _ (by simp), ?_⟩
    cases decrypt
    · exact hname "false" (by simp)
    · exact hname "true" (by simp)
  · exact ⟨hname _ (by simp), plain_u64Text seq⟩
  · exact ⟨hname _ (by simp), plain_u64Text seq⟩

theorem ofPairs_readPairs (fromSeq toSeq : Option UInt64) (decrypt : Bool) :
    ReadQuery.ofPairs (Client.readPairs fromSeq toSeq decrypt) =
      .ok { fromSeq, toSeq, decrypt } := by
  have hbool : readBoolText (boolText decrypt) = .ok decrypt := by
    cases decrypt <;> rfl
  cases fromSeq <;> cases toSeq <;>
  simp [ReadQuery.ofPairs, Client.readPairs, pairMember, pairField,
    readU64Text_u64Text, hbool, bind, Except.bind, pure, Except.pure, Except.map]

theorem proofQueryOfPairs_seq (seq : UInt64) :
    proofQueryOfPairs [("seq", u64Text seq)] = .ok seq := by
  simp [proofQueryOfPairs, pairField, readU64Text_u64Text, bind, Except.bind]

/-! ## Libraries -/

/-- A character of the API's own paths. -/
def isPathLetter (c : Char) : Bool := c.isAlphanum || c = '-' || c = '/'

/-- Behind a path of letters, what is written behind a question mark is the
query. -/
def UrlLibrary.QueryFollows (urls : UrlLibrary) (escaped : Char → Bool)
    (base : String) : Prop :=
  ∀ text pairs, text.toList.all isPathLetter = true →
    (∀ pair ∈ pairs, PlainPair pair) →
      urls.target (base ++ "/" ++ text ++ "?" ++ queryText pairs) =
        .ok (pathOf escaped ("/" ++ text), some (queryText pairs))

/-- `Query` reads the pairs that were written. -/
structure Extractors.ReadsPairs (axum : Extractors) : Prop where
  records : ∀ pairs query, (∀ pair ∈ pairs, PlainPair pair) →
    ReadQuery.ofPairs pairs = .ok query →
      axum.readQuery (some (queryText pairs)) = .ok query
  proof : ∀ pairs seq, (∀ pair ∈ pairs, PlainPair pair) →
    proofQueryOfPairs pairs = .ok seq →
      axum.proofQuery (some (queryText pairs)) = .ok seq

/-- The client's base names the server, and its tokens can be sent. -/
structure Client.Connected (axum : Extractors) (urls : UrlLibrary)
    (escaped : Char → Bool) (client : Client) : Prop where
  path : urls.PathFollows escaped client.base ""
  query : urls.QueryFollows escaped client.base
  letters : ∀ c, isPathLetter c = true → escaped c = false
  escapes : UrlPath.KeepsEscapes escaped
  decodes : axum.DecodesPath
  pairs : axum.ReadsPairs
  tokens : ∀ token, client.writeToken = some token ∨
    client.readToken = some token ∨ client.adminToken = some token →
      headerValid (asBytes ("Bearer " ++ token)) = true

namespace ClientCall

/-- The token that the call bears. -/
def token (client : Client) : ClientCall → Except ClientError String
  | .append _ => client.writeTok
  | .createKey _ | .shredKey _ | .listKeys => client.adminTok
  | _ => client.readTok

/-- The request's body is read back, and a key id has no meaning in a URL but
reaches the handlers of keys. -/
def Sendable (serde : SerdeJson) (axum : Extractors) (escaped : Char → Bool) :
    ClientCall → Prop
  | .append req => axum.toAxum.ReadsBack serde req.toDocument
  | .createKey keyId | .shredKey keyId =>
      ReachesKeys escaped "" keyId ∧ UrlPath.Verbatim keyId.toList
  | _ => True

/-- The request reaches the call's handler with the call's arguments. -/
def Arrives (axum : Extractors) (token : String) (call : ClientCall)
    (request : ApiRequest) : Prop :=
  request.headers = bearing token ∧
  match call with
  | .append req => request.endpoint = .ok .append ∧
      axum.json request.toHttpRequest = .ok req.toDocument
  | .read fromSeq toSeq decrypt => request.endpoint = .ok (.get .readRecords) ∧
      axum.readQuery request.query = .ok { fromSeq, toSeq, decrypt }
  | .head => request.endpoint = .ok (.get .head)
  | .verify => request.endpoint = .ok (.get .verify)
  | .checkpoint => request.endpoint = .ok (.get .checkpoint)
  | .merkleAnchor => request.endpoint = .ok (.get .merkleAnchor)
  | .merkleProof seq => request.endpoint = .ok (.get .merkleProof) ∧
      axum.proofQuery request.query = .ok seq
  | .createKey keyId => ∃ segment,
      request.endpoint = .ok (.createKey segment) ∧
        axum.pathParam segment = .ok keyId
  | .shredKey keyId => ∃ segment,
      request.endpoint = .ok (.shredKey segment) ∧
        axum.pathParam segment = .ok keyId
  | .listKeys => request.endpoint = .ok (.get .listKeys)

end ClientCall

/-! ## Requests arrive -/

theorem tokenOf_eq_ok {configured : Option String} {name bearer : String}
    (h : (match configured with
      | some token => Except.ok token
      | none => .error (ClientError.missingToken name)) = .ok bearer) :
    configured = some bearer := by
  cases configured with
  | none => cases h
  | some token => rw [Except.ok.inj h]

/-- The fixed paths of the API. -/
def apiPaths : List String :=
  ["v1/records", "v1/head", "v1/verify", "v1/checkpoint", "v1/merkle-anchor",
    "v1/merkle-proof", "v1/keys"]

theorem isPathLetter_apiPath :
    ∀ text ∈ apiPaths, text.toList.all isPathLetter = true := by
  decide

section Arriving

variable {axum : Extractors} {urls : UrlLibrary} {escaped : Char → Bool}
  {client : Client} (hconnected : client.Connected axum urls escaped)

include hconnected

theorem pathOf_apiPath {text : String} (htext : text ∈ apiPaths) :
    pathOf escaped ("/" ++ text) = pathOf (fun _ => false) ("/" ++ text) := by
  unfold pathOf
  rw [UrlPath.path_of_kept]
  intro c hc
  rw [String.toList_append, List.mem_append] at hc
  rcases hc with hc | hc
  · obtain rfl := List.mem_singleton.mp hc
    exact hconnected.letters '/' rfl
  · have hall := List.all_eq_true.mp (isPathLetter_apiPath text htext)
    exact hconnected.letters c (hall c hc)

theorem delivered_getRequest {token : Except ClientError String}
    {bearer text : String} (htoken : token = .ok bearer)
    (htext : text ∈ apiPaths) {pairs : List (String × String)}
    (hpairs : ∀ pair ∈ pairs, PlainPair pair) :
    ∃ sent request,
      client.getRequest token ("/" ++ text) pairs = .ok sent ∧
      sent.headers = bearing bearer ∧
      sent.delivered urls = .ok request ∧
      request.headers = bearing bearer ∧ request.method = .get ∧
      request.path = pathOf (fun _ => false) ("/" ++ text) ∧
      (pairs ≠ [] → request.query = some (queryText pairs)) := by
  obtain ⟨query, hquery, htarget⟩ : ∃ query,
      (pairs ≠ [] → query = some (queryText pairs)) ∧
      urls.target (client.url ("/" ++ text) ++
          if pairs.isEmpty then "" else "?" ++ queryText pairs) =
        .ok (pathOf escaped ("/" ++ text), query) := by
    by_cases hnil : pairs = []
    · subst hnil
      obtain ⟨query, htarget⟩ := hconnected.path.parses text
      have hjoin : client.base ++ "/" ++ text =
          client.url ("/" ++ text) ++ "" := by
        rw [Client.url, String.append_empty, String.append_assoc]
      have hstart : "" ++ "/" ++ text = "/" ++ text := by
        rw [String.empty_append]
      rw [hjoin, hstart] at htarget
      exact ⟨query, fun h => absurd rfl h, htarget⟩
    · have htarget := hconnected.query text pairs (isPathLetter_apiPath text htext)
        hpairs
      have hjoin : client.base ++ "/" ++ text ++ "?" ++ queryText pairs =
          client.url ("/" ++ text) ++ ("?" ++ queryText pairs) := by
        rw [Client.url]
        simp only [String.append_assoc]
      rw [hjoin] at htarget
      refine ⟨_, fun _ => rfl, ?_⟩
      rw [if_neg (by simpa using hnil)]
      exact htarget
  let sent : ClientRequest := {
    method := .get
    url := client.url ("/" ++ text) ++
      if pairs.isEmpty then "" else "?" ++ queryText pairs
    headers := bearing bearer
    contentType := none
    body := [] }
  let request : ApiRequest := {
    headers := bearing bearer
    contentType := none
    body := []
    method := .get
    path := pathOf escaped ("/" ++ text)
    query }
  have hsent : client.getRequest token ("/" ++ text) pairs = .ok sent := by
    rw [Client.getRequest, htoken]
    rfl
  have hdelivered : sent.delivered urls = .ok request := by
    simp only [ClientRequest.delivered, sent, htarget, bind, Except.bind, pure,
      Except.pure, request]
  have hpath := pathOf_apiPath hconnected htext
  exact ⟨sent, request, hsent, rfl, hdelivered, rfl, rfl, hpath, hquery⟩

theorem delivered_append {serde : SerdeJson} {req : AppendRequest}
    {bearer : String} (htoken : client.writeToken = some bearer)
    (hread : axum.toAxum.ReadsBack serde req.toDocument) :
    ∃ sent request, client.append serde req = .ok sent ∧
      sent.headers = bearing bearer ∧ sent.delivered urls = .ok request ∧
      request.headers = bearing bearer ∧ request.endpoint = .ok .append ∧
      axum.json request.toHttpRequest = .ok req.toDocument := by
  obtain ⟨query, htarget⟩ := hconnected.path.parses "v1/records"
  have hjoin : client.base ++ "/" ++ "v1/records" =
      client.url "/v1/records" := by
    rw [Client.url, String.append_assoc]
    rfl
  have hpath : pathOf escaped ("" ++ "/" ++ "v1/records") =
      ["v1", "records"] := by
    have hstart : "" ++ "/" ++ "v1/records" = "/" ++ "v1/records" := by
      rw [String.empty_append]
    rw [hstart, pathOf_apiPath hconnected (by simp [apiPaths])]
    decide
  rw [hjoin, hpath] at htarget
  let request : ApiRequest := {
    headers := bearing bearer
    contentType := some (asBytes "application/json")
    body := serde.toVec req.toDocument
    method := .post
    path := ["v1", "records"]
    query }
  refine ⟨_, request, by
      rw [Client.append, Client.writeTok, htoken]
      rfl, rfl, ?_, rfl, rfl, hread _ rfl rfl⟩
  simp only [ClientRequest.delivered, htarget, bind, Except.bind, pure,
    Except.pure]
  rfl

theorem delivered_key {method : Method} {keyId bearer : String}
    (htoken : client.adminToken = some bearer)
    (hreaches : ReachesKeys escaped "" keyId)
    (hverbatim : UrlPath.Verbatim keyId.toList) :
    ∃ sent request segment, client.keyRequest method keyId = .ok sent ∧
      sent.headers = bearing bearer ∧ sent.delivered urls = .ok request ∧
      request.headers = bearing bearer ∧ request.method = method ∧
      request.path = ["v1", "keys", segment] ∧ segment ≠ "" ∧
      axum.pathParam segment = .ok keyId := by
  obtain ⟨sent, hsent⟩ :
      ∃ sent, client.keyRequest method keyId = .ok sent := by
    rw [Client.keyRequest, Client.adminTok, htoken]
    exact ⟨_, rfl⟩
  have hheaders : sent.headers = bearing bearer := by
    rw [Client.keyRequest, Client.adminTok, htoken] at hsent
    obtain rfl := Except.ok.inj hsent
    rfl
  obtain ⟨request, hdelivered, hpath, hsame, _⟩ :=
    ClientRequest.exists_delivered hconnected.path hsent
  have hbears : request.headers = bearing bearer := by
    unfold ClientRequest.delivered at hdelivered
    obtain ⟨target, _, hrequest⟩ := bind_eq_ok.mp hdelivered
    obtain rfl := Except.ok.inj hrequest
    exact hheaders
  obtain ⟨segment, text, hreached, hsegment, hdecode⟩ := hreaches
  have htext : text = keyId :=
    (text_of_reached hconnected.escapes hconnected.path.plain hreached hsegment
      hdecode).mpr hverbatim
  have hparam := hconnected.decodes segment
  rw [hdecode, htext] at hparam
  exact ⟨sent, request, segment, hsent, hheaders, hdelivered, hbears, hsame,
    hpath.trans hreached, hsegment, hparam⟩

theorem arrives_getter {token : Except ClientError String} {bearer text : String}
    (htoken : token = .ok bearer) (htext : text ∈ apiPaths) {getter : Getter}
    (hroute : route .get (pathOf (fun _ => false) ("/" ++ text)) =
      .ok (.get getter)) :
    ∃ sent request, client.getRequest token ("/" ++ text) [] = .ok sent ∧
      sent.headers = bearing bearer ∧ sent.delivered urls = .ok request ∧
      request.headers = bearing bearer ∧ request.endpoint = .ok (.get getter) := by
  have hnone : ∀ pair ∈ ([] : List (String × String)), PlainPair pair := by simp
  obtain ⟨sent, request, hsent, hheaders, hdelivered, hbears, hmethod, hpath,
    _⟩ := delivered_getRequest hconnected htoken htext hnone
  refine ⟨sent, request, hsent, hheaders, hdelivered, hbears, ?_⟩
  rw [ApiRequest.endpoint, hmethod, hpath]
  exact hroute

/-- A call with a token reaches its handler, with its arguments. -/
theorem exists_arrives {serde : SerdeJson} (call : ClientCall) {bearer : String}
    (htoken : call.token client = .ok bearer)
    (hsendable : call.Sendable serde axum escaped) :
    ∃ sent request, client.request serde call = .ok sent ∧
      sent.headers = bearing bearer ∧ sent.delivered urls = .ok request ∧
      call.Arrives axum bearer request := by
  cases call with
  | append req =>
      have hwrite : client.writeToken = some bearer := tokenOf_eq_ok htoken
      obtain ⟨sent, request, hsent, hheaders, hdelivered, hbears, hroute,
        hjson⟩ := delivered_append hconnected hwrite hsendable
      exact ⟨sent, request, hsent, hheaders, hdelivered, hbears, hroute, hjson⟩
  | read fromSeq toSeq decrypt =>
      have hplain := plain_readPairs fromSeq toSeq decrypt
      have hpath : "v1/records" ∈ apiPaths := by simp [apiPaths]
      obtain ⟨sent, request, hsent, hheaders, hdelivered, hbears, hmethod, hpath,
        hquery⟩ := delivered_getRequest hconnected htoken hpath hplain
      refine ⟨sent, request, hsent, hheaders, hdelivered, hbears, ?_, ?_⟩
      · rw [ApiRequest.endpoint, hmethod, hpath]
        decide
      · rw [hquery (by simp [Client.readPairs])]
        exact hconnected.pairs.records _ _ hplain (ofPairs_readPairs _ _ _)
  | merkleProof seq =>
      have hplain : ∀ pair ∈ [("seq", u64Text seq)], PlainPair pair := by
        intro pair hpair
        rw [List.mem_singleton.mp hpair]
        have hname : ∀ c ∈ "seq".toList, c.isAlphanum = true :=
          List.all_eq_true.mp rfl
        exact ⟨hname, plain_u64Text seq⟩
      have hpath : "v1/merkle-proof" ∈ apiPaths := by simp [apiPaths]
      obtain ⟨sent, request, hsent, hheaders, hdelivered, hbears, hmethod, hpath,
        hquery⟩ := delivered_getRequest hconnected htoken hpath hplain
      refine ⟨sent, request, hsent, hheaders, hdelivered, hbears, ?_, ?_⟩
      · rw [ApiRequest.endpoint, hmethod, hpath]
        decide
      · rw [hquery (by simp)]
        exact hconnected.pairs.proof _ _ hplain (proofQueryOfPairs_seq seq)
  | createKey keyId =>
      obtain ⟨sent, request, segment, hsent, hheaders, hdelivered, hbears,
        hmethod, hpath, hsegment, hparam⟩ := delivered_key hconnected
          (tokenOf_eq_ok htoken) hsendable.1 hsendable.2
      refine ⟨sent, request, hsent, hheaders, hdelivered, hbears, segment, ?_,
        hparam⟩
      rw [ApiRequest.endpoint, hmethod, hpath]
      simp [route, hsegment]
  | shredKey keyId =>
      obtain ⟨sent, request, segment, hsent, hheaders, hdelivered, hbears,
        hmethod, hpath, hsegment, hparam⟩ := delivered_key hconnected
          (tokenOf_eq_ok htoken) hsendable.1 hsendable.2
      refine ⟨sent, request, hsent, hheaders, hdelivered, hbears, segment, ?_,
        hparam⟩
      rw [ApiRequest.endpoint, hmethod, hpath]
      simp [route, hsegment]
  | head =>
      have hpath : "v1/head" ∈ apiPaths := by simp [apiPaths]
      exact arrives_getter hconnected htoken hpath (by decide)
  | verify =>
      have hpath : "v1/verify" ∈ apiPaths := by simp [apiPaths]
      exact arrives_getter hconnected htoken hpath (by decide)
  | checkpoint =>
      have hpath : "v1/checkpoint" ∈ apiPaths := by simp [apiPaths]
      exact arrives_getter hconnected htoken hpath (by decide)
  | merkleAnchor =>
      have hpath : "v1/merkle-anchor" ∈ apiPaths := by simp [apiPaths]
      exact arrives_getter hconnected htoken hpath (by decide)
  | listKeys =>
      have hpath : "v1/keys" ∈ apiPaths := by simp [apiPaths]
      exact arrives_getter hconnected htoken hpath (by decide)

end Arriving

/-! ## A client of one server -/

/-- A library that knows the URLs of one server, with their queries. -/
def queryUrls : UrlLibrary where
  target url :=
    match stripPrefix serverBase.toList url.toList with
    | some rest => .ok (pathOf pathSet (String.ofList rest),
        (UrlPath.query rest).map String.ofList)
    | none => .error "relative URL without a base"

theorem queryUrls_target (rest : String) :
    queryUrls.target (serverBase ++ rest) =
      .ok (pathOf pathSet rest,
        (UrlPath.query rest.toList).map String.ofList) := by
  simp only [queryUrls, String.toList_append, stripPrefix_append,
    String.ofList_toList]

theorem queryUrls_pathFollows :
    queryUrls.PathFollows pathSet serverBase "" where
  plain := by simp
  parses rest := by
    refine ⟨(UrlPath.query ("/" ++ rest).toList).map String.ofList, ?_⟩
    rw [String.append_assoc, queryUrls_target, String.append_assoc,
      String.empty_append]

theorem isAlphanum_toNat {c : Char} (hc : c.isAlphanum = true) :
    48 ≤ c.toNat ∧ c.toNat ≤ 122 := by
  delta Char.isAlphanum Char.isAlpha Char.isUpper Char.isLower Char.isDigit at hc
  simp only [Bool.or_eq_true, Bool.and_eq_true, decide_eq_true_eq] at hc
  have hval : c.toNat = c.val.toNat := rfl
  have hle : ∀ a b : UInt32, a ≤ b → a.toNat ≤ b.toNat := fun _ _ h => h
  rcases hc with (⟨hlow, hhigh⟩ | ⟨hlow, hhigh⟩) | ⟨hlow, hhigh⟩
  all_goals
    have hlow := hle _ _ hlow
    have hhigh := hle _ _ hhigh
    simp at hlow hhigh
    omega

theorem isPathLetter_visible {c : Char} (hc : isPathLetter c = true) :
    UrlPath.isBlankEnd c = false ∧ UrlPath.endsPath c = false ∧
      pathSet c = false := by
  simp only [isPathLetter, Bool.or_eq_true, decide_eq_true_eq] at hc
  rcases hc with (hc | rfl) | rfl
  · obtain ⟨hlow, hhigh⟩ := isAlphanum_toNat hc
    have hblank : UrlPath.isBlankEnd c = false := by
      simp only [UrlPath.isBlankEnd, decide_eq_false_iff_not]
      omega
    have hends : UrlPath.endsPath c = false := by
      simp only [UrlPath.endsPath, Bool.or_eq_false_iff, decide_eq_false_iff_not]
      constructor <;> rintro rfl <;> exact absurd hc (by decide)
    refine ⟨hblank, hends, ?_⟩
    simp only [pathSet, Bool.or_eq_false_iff, decide_eq_false_iff_not]
    refine ⟨⟨by omega, by omega⟩, fun hlisted => ?_⟩
    simp only [List.mem_cons, List.not_mem_nil, or_false] at hlisted
    rcases hlisted with rfl | rfl | rfl | rfl | rfl | rfl | rfl | rfl <;>
    exact absurd hc (by decide)
  · decide
  · decide

theorem mem_intercalate {sep : List Char} {pieces : List (List Char)} {c : Char}
    (hc : c ∈ sep.intercalate pieces) :
    c ∈ sep ∨ ∃ piece ∈ pieces, c ∈ piece := by
  induction pieces with
  | nil => cases hc
  | cons piece rest ih =>
      cases rest with
      | nil =>
          rw [List.intercalate_singleton] at hc
          exact Or.inr ⟨piece, List.mem_cons_self, hc⟩
      | cons next rest =>
          rw [List.intercalate_cons_cons, List.mem_append, List.mem_append] at hc
          rcases hc with (hc | hc) | hc
          · exact Or.inr ⟨piece, List.mem_cons_self, hc⟩
          · exact Or.inl hc
          · rcases ih hc with hc | ⟨other, hother, hc⟩
            · exact Or.inl hc
            · exact Or.inr ⟨other, List.mem_cons_of_mem _ hother, hc⟩

/-- The text of one pair. -/
def pairChars (pair : String × String) : List Char :=
  pair.1.toList ++ '=' :: pair.2.toList

theorem toList_queryText (pairs : List (String × String)) :
    (queryText pairs).toList = ['&'].intercalate (pairs.map pairChars) := by
  rw [queryText, String.toList_intercalate, List.map_map]
  have hpieces : pairs.map (String.toList ∘ fun pair => pair.1 ++ "=" ++ pair.2) =
      pairs.map pairChars := by
    apply List.map_congr_left
    intro pair _
    simp [pairChars, String.toList_append]
  rw [hpieces]
  rfl

theorem mem_pairChars {pair : String × String} (hpair : PlainPair pair) {c : Char}
    (hc : c ∈ pairChars pair) : c.isAlphanum = true ∨ c = '=' := by
  rcases List.mem_append.mp hc with hc | hc
  · exact Or.inl (hpair.1 c hc)
  · rcases List.mem_cons.mp hc with hc | hc
    · exact Or.inr hc
    · exact Or.inl (hpair.2 c hc)

theorem mem_queryText {pairs : List (String × String)}
    (hpairs : ∀ pair ∈ pairs, PlainPair pair) :
    ∀ c ∈ (queryText pairs).toList, c.isAlphanum = true ∨ c = '=' ∨ c = '&' := by
  intro c hc
  rw [toList_queryText] at hc
  rcases mem_intercalate hc with hc | ⟨piece, hpiece, hc⟩
  · exact Or.inr (Or.inr (List.mem_singleton.mp hc))
  · obtain ⟨pair, hpair, rfl⟩ := List.mem_map.mp hpiece
    rcases mem_pairChars (hpairs pair hpair) hc with hc | hc
    · exact Or.inl hc
    · exact Or.inr (Or.inl hc)

theorem queryUrls_queryFollows : queryUrls.QueryFollows pathSet serverBase := by
  intro text pairs htext hpairs
  have hfront : ∀ c ∈ '/' :: text.toList,
      UrlPath.isBlankEnd c = false ∧ UrlPath.endsPath c = false := by
    intro c hc
    rcases List.mem_cons.mp hc with rfl | hc
    · decide
    · have hvisible := isPathLetter_visible (List.all_eq_true.mp htext c hc)
      exact ⟨hvisible.1, hvisible.2.1⟩
  have hback : ∀ c ∈ (queryText pairs).toList,
      UrlPath.isBlankEnd c = false ∧ c ≠ '#' := by
    intro c hc
    rcases mem_queryText hpairs c hc with hc | rfl | rfl
    · have hletter : isPathLetter c = true := by simp [isPathLetter, hc]
      refine ⟨(isPathLetter_visible hletter).1, ?_⟩
      rintro rfl
      exact absurd hc (by decide)
    · decide
    · decide
  obtain ⟨hpath, hquery⟩ := UrlPath.path_append_query pathSet hfront hback
  have htoList : ("/" ++ text ++ "?" ++ queryText pairs).toList =
      '/' :: text.toList ++ '?' :: (queryText pairs).toList := by
    simp [String.toList_append]
  have hjoin : serverBase ++ "/" ++ text ++ "?" ++ queryText pairs =
      serverBase ++ ("/" ++ text ++ "?" ++ queryText pairs) := by
    simp only [String.append_assoc]
  have hslash : ("/" ++ text).toList = '/' :: text.toList := by
    simp [String.toList_append]
  rw [hjoin, queryUrls_target, htoList, hquery, pathOf, htoList, hpath, pathOf,
    hslash, Option.map_some, String.ofList_toList]

/-- `form_urlencoded::parse` of a text without escapes. -/
def splitPairs (text : String) : List (String × String) :=
  ((text.toList.splitOn '&').filter (· ≠ [])).map fun piece =>
    (String.ofList (piece.takeWhile (· ≠ '=')),
      String.ofList (piece.dropWhile (· ≠ '=')).tail)

theorem splitPairs_queryText {pairs : List (String × String)}
    (hpairs : ∀ pair ∈ pairs, PlainPair pair) :
    splitPairs (queryText pairs) = pairs := by
  cases pairs with
  | nil => rfl
  | cons first rest =>
      have hletter : ∀ c : Char, c.isAlphanum = true → c ≠ '=' ∧ c ≠ '&' := by
        intro c hc
        constructor <;> rintro rfl <;> exact absurd hc (by decide)
      have hsplit : (queryText (first :: rest)).toList.splitOn '&' =
          (first :: rest).map pairChars := by
        rw [toList_queryText]
        apply List.splitOn_intercalate
        · intro piece hpiece hmem
          obtain ⟨pair, hpair, rfl⟩ := List.mem_map.mp hpiece
          rcases mem_pairChars (hpairs pair hpair) hmem with hc | hc
          · exact (hletter _ hc).2 rfl
          · exact absurd hc (by decide)
        · simp
      have hkept : ((first :: rest).map pairChars).filter (· ≠ []) =
          (first :: rest).map pairChars := by
        rw [List.filter_eq_self]
        intro piece hpiece
        obtain ⟨pair, _, rfl⟩ := List.mem_map.mp hpiece
        simp [pairChars]
      have hpiece : ∀ pair ∈ first :: rest,
          (String.ofList ((pairChars pair).takeWhile (· ≠ '=')),
            String.ofList ((pairChars pair).dropWhile (· ≠ '=')).tail) = pair := by
        intro pair hpair
        have hname : ∀ c ∈ pair.1.toList, decide (c ≠ '=') = true := by
          intro c hc
          exact decide_eq_true (hletter c ((hpairs pair hpair).1 c hc)).1
        rw [pairChars, List.takeWhile_append_of_pos hname,
          List.dropWhile_append_of_pos hname]
        simp
      rw [splitPairs, hsplit, hkept, List.map_map]
      conv_rhs => rw [← List.map_id (first :: rest)]
      exact List.map_congr_left hpiece

/-- Extractors that read a query pair by pair. -/
noncomputable def queryExtractors : Extractors where
  json := decodingExtractors.json
  pathParam := decodingExtractors.pathParam
  readQuery query :=
    (ReadQuery.ofPairs (splitPairs (query.getD ""))).mapError fun reason =>
      { status := .badRequest, message := reason }
  proofQuery query :=
    (proofQueryOfPairs (splitPairs (query.getD ""))).mapError fun reason =>
      { status := .badRequest, message := reason }

theorem queryExtractors_readsPairs : queryExtractors.ReadsPairs where
  records pairs query hpairs hquery := by
    simp only [queryExtractors, Option.getD_some, splitPairs_queryText hpairs,
      hquery, Except.mapError]
  proof pairs seq hpairs hseq := by
    simp only [queryExtractors, Option.getD_some, splitPairs_queryText hpairs,
      hseq, Except.mapError]

/-- A client that may read. -/
def readingClient : Client :=
  { Client.builder "http://127.0.0.1:8888/" with readToken := some "r" }.build

theorem connected_of_base {client : Client} (hbase : client.base = serverBase)
    (htokens : ∀ token, client.writeToken = some token ∨
      client.readToken = some token ∨ client.adminToken = some token →
        headerValid (asBytes ("Bearer " ++ token)) = true) :
    client.Connected queryExtractors queryUrls pathSet := by
  constructor
  · rw [hbase]
    exact queryUrls_pathFollows
  · rw [hbase]
    exact queryUrls_queryFollows
  · intro c hc
    exact (isPathLetter_visible hc).2.2
  · exact keepsEscapes_pathSet
  · exact decodingExtractors_decodesPath
  · exact queryExtractors_readsPairs
  · exact htokens

theorem readingClient_connected :
    readingClient.Connected queryExtractors queryUrls pathSet := by
  apply connected_of_base (by decide)
  rintro token (h | h | h)
  · cases h
  · obtain rfl := Option.some.inj h
    decide
  · cases h

end Chainlog
