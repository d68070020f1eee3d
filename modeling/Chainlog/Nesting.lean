import Chainlog.Agreement
import Chainlog.Service

/-!
# Nested data

The stored entry nests its data two levels deeper than the record, and the
request one level.  A parser with one nesting limit therefore accepts a request
whose entry it cannot read back.
-/

namespace Chainlog

variable {crates : Crates} {limit : ℕ}

/-- The entry's data, and its PII if it has any, are nested two levels below
the limit. -/
def AuditEntry.FitsBelow (limit : ℕ) (e : AuditEntry) : Prop :=
  e.payload.data.depth + 2 ≤ limit ∧ (e.payload.pii.isSome → 3 ≤ limit)

theorem depth_le_iff_fitsBelow (e : AuditEntry) :
    e.toDocument.depth ≤ limit ↔ e.FitsBelow limit := by
  rw [AuditEntry.depth_toDocument, AuditEntry.FitsBelow]
  cases e.payload.pii with
  | none => simp
  | some pii =>
      simp only [Option.isSome_some, if_true, true_implies]
      omega

theorem parsesBack_iff_fitsBelow (hserde : crates.serde.InvertsUpTo limit)
    (e : AuditEntry) : ParsesBack crates e ↔ e.FitsBelow limit := by
  rw [parsesBack_iff_of_invertsUpTo crates hserde, depth_le_iff_fitsBelow]

/-- A line that does not parse back makes the file unreadable. -/
theorem readFile_append_error {content : Bytes} {entry : AuditEntry}
    {reason : String} (hterminated : Lines.Terminated newline content)
    (hdecode : decodeEntry crates (entryText crates entry) = .error reason) :
    ∃ err, readFile crates
      (.readable (content ++ entryLine crates entry)) = .error err := by
  rw [readFile_append crates hterminated, readFile_entryLine, hdecode]
  cases readFile crates (.readable content) with
  | error err => exact ⟨err, rfl⟩
  | ok entries => exact ⟨.serde reason, rfl⟩

namespace Engine

/-- An accepted record that does not fit makes the log unreadable. -/
theorem Holds.not_intact_of_not_fitsBelow
    (hserde : crates.serde.InvertsUpTo limit) {s : Engine}
    {entries : List AuditEntry} (h : s.Holds crates entries) {record : Record}
    {call : Call} {entry : AuditEntry}
    (hnext : s.writer.nextEntry crates call record = .ok entry)
    (hio : call.io = .ok) (hlength : entries.length + 1 < 2 ^ 64)
    (hdeep : ¬entry.FitsBelow limit) :
    ¬(s.record crates record call).Intact crates ∧
      ¬(s.record crates record call).Reopens crates := by
  rw [← parsesBack_iff_fitsBelow hserde,
    parsesBack_iff_of_invertsUpTo crates hserde] at hdeep
  obtain ⟨reason, hreject⟩ := (hserde entry.toDocument).2 (by omega)
  have hdecode : decodeEntry crates (entryText crates entry) =
      .error reason := by
    simp [decodeEntry, entryText, hreject, bind, Except.bind]
  obtain ⟨j, before, current, hready, _, rfl⟩ := h
  have hcounter : s.writer.seq.toNat + 1 < 2 ^ 64 := by
    rw [hready.toNat_seq]
    exact hlength
  obtain ⟨hfirst, _⟩ := hready.opened hnext hcounter
  obtain ⟨hstore, _⟩ := recorded crates hready.represents hnext hfirst
  have hterminated : Lines.Terminated newline (j.opened entry).content := by
    rw [j.opened_content]
    exact hready.terminated
  obtain ⟨err, herror⟩ := readFile_append_error hterminated hdecode
  rw [hio, j.append_ok] at hstore
  exact not_intact_of_unreadable crates hstore herror

/-- An accepted record leaves the log readable exactly if it fits. -/
theorem Holds.intact_record_iff (hserde : crates.serde.InvertsUpTo limit)
    {s : Engine} {entries : List AuditEntry} (h : s.Holds crates entries)
    {record : Record} {call : Call} {entry : AuditEntry}
    (hnext : s.writer.nextEntry crates call record = .ok entry)
    (hio : call.io = .ok) (hlength : entries.length + 1 < 2 ^ 64) :
    ((s.record crates record call).Intact crates ∧
      (s.record crates record call).Reopens crates) ↔
        entry.FitsBelow limit := by
  constructor
  · rintro ⟨hintact, _⟩
    by_contra hdeep
    exact (h.not_intact_of_not_fitsBelow hserde hnext hio hlength hdeep).1
      hintact
  · intro hfits
    obtain ⟨hholds, _⟩ := h.record_ok hnext hio hlength
      ((parsesBack_iff_fitsBelow hserde entry).mpr hfits)
    exact ⟨hholds.intact, hholds.reopens⟩

/-- For every run of record calls and restarts, and for every run of the
server, in which no failed append does harm and all data is nested at least two
levels below the limit: the log is readable, holds every acknowledged entry and
can be reopened. -/
theorem acceptedAppends_keep_readable (crates : Crates) (limit : ℕ)
    (hserde : crates.serde.InvertsUpTo limit) {mode : Mode} {s : Engine}
    (hstart : start crates mode .missing = .ok s) :
    (∀ t, Runs crates (Harmless crates (AuditEntry.FitsBelow limit)) s t →
        t.Intact crates ∧ t.Reopens crates) ∧
      ∀ (axum : Axum) (tokens : Tokens) (t : Engine),
        Relation.ReflTransGen (Serves crates axum tokens
            (Harmless crates (AuditEntry.FitsBelow limit))) s t →
          t.Intact crates ∧ t.Reopens crates := by
  have hruns : ∀ t,
      Runs crates (Harmless crates (AuditEntry.FitsBelow limit)) s t →
        t.Intact crates ∧ t.Reopens crates := by
    intro t hrun
    have hfresh := (start_missing crates hstart).1
    obtain ⟨j, before, current, hsound⟩ :=
      hfresh.runs (fun e he => (parsesBack_iff_fitsBelow hserde e).mpr he) hrun
    exact ⟨hsound.intact, hsound.reopens⟩
  exact ⟨hruns, fun axum tokens t hrun =>
    hruns t (runs_of_serves crates axum hrun)⟩

theorem acceptedAppends_keep_readable_login :
    ∃ t, Runs referenceCrates
        (Harmless referenceCrates (AuditEntry.FitsBelow 127)) onMissing t ∧
      0 < t.acked.length ∧ t.Intact referenceCrates ∧
        t.Reopens referenceCrates := by
  have hempty := holds_of_start start_onMissing
  obtain ⟨_, hacked, _⟩ := hempty.record_ok nextEntry_onMissing rfl
    (by decide) (parsesBack_sealEntry_alice _ _ _)
  obtain ⟨_, _, _, hready, _, hentries⟩ := hempty
  have hharmless : onMissing.Harmless referenceCrates
      (AuditEntry.FitsBelow 127) (.record alice (loginCall .synced)) :=
    hready.harmless (by rw [hentries]; decide) rfl (fun _ => rfl)
      fun e hnext =>
        (parsesBack_iff_fitsBelow (referenceSerde_invertsUpTo 127) e).mp
          (parsesBack_of_alice hnext)
  have hrun : Runs referenceCrates
      (Harmless referenceCrates (AuditEntry.FitsBelow 127)) onMissing _ :=
    .single ⟨_, hharmless, rfl⟩
  refine ⟨_, hrun, ?_, (acceptedAppends_keep_readable referenceCrates 127
    (referenceSerde_invertsUpTo 127) start_onMissing).1 _ hrun⟩
  rw [hacked, List.length_append, List.length_singleton]
  exact Nat.succ_pos _

end Engine

/-! ## A request that poisons the log -/

/-- The JSON of a request is read exactly if it is nested at most `limit`
deep. -/
def Axum.InvertsUpTo (axum : Axum) (serde : SerdeJson) (limit : ℕ) : Prop :=
  ∀ request doc, request.contentType = some (asBytes "application/json") →
    request.body = serde.toVec doc →
      (doc.depth ≤ limit → axum.json request = .ok doc) ∧
        (limit < doc.depth → ∃ err, axum.json request = .error err)

/-- An extractor over the reference parser. -/
noncomputable def referenceAxum (limit : ℕ) : Axum where
  json request :=
    if request.contentType = some (asBytes "application/json") then
      match fromUtf8 request.body with
      | some text => (referenceParse limit text).mapError fun reason =>
          { status := .badRequest, message := reason }
      | none =>
          .error { status := .badRequest, message := "invalid unicode" }
    else
      .error { status := .unsupportedMediaType
               message := "Expected request with `Content-Type: application/json`" }

theorem referenceAxum_invertsUpTo (limit : ℕ) :
    (referenceAxum limit).InvertsUpTo (referenceSerde limit) limit := by
  intro request doc htype hbody
  have hread : (referenceAxum limit).json request =
      (referenceParse limit (referenceText doc)).mapError fun reason =>
        { status := .badRequest, message := reason } := by
    simp [referenceAxum, htype, hbody, SerdeJson.toVec, referenceSerde]
  rw [hread, referenceParse_text]
  constructor
  · intro hdepth
    rw [if_pos hdepth]
    rfl
  · intro hdepth
    rw [if_neg (by omega)]
    exact ⟨_, rfl⟩

def nest : ℕ → Document
  | 0 => .null
  | n + 1 => .array [nest n]

theorem depth_nest (n : ℕ) : (nest n).depth = n := by
  induction n with
  | zero => simp [nest]
  | succ n ih => simp [nest, ih]

theorem sortKeys_nest (n : ℕ) : (nest n).sortKeys = nest n := by
  apply Json.sortKeys_eq_self
  induction n with
  | zero => simp [nest, Json.Sorted]
  | succ n ih => simp [nest, Json.Sorted, Json.SortedItems, ih]

/-- A login whose data is nested `n` deep. -/
def nestedRequest (n : ℕ) : Document :=
  .object [("event_type", .string "login"), ("outcome", .string "success"),
    ("actor", .string "alice"), ("data", nest n)]

theorem depth_nestedRequest (n : ℕ) : (nestedRequest n).depth = n + 1 := by
  simp [nestedRequest, depth_nest]

theorem depth_ofDocument_nest (n : ℕ) :
    (Value.ofDocument (nest n)).depth = n := by
  rw [Value.depth, Value.toDocument, Value.ofDocument]
  simp only [sortKeys_nest, depth_nest]

noncomputable def nestedPost (limit n : ℕ) : HttpRequest where
  headers := bearing "w"
  contentType := some (asBytes "application/json")
  body := (referenceSerde limit).toVec (nestedRequest n)

theorem require_bearing_write : require (bearing "w") "w" = .ok () := by decide

theorem acceptRecord_nestedPost {σ : Type} {st : AppState σ} {limit n : ℕ}
    (htoken : st.writeToken = "w") (hlimit : n + 1 ≤ limit) :
    st.acceptRecord (referenceAxum limit) (nestedPost limit n) =
      .ok (alice.withData (Value.ofDocument (nest n))) := by
  have hjson : (referenceAxum limit).json (nestedPost limit n) =
      .ok (nestedRequest n) :=
    (referenceAxum_invertsUpTo limit _ _ rfl rfl).1
      (by rw [depth_nestedRequest]; exact hlimit)
  have hread : RecordRequest.ofDocument (nestedRequest n) =
      .ok ⟨"login", .success, "alice", none, Value.ofDocument (nest n), none,
        "master"⟩ := rfl
  have hrequire : require (nestedPost limit n).headers st.writeToken =
      .ok () := by
    rw [htoken]
    exact require_bearing_write
  simp only [AppState.acceptRecord, hjson, hread, hrequire, bind, Except.bind,
    Except.mapError, pure, Except.pure]
  rfl

/-- A request at the limit is answered with 201, and the log cannot be read any
more. -/
theorem deepRequest_poisons_log :
    let tokens : Tokens := { write := "w", read := "r" }
    (referenceSerde 127).InvertsUpTo 127 ∧
      (referenceAxum 127).InvertsUpTo (referenceSerde 127) 127 ∧
      (∃ receipt, ((Engine.onMissing.app tokens).append referenceCrates
        (referenceAxum 127) (nestedPost 127 126) (loginCall .synced)).2 =
          .ok (.created, receipt)) ∧
      ∃ t, Engine.onMissing.serve referenceCrates (referenceAxum 127) tokens
          (.post (nestedPost 127 126) (loginCall .synced)) = .ok t ∧
        ¬t.Intact referenceCrates ∧ ¬t.Reopens referenceCrates := by
  intro tokens
  let record : Record := alice.withData (Value.ofDocument (nest 126))
  have haccept : (Engine.onMissing.app tokens).acceptRecord (referenceAxum 127)
      (nestedPost 127 126) = .ok record :=
    acceptRecord_nestedPost rfl (by decide)
  refine ⟨referenceSerde_invertsUpTo 127, referenceAxum_invertsUpTo 127, ?_, ?_⟩
  · rw [AppState.append_of_accepted referenceCrates haccept]
    exact ⟨_, rfl⟩
  · refine ⟨Engine.onMissing.record referenceCrates record (loginCall .synced),
      Engine.serve_of_accepted referenceCrates haccept, ?_⟩
    have hempty := Engine.holds_of_start Engine.start_onMissing
    refine hempty.not_intact_of_not_fitsBelow (referenceSerde_invertsUpTo 127)
      rfl rfl (by decide) fun hfits => ?_
    have hdepth : (Value.ofDocument (nest 126)).depth + 2 ≤ 127 := hfits.1
    rw [depth_ofDocument_nest] at hdepth
    omega

end Chainlog
