import Chainlog.CrashPoints
import Chainlog.Nesting

/-!
# Lost entries

The writer of a running server keeps the head of the log in memory, while the
verify handler reads the log again and does not look at that head.  A log that
lost entries fails to verify unless what is left is a prefix, that is, unless
exactly its tail was cut.
-/

namespace Chainlog

variable (crates : Crates) (axum : Axum)

namespace Engine

/-- The server answers one append request. -/
def Posts (tokens : Tokens) (s t : Engine) : Prop :=
  ∃ request call, s.serve crates axum tokens (.post request call) = .ok t

/-- The writer's head is that of the log it was opened on and what was
acknowledged since, and these form a chain. -/
structure Leads (opened : List AuditEntry) (s : Engine) : Prop where
  chain : (entryChain crates).Follows (chainStart none) (opened ++ s.acked)
  head : s.writer.head = logHead (opened ++ s.acked)

variable {crates axum}

theorem Leads.record {opened : List AuditEntry} {s : Engine}
    (h : s.Leads crates opened) (record : Record) (call : Call) :
    (s.record crates record call).Leads crates opened := by
  rcases s.writer.process_cases crates call record with
    ⟨err, hnext, hprocess⟩ | ⟨entry, store, err, hnext, _, hprocess⟩ |
      ⟨entry, store, hnext, _, hprocess⟩
  · rw [record_of_error crates hnext]
    exact ⟨h.chain, h.head⟩
  · have hacked : (s.record crates record call).acked = s.acked := by
      simp [Engine.record, hprocess, Except.isOk, Except.toBool]
    have hhead : (s.record crates record call).writer.head =
        s.writer.head := by
      simp [Engine.record, hprocess, WriterState.head]
    exact ⟨hacked ▸ h.chain, by rw [hhead, hacked]; exact h.head⟩
  · have hacked : (s.record crates record call).acked = s.acked ++ [entry] := by
      simp [Engine.record, hprocess, hnext, Except.isOk, Except.toBool,
        Except.toOption]
    have hhead : (s.record crates record call).writer.head =
        (entry.seq, entry.entryHash) := by
      simp [Engine.record, hprocess, WriterState.head]
    constructor
    · rw [hacked, ← List.append_assoc]
      exact follows_snoc_nextEntry crates h.chain h.head hnext
    · rw [hhead, hacked, ← List.append_assoc, logHead_snoc]

theorem Leads.posts {opened : List AuditEntry} {tokens : Tokens} {s t : Engine}
    (h : s.Leads crates opened)
    (hrun : Relation.ReflTransGen (Posts crates axum tokens) s t) :
    t.Leads crates opened ∧
      t.writer.store.isSegmented = s.writer.store.isSegmented := by
  induction hrun with
  | refl => exact ⟨h, rfl⟩
  | @tail u v _ hstep ih =>
      obtain ⟨request, call, hserve⟩ := hstep
      cases haccept : (u.app tokens).acceptRecord axum request with
      | error err =>
          simp only [serve, Engine.request, haccept, Except.ok.injEq] at hserve
          exact hserve ▸ ih
      | ok record =>
          rw [serve_of_accepted crates haccept] at hserve
          obtain rfl := Except.ok.inj hserve
          exact ⟨ih.1.record record call,
            (u.writer.isSegmented_process crates call record).trans ih.2⟩

/-- A server that opens a readable, valid log leads it. -/
theorem leads_of_start {mode : Mode} {path : DataPath} {s : Engine}
    {opened : List AuditEntry} (hstart : start crates mode path = .ok s)
    (hdisk : OnDisk crates mode.isSome path opened)
    (hvalid : (verifyEntries crates opened).isValid = true) :
    s.Leads crates opened ∧ s.writer.store.isSegmented = mode.isSome := by
  cases hopen : LogStore.openPath crates mode path with
  | error err => simp [start, hopen, bind, Except.bind] at hstart
  | ok store =>
      have htail := LogStore.openPath_tail crates hdisk hopen
      rw [start_eq crates hopen htail] at hstart
      obtain rfl := Except.ok.inj hstart
      have hchain := (verifyEntriesFrom_isValid crates none opened).mp hvalid
      refine ⟨⟨?_, ?_⟩, LogStore.isSegmented_openPath crates hopen⟩
      · rw [List.append_nil]
        exact hchain
      · rw [List.append_nil]
        rfl

end Engine

variable {crates axum}

theorem readLog_of_onDisk {segmented : Bool} {path : DataPath}
    {entries : List AuditEntry} (h : OnDisk crates segmented path entries) :
    readLog crates path segmented = .ok entries := by
  rcases h with hread | ⟨rfl, rfl⟩
  · rw [readLog, hread]
  · cases segmented <;> rfl

/-- A chain of fewer than `2 ^ 64 - 1` entries stays below the largest
number. -/
theorem seqsBelowMax_of_length {entries : List AuditEntry}
    (hchain : (entryChain crates).Follows (chainStart none) entries)
    (hlength : entries.length < 2 ^ 64 - 1) : SeqsBelowMax entries := by
  intro e he
  obtain ⟨i, hi, rfl⟩ := List.getElem_of_mem he
  rw [toNat_seq_getElem crates hchain (by omega) i hi]
  omega

/-- What is left of a chain verifies exactly if it is a prefix. -/
theorem isValid_iff_prefix_of_sublist {whole left : List AuditEntry}
    (hchain : (entryChain crates).Follows (chainStart none) whole)
    (hlength : whole.length < 2 ^ 64 - 1) (hleft : left.Sublist whole) :
    (verifyEntries crates left).isValid = true ↔ left <+: whole := by
  rw [verifyEntries, verifyEntriesFrom_isValid]
  constructor
  · intro hpart
    exact hchain.prefix_of_subset
      ((seqsBelowMax_of_length hchain hlength).ranked crates) hpart hleft.subset
  · exact hchain.of_prefix

theorem lastHead_ne_of_prefix {whole left : List AuditEntry}
    (hchain : (entryChain crates).Follows (chainStart none) whole)
    (hlength : whole.length < 2 ^ 64) (hinit : left <+: whole)
    (hproper : left ≠ whole) : lastHead left ≠ some (logHead whole) := by
  intro hhead
  have hleft : (logHead left).1.toNat = left.length :=
    toNat_logHead crates (hchain.of_prefix hinit)
      (lt_of_le_of_lt hinit.length_le hlength)
  have hwhole : (logHead whole).1.toNat = whole.length :=
    toNat_logHead crates hchain hlength
  rw [logHead, hhead, Option.getD_some, hwhole] at hleft
  exact hproper (hinit.eq_of_length hleft.symm)

/-- Of the ways to lose entries, exactly the loss of a tail goes unnoticed: the
verify handler then answers 200, with a head that is not the one the head
handler answers. -/
theorem lostEntries_noticed_iff (crates : Crates) (axum : Axum)
    {tokens : Tokens} {mode : Mode} {path lost : DataPath} {s t : Engine}
    {opened left : List AuditEntry} {headers : HeaderMap}
    (hstart : Engine.start crates mode path = .ok s)
    (hdisk : OnDisk crates mode.isSome path opened)
    (hvalid : (verifyEntries crates opened).isValid = true)
    (hrun : Relation.ReflTransGen (Engine.Posts crates axum tokens) s t)
    (hlength : (opened ++ t.acked).length < 2 ^ 64 - 1)
    (hlost : OnDisk crates mode.isSome lost left)
    (hleft : left.Sublist (opened ++ t.acked))
    (hproper : left ≠ opened ++ t.acked)
    (hread : require headers tokens.read = .ok ()) :
    ((∀ report,
        (t.app tokens).verify crates headers lost ≠ .ok (.ok, report)) ↔
      ¬left <+: opened ++ t.acked) ∧
    ((∀ report,
        (t.app tokens).verify crates headers lost = .ok (.ok, report) →
          ∃ head, (t.app tokens).head headers = .ok head ∧
            report.head = some head) ↔
      ¬left <+: opened ++ t.acked) := by
  obtain ⟨hleads, hkind⟩ := Engine.leads_of_start hstart hdisk hvalid
  obtain ⟨⟨hchain, hhead⟩, hkind'⟩ := hleads.posts hrun
  have hsegmented : (t.app tokens).segmented = mode.isSome := hkind'.trans hkind
  have hanswer : (t.app tokens).verify crates headers lost =
      .ok (if (verifyEntries crates left).isValid then .ok else .conflict,
        verifyEntries crates left) := by
    refine verify_of_read crates hread ?_
    rw [hsegmented]
    exact readLog_of_onDisk hlost
  have hok : ∀ report,
      (t.app tokens).verify crates headers lost = .ok (.ok, report) ↔
        left <+: opened ++ t.acked ∧ verifyEntries crates left = report := by
    intro report
    rw [hanswer, ← isValid_iff_prefix_of_sublist hchain hlength hleft]
    cases (verifyEntries crates left).isValid <;> simp
  have hanswerHead : (t.app tokens).head headers =
      .ok (logHead (opened ++ t.acked)) := by
    rw [← hhead]
    simp [AppState.head, Engine.app, hread, bind, Except.bind, pure, Except.pure]
  have hreport : (verifyEntries crates left).head = lastHead left := by
    rw [verifyEntries, verifyEntriesFrom_eq]
  constructor
  · constructor
    · intro hnever hinit
      exact hnever _ ((hok _).mpr ⟨hinit, rfl⟩)
    · intro hinit report hverify
      exact hinit ((hok report).mp hverify).1
  · constructor
    · intro hsame hinit
      obtain ⟨head, hhandler, heq⟩ := hsame _ ((hok _).mpr ⟨hinit, rfl⟩)
      rw [hanswerHead] at hhandler
      obtain rfl := Except.ok.inj hhandler
      rw [hreport] at heq
      exact lastHead_ne_of_prefix hchain (by omega) hinit hproper heq
    · intro hinit report hverify
      exact absurd ((hok report).mp hverify).1 hinit

/-! ## One login, and its loss -/

/-- The server after one accepted login over a missing file. -/
noncomputable def loggedIn : Engine :=
  Engine.onMissing.record referenceCrates
    (alice.withData (Value.ofDocument (nest 0))) (loginCall .synced)

theorem posts_loggedIn :
    Engine.Posts referenceCrates (referenceAxum 127)
      { write := "w", read := "r" } Engine.onMissing loggedIn :=
  ⟨nestedPost 127 0, loginCall .synced, Engine.serve_of_accepted referenceCrates
    (acceptRecord_nestedPost rfl (by decide))⟩

theorem length_acked_loggedIn : loggedIn.acked.length = 1 := by
  have hdata : Value.ofDocument (nest 0) = Value.null :=
    Subtype.ext (by simp [Value.ofDocument, nest, Json.sortKeys, Value.null])
  have hnext : Engine.onMissing.writer.nextEntry referenceCrates
      (loginCall .synced) (alice.withData (Value.ofDocument (nest 0))) =
      .ok (sealEntry referenceCrates 0 genesisPrevHash (loginCall .synced)
        (alice.withData (Value.ofDocument (nest 0))) none) := rfl
  obtain ⟨_, hacked, _⟩ := Engine.holds_onMissing.record_ok hnext rfl
    (by decide) (Engine.parsesBack_of_plain hdata rfl)
  rw [loggedIn, hacked]
  rfl

/-- The loss of the only entry goes unnoticed. -/
theorem lostEntries_noticed_iff_loggedIn :
    (∀ report, (loggedIn.app { write := "w", read := "r" }).verify
        referenceCrates (bearing "r") (.file (.readable [])) ≠
          .ok (.ok, report)) ↔
      ¬[] <+: loggedIn.acked :=
  (lostEntries_noticed_iff referenceCrates (referenceAxum 127)
    Engine.start_onMissing (Or.inr ⟨rfl, rfl⟩) rfl (.single posts_loggedIn)
    (by rw [List.nil_append, length_acked_loggedIn]; decide) (Or.inl rfl)
    (List.nil_sublist _)
    (fun hnil => by
      have hlength := congrArg List.length hnil
      rw [List.nil_append, length_acked_loggedIn] at hlength
      simp at hlength)
    require_bearing).1

/-- After one acknowledged login the file is emptied: the server still answers
200, for a log without a head. -/
theorem emptiedLog_unnoticed :
    let tokens : Tokens := { write := "w", read := "r" }
    Engine.Posts referenceCrates (referenceAxum 127) tokens Engine.onMissing
        loggedIn ∧
      loggedIn.acked.length = 1 ∧
      ∃ report, (loggedIn.app tokens).verify referenceCrates (bearing "r")
          (.file (.readable [])) = .ok (.ok, report) ∧
        (loggedIn.app tokens).head (bearing "r") = .ok loggedIn.writer.head ∧
        report.head ≠ some loggedIn.writer.head := by
  intro tokens
  have hkind : (loggedIn.app tokens).segmented = false := by
    show loggedIn.writer.store.isSegmented = false
    rw [loggedIn, Engine.isSegmented_record]
    rfl
  have hread : readLog referenceCrates (.file (.readable []))
      (loggedIn.app tokens).segmented = .ok [] := by
    rw [hkind]
    rfl
  have hrequire : require (bearing "r") (loggedIn.app tokens).readToken =
      .ok () := require_bearing
  refine ⟨posts_loggedIn, length_acked_loggedIn, verifyEntries referenceCrates [],
    verify_of_read referenceCrates hrequire hread, ?_, fun hhead => ?_⟩
  · simp [AppState.head, hrequire, bind, Except.bind, pure, Except.pure]
  · cases hhead

end Chainlog
