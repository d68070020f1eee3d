import Chainlog.FaultFree

/-!
# Restarts and backends

A sequence of records is split into sessions.  Each session opens the same
path, in the file or segmented mode with a limit of its own, builds a writer
and processes its records.  Without faults the result is that of one session
over a memory store.
-/

namespace Chainlog

variable (crates : Crates)

def WriterState.processAll {σ : Type} [Store σ] (writer : WriterState σ) :
    List (Call × Record) → WriterState σ × List (Result Receipt)
  | [] => (writer, [])
  | (call, record) :: rest =>
      let (writer, reply) := writer.process crates call record
      let (writer, replies) := writer.processAll rest
      (writer, reply :: replies)

/-- One session: the mode that opens the store, and its record calls. -/
structure Session where
  mode : Mode
  calls : List (Call × Record)

/-- Open the path, build a writer and process the session's records. -/
def runSession (path : DataPath) (session : Session) :
    Result (DataPath × List (Result Receipt)) := do
  let store ← LogStore.openPath crates session.mode path
  let writer ← Builder.build { store := some store, hasProvider := true }
  let (writer, replies) := writer.processAll crates session.calls
  return (writer.store.disk, replies)

def runSessions (path : DataPath) :
    List Session → Result (DataPath × List (Result Receipt))
  | [] => .ok (path, [])
  | session :: rest => do
      let (path, replies) ← runSession crates path session
      let (path, more) ← runSessions path rest
      return (path, replies ++ more)

/-- The writer of one uninterrupted session over a memory store. -/
def memoryWriter : WriterState MemoryStore where
  store := { entries := [] }
  seq := 0
  prevHash := genesisPrevHash

/-- The session opens a log of this kind, with a limit of at least one. -/
def Session.Opens (segmented : Bool) (session : Session) : Prop :=
  session.mode.isSome = segmented ∧ session.mode ≠ some 0

/-- The receipts among the replies. -/
def receipts (replies : List (Result Receipt)) : List Receipt :=
  replies.filterMap Except.toOption

/-! ## Processing lists of records -/

namespace WriterState

variable {σ : Type} [Store σ]

theorem processAll_append (writer : WriterState σ)
    (left right : List (Call × Record)) :
    writer.processAll crates (left ++ right) =
      (((writer.processAll crates left).1.processAll crates right).1,
        (writer.processAll crates left).2 ++
          ((writer.processAll crates left).1.processAll crates right).2) := by
  induction left generalizing writer with
  | nil => rfl
  | cons first rest ih =>
      obtain ⟨call, record⟩ := first
      simp only [List.cons_append, processAll, ih]

/-- A memory store gains the entries that the receipts name. -/
theorem processAll_memory (memory : WriterState MemoryStore)
    (calls : List (Call × Record)) :
    ∃ new, (memory.processAll crates calls).1.store.entries =
        memory.store.entries ++ new ∧
      receipts (memory.processAll crates calls).2 =
        new.map AuditEntry.receipt := by
  induction calls generalizing memory with
  | nil => exact ⟨[], by simp [processAll], rfl⟩
  | cons first rest ih =>
      obtain ⟨call, record⟩ := first
      obtain ⟨new, hentries, hreceipts⟩ :=
        ih (memory.process crates call record).1
      rcases memory.process_cases crates call record with
        ⟨err, _, hprocess⟩ | ⟨_, _, _, _, happend, _⟩ |
          ⟨entry, store, _, happend, hprocess⟩
      · rw [hprocess] at hentries hreceipts
        refine ⟨new, ?_, ?_⟩
        · rw [processAll, hprocess]
          exact hentries
        · rw [processAll, hprocess]
          exact hreceipts
      · cases happend
      · cases happend
        rw [hprocess] at hentries hreceipts
        refine ⟨entry :: new, ?_, ?_⟩
        · rw [processAll, hprocess]
          simpa using hentries
        · rw [processAll, hprocess]
          exact congrArg (entry.receipt :: ·) hreceipts

theorem entries_prefix_processAll (memory : WriterState MemoryStore)
    (calls : List (Call × Record)) :
    memory.store.entries <+: (memory.processAll crates calls).1.store.entries := by
  obtain ⟨new, hentries, _⟩ := memory.processAll_memory crates calls
  exact ⟨new, hentries.symm⟩

theorem isSegmented_processAll (writer : WriterState LogStore)
    (calls : List (Call × Record)) :
    (writer.processAll crates calls).1.store.isSegmented =
      writer.store.isSegmented := by
  induction calls generalizing writer with
  | nil => rfl
  | cons first rest ih =>
      obtain ⟨call, record⟩ := first
      exact (ih _).trans (writer.isSegmented_process crates call record)

end WriterState

/-! ## One record in both -/

/-- The engine and the memory writer are at the same point of one chain. -/
structure Mirrors (s : Engine) (memory : WriterState MemoryStore) : Prop where
  holds : s.Holds crates memory.store.entries
  head : memory.head = logHead memory.store.entries

namespace Mirrors

variable {crates} {s : Engine} {memory : WriterState MemoryStore}

theorem nextEntry_eq (h : Mirrors crates s memory) (call : Call)
    (record : Record) :
    s.writer.nextEntry crates call record =
      memory.nextEntry crates call record := by
  have hhead : s.writer.head = memory.head := by rw [h.holds.head_eq, h.head]
  have hseq : s.writer.seq = memory.seq := congrArg Prod.fst hhead
  have hprev : s.writer.prevHash = memory.prevHash := congrArg Prod.snd hhead
  rw [WriterState.nextEntry, WriterState.nextEntry, hseq, hprev]

theorem record (h : Mirrors crates s memory) {record : Record} {call : Call}
    (hio : call.io = .ok)
    (hparse : ∀ e ∈ (memory.process crates call record).1.store.entries,
      ParsesBack crates e)
    (hlength : (memory.process crates call record).1.store.entries.length <
      2 ^ 64) :
    Mirrors crates (s.record crates record call)
        (memory.process crates call record).1 ∧
      (s.record crates record call).replies =
        s.replies ++ [(memory.process crates call record).2] := by
  rcases memory.process_cases crates call record with
    ⟨err, hnext, hprocess⟩ | ⟨_, _, _, _, happend, _⟩ |
      ⟨entry, store, hnext, happend, hprocess⟩
  · rw [hprocess]
    have hnext' := (h.nextEntry_eq call record).trans hnext
    refine ⟨⟨h.holds.record_error hnext', h.head⟩, ?_⟩
    rw [Engine.record_of_error crates hnext']
  · cases happend
  · cases happend
    rw [hprocess] at hparse hlength ⊢
    rw [List.length_append, List.length_singleton] at hlength
    have hnext' := (h.nextEntry_eq call record).trans hnext
    obtain ⟨hholds, _, hreplies⟩ := h.holds.record_ok hnext' hio hlength
      (hparse entry (by simp))
    exact ⟨⟨hholds, (logHead_snoc _ _).symm⟩, hreplies⟩

theorem processAll (h : Mirrors crates s memory) {calls : List (Call × Record)}
    (hio : ∀ c ∈ calls, c.1.io = .ok)
    (hparse : ∀ e ∈ (memory.processAll crates calls).1.store.entries,
      ParsesBack crates e)
    (hlength : (memory.processAll crates calls).1.store.entries.length <
      2 ^ 64) :
    ∃ t : Engine, t.writer = (s.writer.processAll crates calls).1 ∧
      Mirrors crates t (memory.processAll crates calls).1 ∧
      (s.writer.processAll crates calls).2 =
        (memory.processAll crates calls).2 := by
  induction calls generalizing s memory with
  | nil => exact ⟨s, rfl, h, rfl⟩
  | cons first rest ih =>
      obtain ⟨call, record⟩ := first
      have hinit : (memory.process crates call record).1.store.entries <+:
          (memory.processAll crates ((call, record) :: rest)).1.store.entries :=
        WriterState.entries_prefix_processAll crates _ rest
      obtain ⟨hmirrors, hreplies⟩ := h.record
        (hio _ List.mem_cons_self)
        (fun e he => hparse e (hinit.subset he))
        (lt_of_le_of_lt hinit.length_le hlength)
      obtain ⟨t, hwriter, ht, hrest⟩ := ih hmirrors
        (fun c hc => hio c (List.mem_cons_of_mem _ hc)) hparse hlength
      have hreply : (s.writer.process crates call record).2 =
          (memory.process crates call record).2 :=
        List.singleton_inj.mp (List.append_cancel_left hreplies)
      refine ⟨t, hwriter, ht, ?_⟩
      show (s.writer.process crates call record).2 :: _ = _ :: _
      rw [hreply]
      exact congrArg _ hrest

end Mirrors

/-! ## Sessions -/

variable {crates}

theorem runSession_eq {path : DataPath} {session : Session} {s : Engine}
    (hstart : Engine.start crates session.mode path = .ok s) :
    runSession crates path session =
        .ok ((s.writer.processAll crates session.calls).1.store.disk,
          (s.writer.processAll crates session.calls).2) ∧
      s.writer.store.isSegmented = session.mode.isSome := by
  cases hopen : LogStore.openPath crates session.mode path with
  | error err => simp [Engine.start, hopen, bind, Except.bind] at hstart
  | ok store =>
      cases hbuild : Builder.build
          { store := some store, hasProvider := true } with
      | error err =>
          simp [Engine.start, hopen, hbuild, bind, Except.bind] at hstart
      | ok writer =>
          simp only [Engine.start, hopen, hbuild, bind, Except.bind, pure,
            Except.pure, Except.ok.injEq] at hstart
          subst s
          have hstore : writer.store = store := by
            cases htail : Store.tail store with
            | error err =>
                simp [Builder.build, htail, bind, Except.bind] at hbuild
            | ok tail =>
                rw [build_eq htail] at hbuild
                rw [← Except.ok.inj hbuild]
          refine ⟨?_, ?_⟩
          · simp only [runSession, hopen, hbuild, bind, Except.bind, pure,
              Except.pure]
          · rw [hstore]
            exact LogStore.isSegmented_openPath crates hopen

namespace Mirrors

theorem session {s : Engine} {memory : WriterState MemoryStore}
    {path : DataPath} {x : Session} {segmented : Bool}
    (hstart : Engine.start crates x.mode path = .ok s)
    (h : Mirrors crates s memory) (hopens : x.Opens segmented)
    (hio : ∀ c ∈ x.calls, c.1.io = .ok)
    (hparse : ∀ e ∈ (memory.processAll crates x.calls).1.store.entries,
      ParsesBack crates e)
    (hlength : (memory.processAll crates x.calls).1.store.entries.length <
      2 ^ 64) :
    ∃ t : Engine, runSession crates path x =
        .ok (t.writer.store.disk, (memory.processAll crates x.calls).2) ∧
      Mirrors crates t (memory.processAll crates x.calls).1 ∧
      t.writer.store.isSegmented = segmented := by
  obtain ⟨hrun, hkind⟩ := runSession_eq hstart
  obtain ⟨t, hwriter, ht, hreplies⟩ := h.processAll hio hparse hlength
  refine ⟨t, ?_, ht, ?_⟩
  · rw [hrun, hwriter, hreplies]
  · rw [hwriter, WriterState.isSegmented_processAll, hkind]
    exact hopens.1

theorem sessions {s : Engine} {memory : WriterState MemoryStore}
    {segmented : Bool} (h : Mirrors crates s memory)
    (hkind : s.writer.store.isSegmented = segmented) {rest : List Session}
    (hopens : ∀ x ∈ rest, x.Opens segmented)
    (hio : ∀ x ∈ rest, ∀ c ∈ x.calls, c.1.io = .ok)
    (hparse : ∀ e ∈ (memory.processAll crates
      (rest.flatMap Session.calls)).1.store.entries, ParsesBack crates e)
    (hlength : (memory.processAll crates
      (rest.flatMap Session.calls)).1.store.entries.length < 2 ^ 64) :
    ∃ t : Engine, runSessions crates s.writer.store.disk rest =
        .ok (t.writer.store.disk,
          (memory.processAll crates (rest.flatMap Session.calls)).2) ∧
      Mirrors crates t
        (memory.processAll crates (rest.flatMap Session.calls)).1 ∧
      t.writer.store.isSegmented = segmented := by
  induction rest generalizing s memory with
  | nil => exact ⟨s, rfl, h, hkind⟩
  | cons x rest ih =>
      rw [List.flatMap_cons, WriterState.processAll_append] at hparse hlength ⊢
      have hinit := WriterState.entries_prefix_processAll crates
        (memory.processAll crates x.calls).1 (rest.flatMap Session.calls)
      have hx := hopens x List.mem_cons_self
      have hadmits : s.writer.store.Admits x.mode := by
        rw [LogStore.admits_iff, hkind]
        exact hx
      obtain ⟨u, hstart, hu, _⟩ := h.holds.restart hadmits
      obtain ⟨t, hrun, ht, htkind⟩ := session hstart ⟨hu, h.head⟩ hx
        (hio x List.mem_cons_self) (fun e he => hparse e (hinit.subset he))
        (lt_of_le_of_lt hinit.length_le hlength)
      obtain ⟨last, hlast, hmirrors, hlastKind⟩ := ih ht htkind
        (fun y hy => hopens y (List.mem_cons_of_mem _ hy))
        (fun y hy => hio y (List.mem_cons_of_mem _ hy)) hparse hlength
      refine ⟨last, ?_, hmirrors, hlastKind⟩
      simp only [runSessions, hrun, hlast, bind, Except.bind, pure, Except.pure]

end Mirrors

theorem Mirrors.of_missing {x : Session} {segmented : Bool}
    (hopens : x.Opens segmented) :
    ∃ s : Engine, Engine.start crates x.mode .missing = .ok s ∧
      Mirrors crates s memoryWriter := by
  obtain ⟨store, hopen, _, _, htail⟩ := openPath_missing crates hopens.2
  have hstart := Engine.start_eq crates hopen htail
  exact ⟨_, hstart, Engine.holds_of_start hstart, rfl⟩

/-- Restart transparency and store equivalence: sessions over one path, without
faults, give the replies and leave the entries of one session over a memory
store. -/
theorem sessions_match_memory (crates : Crates) (segmented : Bool)
    (sessions : List Session) (hsome : sessions ≠ [])
    (hopens : ∀ x ∈ sessions, x.Opens segmented)
    (hio : ∀ x ∈ sessions, ∀ c ∈ x.calls, c.1.io = .ok)
    (hparse : ∀ e ∈ (memoryWriter.processAll crates
      (sessions.flatMap Session.calls)).1.store.entries, ParsesBack crates e)
    (hlength : (memoryWriter.processAll crates
      (sessions.flatMap Session.calls)).1.store.entries.length < 2 ^ 64) :
    let memory := memoryWriter.processAll crates
      (sessions.flatMap Session.calls)
    let entries := memory.1.store.entries
    ∃ path, runSessions crates .missing sessions = .ok (path, memory.2) ∧
      readStored crates segmented path = .ok entries ∧
      (∀ i (hi : i < entries.length), entries[i].seq.toNat = i + 1) ∧
      (verifyEntries crates entries).isValid = true ∧
      (verifyEntries crates entries).head =
        (receipts memory.2).getLast?.map fun r => (r.seq, r.entryHash) := by
  intro memory entries
  have hrun : ∃ t : Engine, runSessions crates .missing sessions =
        .ok (t.writer.store.disk, memory.2) ∧
      Mirrors crates t memory.1 ∧ t.writer.store.isSegmented = segmented := by
    cases sessions with
    | nil => exact absurd rfl hsome
    | cons x rest =>
        have hx := hopens x List.mem_cons_self
        obtain ⟨s, hstart, hs⟩ := Mirrors.of_missing hx
        have hall : memory = _ := WriterState.processAll_append crates memoryWriter
          x.calls (rest.flatMap Session.calls)
        rw [List.flatMap_cons, WriterState.processAll_append] at hparse hlength
        have hinit := WriterState.entries_prefix_processAll crates
          (memoryWriter.processAll crates x.calls).1
          (rest.flatMap Session.calls)
        obtain ⟨t, hfirst, ht, hkind⟩ := hs.session hstart hx
          (hio x List.mem_cons_self) (fun e he => hparse e (hinit.subset he))
          (lt_of_le_of_lt hinit.length_le hlength)
        obtain ⟨last, hlast, hmirrors, hlastKind⟩ := ht.sessions hkind
          (fun y hy => hopens y (List.mem_cons_of_mem _ hy))
          (fun y hy => hio y (List.mem_cons_of_mem _ hy)) hparse hlength
        rw [hall]
        refine ⟨last, ?_, hmirrors, hlastKind⟩
        simp only [runSessions, hfirst, hlast, bind, Except.bind, pure,
          Except.pure]
  obtain ⟨t, hsessions, hmirrors, hkind⟩ := hrun
  have hholds := hmirrors.holds
  refine ⟨t.writer.store.disk, hsessions, ?_, ?_, hholds.valid, ?_⟩
  · rw [← hkind]
    exact hholds.read
  · exact toNat_seq_getElem crates hholds.chain hholds.length
  · obtain ⟨new, hentries, hreceipts⟩ := memoryWriter.processAll_memory
      crates (sessions.flatMap Session.calls)
    have hreceipts' : receipts memory.2 = entries.map AuditEntry.receipt := by
      rw [hreceipts, show entries = new from hentries]
    rw [hreceipts', verifyEntries, verifyEntriesFrom_eq, List.getLast?_map,
      Option.map_map]
    rfl

theorem sessions_match_memory_logins :
    let calls := [(loginCall .synced, alice)]
    let sessions : List Session :=
      [{ mode := some 1, calls }, { mode := some 2, calls }]
    ∃ path, runSessions referenceCrates .missing sessions =
        .ok (path, (memoryWriter.processAll referenceCrates
          (calls ++ calls)).2) ∧
      readStored referenceCrates true path =
        .ok (memoryWriter.processAll referenceCrates
          (calls ++ calls)).1.store.entries := by
  intro calls sessions
  let first := sealEntry referenceCrates 0 genesisPrevHash (loginCall .synced)
    alice none
  have hentries : (memoryWriter.processAll referenceCrates
      (sessions.flatMap Session.calls)).1.store.entries =
        [first, sealEntry referenceCrates first.seq first.entryHash
          (loginCall .synced) alice none] := rfl
  have hseal : ∀ seq prevHash, ParsesBack referenceCrates
      (sealEntry referenceCrates seq prevHash (loginCall .synced) alice none) :=
    fun seq prevHash => parsesBack_sealEntry_alice seq prevHash _
  obtain ⟨path, hrun, hread, _⟩ := sessions_match_memory referenceCrates true
    sessions (by simp [sessions]) (by simp [sessions, Session.Opens])
    (by simp [sessions, calls, loginCall, IoOutcome.ok])
    (by rw [hentries]; simp [hseal, first]) (by rw [hentries]; decide)
  exact ⟨path, hrun, hread⟩

end Chainlog
