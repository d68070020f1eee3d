import Chainlog.Contents

/-!
# Runs of a log on disk

An engine is a writer over a store on disk.  It processes records and is
reopened, by a restart of its process, on what the disk then holds.  Beside
the writer it keeps what the properties speak of: the replies given, the
entries acknowledged, and whether a failed append of this process has left
bytes on disk.
-/

namespace Chainlog

variable (crates : Crates)

structure Engine where
  writer : WriterState LogStore
  replies : List (Result Receipt)
  /-- The entries whose record call returned `Ok`, in order. -/
  acked : List AuditEntry
  /-- A failed append of this process has left bytes on disk. -/
  stale : Bool

inductive Op where
  | record (record : Record) (call : Call)
  | reopen (mode : Mode)

namespace Engine

/-- Open the store under a path and build the writer. -/
def start (mode : Mode) (path : DataPath) : Result Engine := do
  let store ← LogStore.openPath crates mode path
  let writer ← Builder.build { store := some store, hasProvider := true }
  return { writer, replies := [], acked := [], stale := false }

def record (s : Engine) (record : Record) (call : Call) : Engine :=
  let (writer, reply) := s.writer.process crates call record
  let entry := (s.writer.nextEntry crates call record).toOption
  { writer
    replies := s.replies ++ [reply]
    acked := if reply.isOk then s.acked ++ entry.toList else s.acked
    stale := s.stale || (!reply.isOk && entry.any fun e =>
      !(s.writer.store.written crates e call.io).isEmpty) }

/-- Restart on the same data path. -/
def reopen (s : Engine) (mode : Mode) : Result Engine :=
  (start crates mode s.writer.store.disk).map fun t =>
    { t with replies := s.replies, acked := s.acked }

def step (s : Engine) : Op → Result Engine
  | .record record call => .ok (s.record crates record call)
  | .reopen mode => s.reopen crates mode

/-- The steps that a predicate allows. -/
def Allowed (allow : Engine → Op → Prop) (s t : Engine) : Prop :=
  ∃ op, allow s op ∧ s.step crates op = .ok t

abbrev Runs (allow : Engine → Op → Prop) : Engine → Engine → Prop :=
  Relation.ReflTransGen (Allowed crates allow)

/-- The log on disk is readable and valid and holds the acknowledged entries in
order. -/
def Intact (s : Engine) : Prop :=
  ∃ entries,
    readStored crates s.writer.store.isSegmented s.writer.store.disk =
        .ok entries ∧
      (verifyEntries crates entries).isValid = true ∧ s.acked.Sublist entries

/-- Every restart finds the log. -/
def Reopens (s : Engine) : Prop :=
  ∀ mode, s.writer.store.Admits mode → ∃ t, s.reopen crates mode = .ok t

theorem acked_prefix_record (s : Engine) (record : Record) (call : Call) :
    s.acked <+: (s.record crates record call).acked := by
  simp only [Engine.record]
  split_ifs
  · exact List.prefix_append _ _
  · exact List.prefix_rfl

theorem acked_prefix_step {s t : Engine} {op : Op}
    (hstep : s.step crates op = .ok t) : s.acked <+: t.acked := by
  cases op with
  | record record call =>
      obtain rfl := Except.ok.inj hstep
      exact s.acked_prefix_record crates record call
  | reopen mode =>
      cases hstart : start crates mode s.writer.store.disk with
      | error err => simp [step, reopen, hstart, Except.map] at hstep
      | ok u =>
          simp only [step, reopen, hstart, Except.map, Except.ok.injEq] at hstep
          subst t
          exact List.prefix_rfl

theorem not_intact_of_unreadable {s : Engine} {j : Journal} {err : Error}
    (hrep : s.writer.store.Represents j)
    (herror : readFile crates (.readable j.content) = .error err) :
    ¬s.Intact crates ∧ ¬s.Reopens crates := by
  constructor
  · rintro ⟨entries, hread, _⟩
    rw [hrep.read_eq, LogStore.Represents.read_eq_ok] at hread
    obtain ⟨_, current, _, hcurrent, _⟩ := hread
    simp [herror] at hcurrent
  · intro hreopens
    obtain ⟨mode, hadmits⟩ := s.writer.store.exists_admits
    obtain ⟨t, ht⟩ := hreopens mode hadmits
    simp [reopen, start, hrep.openPath_error hadmits herror, bind, Except.bind,
      Except.map] at ht

theorem start_eq {mode : Mode} {path : DataPath} {store : LogStore}
    {tail : Option (UInt64 × String)}
    (hopen : LogStore.openPath crates mode path = .ok store)
    (htail : Store.tail store = .ok tail) :
    start crates mode path = .ok
      { writer := { store, seq := (tail.getD (0, genesisPrevHash)).1
                    prevHash := (tail.getD (0, genesisPrevHash)).2 }
        replies := [], acked := [], stale := false } := by
  simp [start, hopen, build_eq htail, bind, Except.bind, pure, Except.pure]

theorem record_of_error {s : Engine} {record : Record} {call : Call}
    {err : Error} (hnext : s.writer.nextEntry crates call record = .error err) :
    s.record crates record call =
      { s with replies := s.replies ++ [.error err] } := by
  rcases s.writer.process_cases crates call record with
    ⟨err', hnext', hprocess⟩ | ⟨entry, _, _, hnext', _, _⟩ |
      ⟨entry, _, hnext', _, _⟩
  · obtain rfl : err' = err := by simpa [hnext] using hnext'.symm
    simp [Engine.record, hprocess, hnext, Except.isOk, Except.toBool,
      Except.toOption]
  · simp [hnext] at hnext'
  · simp [hnext] at hnext'

/-- What recording an entry leaves, by what the append to the journal
reports. -/
inductive Recorded (s : Engine) (j : Journal) (entry : AuditEntry)
    (io : IoOutcome) (t : Engine) : Prop where
  | failed (err : Error)
      (reported : (j.append crates entry io).2 = .error err)
      (head : t.writer.head = s.writer.head)
      (replies : t.replies = s.replies ++ [.error err])
      (acked : t.acked = s.acked)
      (stale : t.stale = (s.stale || !(j.written crates entry io).isEmpty))
  | done
      (reported : (j.append crates entry io).2 = .ok ())
      (head : t.writer.head = (entry.seq, entry.entryHash))
      (replies : t.replies = s.replies ++ [.ok entry.receipt])
      (acked : t.acked = s.acked ++ [entry])
      (stale : t.stale = s.stale)

theorem recorded {s : Engine} {j : Journal} {record : Record} {call : Call}
    {entry : AuditEntry} (hrep : s.writer.store.Represents j)
    (hnext : s.writer.nextEntry crates call record = .ok entry)
    (hfirst : j.full = true → j.first < entry.seq) :
    (s.record crates record call).writer.store.Represents
        (j.append crates entry call.io).1 ∧
      s.Recorded crates j entry call.io (s.record crates record call) := by
  obtain ⟨hstore, hresult⟩ := hrep.append crates entry call.io hfirst
  have hwritten := hrep.written_eq crates entry call.io
  rcases s.writer.process_cases crates call record with
    ⟨err, hnext', _⟩ | ⟨entry', store, err, hnext', happend, hprocess⟩ |
      ⟨entry', store, hnext', happend, hprocess⟩
  · simp [hnext] at hnext'
  · obtain rfl : entry' = entry := by simpa [hnext] using hnext'.symm
    have happend' : s.writer.store.append crates entry' call.io =
        (store, .error err) := happend
    rw [happend'] at hstore hresult
    refine ⟨by simpa [Engine.record, hprocess] using hstore, ?_⟩
    refine .failed err hresult.symm ?_ ?_ ?_ ?_
    · simp [Engine.record, hprocess, WriterState.head]
    · simp [Engine.record, hprocess]
    · simp [Engine.record, hprocess, Except.isOk, Except.toBool]
    · simp [Engine.record, hprocess, hnext, hwritten, Except.isOk, Except.toBool,
        Except.toOption]
  · obtain rfl : entry' = entry := by simpa [hnext] using hnext'.symm
    have happend' : s.writer.store.append crates entry' call.io =
        (store, .ok ()) := happend
    rw [happend'] at hstore hresult
    refine ⟨by simpa [Engine.record, hprocess] using hstore, ?_⟩
    refine .done hresult.symm ?_ ?_ ?_ ?_
    · simp [Engine.record, hprocess, WriterState.head]
    · simp [Engine.record, hprocess]
    · simp [Engine.record, hprocess, hnext, Except.isOk, Except.toBool,
        Except.toOption]
    · simp [Engine.record, hprocess, Except.isOk, Except.toBool]

theorem record_store {s : Engine} {record : Record} {call : Call}
    {entry : AuditEntry}
    (hnext : s.writer.nextEntry crates call record = .ok entry) :
    (s.record crates record call).writer.store =
      (s.writer.store.append crates entry call.io).1 := by
  rcases s.writer.process_cases crates call record with
    ⟨err, hnext', _⟩ | ⟨entry', store, err, hnext', happend, hprocess⟩ |
      ⟨entry', store, hnext', happend, hprocess⟩
  · simp [hnext] at hnext'
  · obtain rfl : entry' = entry := by simpa [hnext] using hnext'.symm
    rw [Engine.record, hprocess]
    exact (congrArg Prod.fst happend).symm
  · obtain rfl : entry' = entry := by simpa [hnext] using hnext'.symm
    rw [Engine.record, hprocess]
    exact (congrArg Prod.fst happend).symm

/-! ## Harmless steps -/

/-- The append writes the whole text of its entry where a line may start: no
failed append of this process has left bytes on disk, and the file it writes
to is terminated. -/
structure WholeLine (s : Engine) (entry : AuditEntry) (io : IoOutcome) :
    Prop where
  fresh : s.stale = false
  terminated : Lines.Terminated newline s.writer.store.target
  whole : asBytes (entryText crates entry) <+:
    s.writer.store.written crates entry io

/-- The append leaves no bytes on disk, or the whole line of an entry that
parses; the sequence counter is not exhausted. -/
def Harmless (parses : AuditEntry → Prop) (s : Engine) : Op → Prop
  | .reopen mode => s.writer.store.Admits mode
  | .record record call => ∀ entry,
      s.writer.nextEntry crates call record = .ok entry →
        s.writer.seq.toNat + 1 < 2 ^ 64 ∧
          (s.writer.store.written crates entry call.io = [] ∨
            s.WholeLine crates entry call.io ∧ parses entry)

/-- The log is readable and verifies, it holds the acknowledged entries, and a
writer that is not stale is at its head. -/
structure Sound (s : Engine) (j : Journal) (before current : List AuditEntry) :
    Prop where
  represents : s.writer.store.Represents j
  stores : j.Stores (ReadsAs crates) before current
  chain : (entryChain crates).Follows (chainStart none) (before ++ current)
  length : (before ++ current).length < 2 ^ 64
  acked : s.acked.Sublist (before ++ current)
  head : s.stale = false →
    j.count = current.length ∧ s.writer.head = logHead (before ++ current)
  room : s.stale = true → j.full = false

namespace Sound

variable {crates} {s : Engine} {j : Journal} {before current : List AuditEntry}

theorem seq_eq (h : s.Sound crates j before current) (hfresh : s.stale = false)
    (hcounter : s.writer.seq.toNat + 1 < 2 ^ 64) {record : Record}
    {call : Call} {entry : AuditEntry}
    (hnext : s.writer.nextEntry crates call record = .ok entry) :
    entry.seq.toNat = (before ++ current).length + 1 := by
  have hhead := (h.head hfresh).2
  have hseq : s.writer.seq = (logHead (before ++ current)).1 := by
    rw [← hhead]
    rfl
  rw [(s.writer.nextEntry_spec crates hnext).1, toNat_add_one (by omega), hseq,
    toNat_logHead crates h.chain h.length]

theorem opened (h : s.Sound crates j before current) {record : Record}
    {call : Call} {entry : AuditEntry}
    (hnext : s.writer.nextEntry crates call record = .ok entry)
    (hcounter : s.writer.seq.toNat + 1 < 2 ^ 64) :
    (j.full = true → j.first < entry.seq) ∧ ∃ before' current',
      (j.opened entry).Stores (ReadsAs crates) before' current' ∧
      before' ++ current' = before ++ current ∧
      (s.stale = false → (j.opened entry).count = current'.length) := by
  cases hstale : s.stale with
  | true =>
      have hroom := h.room hstale
      have hopened : j.opened entry = j := by simp [Journal.opened, hroom]
      refine ⟨by simp [hroom], before, current, ?_, rfl, by simp⟩
      rw [hopened]
      exact h.stores
  | false =>
      have hseq := h.seq_eq hstale hcounter hnext
      have hcount := (h.head hstale).1
      obtain ⟨before', current', hstores, hentries, hlength⟩ :=
        h.stores.opened readsAs_nil hcount hseq
      exact ⟨h.stores.first_lt hcount h.represents hseq, before', current',
        hstores, hentries, fun _ => hlength⟩

theorem record_of_error (h : s.Sound crates j before current) {record : Record}
    {call : Call} {err : Error}
    (hnext : s.writer.nextEntry crates call record = .error err) :
    (s.record crates record call).Sound crates j before current := by
  rw [Engine.record_of_error crates hnext]
  exact { h with }

theorem record_of_written_nil (h : s.Sound crates j before current)
    {record : Record} {call : Call} {entry : AuditEntry}
    (hnext : s.writer.nextEntry crates call record = .ok entry)
    (hcounter : s.writer.seq.toNat + 1 < 2 ^ 64)
    (hwritten : s.writer.store.written crates entry call.io = []) :
    ∃ before' current',
      (s.record crates record call).Sound crates
          (j.append crates entry call.io).1 before' current' ∧
        before' ++ current' = before ++ current := by
  obtain ⟨hfirst, before', current', hstores, hentries, hcount⟩ :=
    h.opened hnext hcounter
  obtain ⟨hstore, hrecorded⟩ := recorded crates h.represents hnext hfirst
  rw [h.represents.written_eq] at hwritten
  cases hrecorded with
  | done reported head replies acked stale =>
      rcases j.append_cases crates entry call.io with ⟨_, heq, _⟩ | ⟨heq, hline⟩
      · simp [heq] at reported
      · rw [heq] at reported
        rw [hwritten, WriteOutcome.eq_synced_of_ok reported] at hline
        simp [WriteOutcome.written, entryLine] at hline
  | failed err reported head replies acked stale =>
      rw [hwritten, List.isEmpty_nil, Bool.not_true, Bool.or_false] at stale
      rcases j.append_cases crates entry call.io with ⟨_, heq, _⟩ | ⟨heq, hline⟩
      · rw [heq] at hstore ⊢
        exact ⟨before, current,
          { h with
            represents := hstore
            acked := acked ▸ h.acked
            head := fun hfresh => head ▸ h.head (stale ▸ hfresh)
            room := fun hroom => h.room (stale ▸ hroom) }, rfl⟩
      · rw [heq] at hstore reported ⊢
        rw [hwritten, WriteOutcome.counted_of_error reported,
          Journal.extend_nil] at hstore ⊢
        exact ⟨before', current',
          { represents := hstore
            stores := hstores
            chain := hentries ▸ h.chain
            length := hentries ▸ h.length
            acked := by rw [acked, hentries]; exact h.acked
            head := fun hfresh => by
              rw [stale] at hfresh
              rw [head, hentries]
              exact ⟨hcount hfresh, (h.head hfresh).2⟩
            room := fun _ => h.represents.not_full_opened entry }, hentries⟩

/-- The next entry of a writer at the head is counted without overflow. -/
theorem length_snoc (h : s.Sound crates j before current)
    (hfresh : s.stale = false) (hcounter : s.writer.seq.toNat + 1 < 2 ^ 64)
    {record : Record} {call : Call} {entry : AuditEntry}
    (hnext : s.writer.nextEntry crates call record = .ok entry) :
    (before ++ current ++ [entry]).length < 2 ^ 64 := by
  have hseq := h.seq_eq hfresh hcounter hnext
  have hbound := entry.seq.toNat_lt
  rw [List.length_append, List.length_singleton]
  omega

theorem record_of_wholeLine (h : s.Sound crates j before current)
    {record : Record} {call : Call} {entry : AuditEntry}
    (hnext : s.writer.nextEntry crates call record = .ok entry)
    (hcounter : s.writer.seq.toNat + 1 < 2 ^ 64)
    (hwhole : s.WholeLine crates entry call.io)
    (hparse : ParsesBack crates entry) :
    ∃ before' current',
      (s.record crates record call).Sound crates
          (j.append crates entry call.io).1 before' (current' ++ [entry]) ∧
        before' ++ current' = before ++ current ∧
        (j.opened entry).count = current'.length := by
  obtain ⟨hfirst, before', current', hstores, hentries, hcount⟩ :=
    h.opened hnext hcounter
  obtain ⟨hstore, hrecorded⟩ := recorded crates h.represents hnext hfirst
  have hlength' := hcount hwhole.fresh
  have hwhole' := hwhole.whole
  rw [h.represents.written_eq] at hwhole'
  have htext := ne_nil_of_wholeText crates hwhole'
  have hchain := follows_snoc_nextEntry crates h.chain (h.head hwhole.fresh).2
    hnext
  have hlength := h.length_snoc hwhole.fresh hcounter hnext
  have hterminated : Lines.Terminated newline (j.opened entry).content := by
    rw [j.opened_content, ← h.represents.target_eq]
    exact hwhole.terminated
  have hextended := hstores.extend
    (ReadsAs.append hstores.current hterminated hparse hwhole'
      (j.written_prefix entry call.io)) call.io.write.counted
  have hentries' : before' ++ (current' ++ [entry]) =
      before ++ current ++ [entry] := by
    rw [← List.append_assoc, hentries]
  refine ⟨before', current', ?_, hentries, hlength'⟩
  rcases j.append_cases crates entry call.io with ⟨_, _, hnil⟩ | ⟨heq, _⟩
  · exact absurd hnil htext
  rw [heq] at hstore ⊢
  cases hrecorded with
  | failed err reported head replies acked stale =>
      rw [heq] at reported
      have hstale : (s.record crates record call).stale = true := by
        rw [stale]
        simp [htext]
      exact {
        represents := hstore
        stores := hextended
        chain := hentries' ▸ hchain
        length := hentries' ▸ hlength
        acked := by
          rw [acked, hentries']
          exact h.acked.trans (List.sublist_append_left _ _)
        head := fun hfresh => by simp [hstale] at hfresh
        room := fun _ => by
          rw [WriteOutcome.counted_of_error reported, Journal.full_extend_zero]
          exact h.represents.not_full_opened entry }
  | done reported head replies acked stale =>
      rw [heq] at reported
      exact {
        represents := hstore
        stores := hextended
        chain := hentries' ▸ hchain
        length := hentries' ▸ hlength
        acked := by
          rw [acked, hentries']
          exact h.acked.append (List.Sublist.refl _)
        head := fun _ => by
          rw [head, hentries', logHead_snoc,
            WriteOutcome.eq_synced_of_ok reported]
          exact ⟨by simp [Journal.extend, WriteOutcome.counted, hlength'], rfl⟩
        room := fun hroom => by
          rw [stale, hwhole.fresh] at hroom
          exact absurd hroom Bool.false_ne_true }

/-- A start on the disk finds the log and is in step with it. -/
theorem restart (h : s.Sound crates j before current) {mode : Mode}
    (hadmits : s.writer.store.Admits mode) :
    ∃ t, start crates mode s.writer.store.disk = .ok t ∧
      t.Sound crates (j.resume mode current.length) before current ∧
      t.stale = false ∧ t.acked = [] ∧ t.replies = [] ∧
      t.writer.head = logHead (before ++ current) := by
  obtain ⟨store, tail, hopen, hrep, _, htail, _, hlast⟩ :=
    h.represents.openPath_ok hadmits h.stores.current
  have hhead := hlast before h.stores.read_closed
  subst tail
  refine ⟨_, start_eq crates hopen htail, ?_, rfl, rfl, rfl, rfl⟩
  exact {
    represents := hrep
    stores := h.stores.resume mode current.length
    chain := h.chain
    length := h.length
    acked := List.nil_sublist _
    head := fun _ => ⟨rfl, rfl⟩
    room := fun hstale => by simp at hstale }

theorem reopen (h : s.Sound crates j before current) {mode : Mode}
    (hadmits : s.writer.store.Admits mode) :
    ∃ t, s.reopen crates mode = .ok t ∧
      t.Sound crates (j.resume mode current.length) before current ∧
      t.stale = false ∧ t.acked = s.acked ∧ t.replies = s.replies ∧
      t.writer.head = logHead (before ++ current) := by
  obtain ⟨t, hstart, hsound, hstale, _, _, hhead⟩ := h.restart hadmits
  refine ⟨{ t with replies := s.replies, acked := s.acked }, ?_, ?_, hstale,
    rfl, rfl, hhead⟩
  · rw [Engine.reopen, hstart, Except.map]
  · exact { hsound with acked := h.acked }

theorem intact (h : s.Sound crates j before current) : s.Intact crates := by
  refine ⟨before ++ current, ?_, ?_, h.acked⟩
  · rw [h.represents.read_eq, h.stores.read]
  · exact (verifyEntriesFrom_isValid crates none _).mpr h.chain

theorem reopens (h : s.Sound crates j before current) : s.Reopens crates := by
  intro mode hadmits
  obtain ⟨t, ht, _⟩ := h.reopen hadmits
  exact ⟨t, ht⟩

end Sound

theorem mode_ne_of_start {mode : Mode} {path : DataPath} {s : Engine}
    (hstart : start crates mode path = .ok s) : mode ≠ some 0 := by
  rintro rfl
  simp [start, LogStore.openPath, SegmentedStore.openPath, bind, Except.bind,
    Except.map] at hstart

theorem start_missing {mode : Mode} {s : Engine}
    (hstart : start crates mode .missing = .ok s) :
    s.Sound crates (Journal.fresh mode) [] [] ∧ s.stale = false ∧
      s.acked = [] ∧ s.replies = [] ∧ s.writer.head = logHead [] := by
  obtain ⟨store, hopen, hrep, _, htail⟩ :=
    openPath_missing crates (mode_ne_of_start crates hstart)
  rw [start_eq crates hopen htail] at hstart
  obtain rfl := Except.ok.inj hstart
  refine ⟨?_, rfl, rfl, rfl, rfl⟩
  exact {
    represents := hrep
    stores := Journal.stores_fresh readsAs_nil mode
    chain := trivial
    length := by simp
    acked := List.Sublist.refl _
    head := fun _ => ⟨rfl, rfl⟩
    room := fun hstale => by simp at hstale }

variable {crates} {parses : AuditEntry → Prop}

theorem Sound.step {s t : Engine} {j : Journal}
    {before current : List AuditEntry} {op : Op}
    (hparses : ∀ e, parses e → ParsesBack crates e)
    (h : s.Sound crates j before current) (hop : s.Harmless crates parses op)
    (hstep : s.step crates op = .ok t) :
    ∃ j' before' current', t.Sound crates j' before' current' := by
  cases op with
  | reopen mode =>
      obtain ⟨u, hu, hsound, _⟩ := h.reopen hop
      obtain rfl : u = t := Except.ok.inj (hu.symm.trans hstep)
      exact ⟨_, before, current, hsound⟩
  | record record call =>
      obtain rfl := Except.ok.inj hstep
      cases hnext : s.writer.nextEntry crates call record with
      | error err => exact ⟨j, before, current, h.record_of_error hnext⟩
      | ok entry =>
          obtain ⟨hcounter, hnil | ⟨hwhole, hentry⟩⟩ := hop entry hnext
          · obtain ⟨before', current', hsound, _⟩ :=
              h.record_of_written_nil hnext hcounter hnil
            exact ⟨_, before', current', hsound⟩
          · obtain ⟨before', current', hsound, _⟩ :=
              h.record_of_wholeLine hnext hcounter hwhole (hparses entry hentry)
            exact ⟨_, before', current' ++ [entry], hsound⟩

theorem Sound.runs {s t : Engine} {j : Journal}
    {before current : List AuditEntry}
    (hparses : ∀ e, parses e → ParsesBack crates e)
    (h : s.Sound crates j before current)
    (hrun : Runs crates (Harmless crates parses) s t) :
    ∃ j' before' current', t.Sound crates j' before' current' := by
  induction hrun with
  | refl => exact ⟨j, before, current, h⟩
  | tail _ hstep ih =>
      obtain ⟨j', before', current', hsound⟩ := ih
      obtain ⟨op, hop, hstep⟩ := hstep
      exact hsound.step hparses hop hstep

end Engine

end Chainlog
