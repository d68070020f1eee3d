import Chainlog.Engine
import Chainlog.Reference

/-!
# Appends without faults

While every file operation succeeds, the log holds exactly the acknowledged
entries, each on a line of its own, and the writer stays at its head.  One
append needs less: that the file it writes to is terminated.
-/

namespace Chainlog

variable (crates : Crates)

theorem Journal.append_ok (j : Journal) (entry : AuditEntry) :
    j.append crates entry .ok =
      ((j.opened entry).extend (entryLine crates entry) 1, .ok ()) := by
  cases hfull : j.full <;>
    simp [Journal.append, hfull, IoOutcome.ok, WriteOutcome.written,
      WriteOutcome.counted, WriteOutcome.result]

theorem Journal.terminated_target {j : Journal}
    (h : Lines.Terminated newline j.content) :
    Lines.Terminated newline j.target := by
  rw [Journal.target]
  split_ifs
  · exact Lines.terminated_nil newline
  · exact h

theorem terminated_entryLine (content : Bytes) (entry : AuditEntry) :
    Lines.Terminated newline (content ++ entryLine crates entry) := by
  rw [entryLine_eq, ← List.append_assoc]
  exact Lines.terminated_append_delim newline _

namespace Engine

def FaultFree (s : Engine) : Op → Prop
  | .record _ call => call.io = .ok
  | .reopen mode => s.writer.store.Admits mode

def Appends (_ : Engine) : Op → Prop
  | .record _ call => call.io = .ok
  | .reopen _ => False

/-- The writer is in step with a sound log, and its next line starts a line. -/
structure Ready (s : Engine) (j : Journal) (before current : List AuditEntry) :
    Prop extends Sound crates s j before current where
  fresh : s.stale = false
  terminated : Lines.Terminated newline j.target

/-- The log holds the entries, each on a line of its own, and the writer is in
step with it. -/
def Holds (s : Engine) (entries : List AuditEntry) : Prop :=
  ∃ j before current, s.Ready crates j before current ∧
    Lines.Terminated newline j.content ∧ before ++ current = entries

variable {crates}

namespace Ready

variable {s : Engine} {j : Journal} {before current : List AuditEntry}

theorem head_eq (h : s.Ready crates j before current) :
    s.writer.head = logHead (before ++ current) := (h.head h.fresh).2

theorem toNat_seq (h : s.Ready crates j before current) :
    s.writer.seq.toNat = (before ++ current).length := by
  have hseq : s.writer.seq = (logHead (before ++ current)).1 := by
    rw [← h.head_eq]
    rfl
  rw [hseq, toNat_logHead crates h.chain h.length]

theorem wholeLine (h : s.Ready crates j before current) {entry : AuditEntry}
    {io : IoOutcome}
    (hwhole : asBytes (entryText crates entry) <+: j.written crates entry io) :
    s.WholeLine crates entry io where
  fresh := h.fresh
  terminated := by
    rw [h.represents.target_eq]
    exact h.terminated
  whole := by
    rw [h.represents.written_eq]
    exact hwhole

theorem harmless (h : s.Ready crates j before current)
    {parses : AuditEntry → Prop} {record : Record} {call : Call}
    (hlength : (before ++ current).length + 1 < 2 ^ 64)
    (hcreate : call.io.create = none)
    (hwrite : ∀ line, call.io.write.written line = line)
    (hparses : ∀ entry,
      s.writer.nextEntry crates call record = .ok entry → parses entry) :
    s.Harmless crates parses (.record record call) := by
  intro entry hnext
  refine ⟨?_, Or.inr ⟨h.wholeLine ?_, hparses entry hnext⟩⟩
  · rw [h.toNat_seq]
    exact hlength
  · simp only [Journal.written, hcreate, Option.isSome_none, Bool.false_eq_true,
      and_false, if_false, hwrite]
    exact List.prefix_append _ _

theorem record_ok (h : s.Ready crates j before current) {record : Record}
    {call : Call} {entry : AuditEntry}
    (hnext : s.writer.nextEntry crates call record = .ok entry)
    (hio : call.io = .ok)
    (hlength : (before ++ current).length + 1 < 2 ^ 64)
    (hparse : ParsesBack crates entry) :
    (s.record crates record call).Holds crates (before ++ current ++ [entry]) ∧
      (s.record crates record call).acked = s.acked ++ [entry] ∧
      (s.record crates record call).replies =
        s.replies ++ [.ok entry.receipt] := by
  have hcounter : s.writer.seq.toNat + 1 < 2 ^ 64 := by
    rw [h.toNat_seq]
    exact hlength
  have hwritten : j.written crates entry call.io = entryLine crates entry := by
    rw [hio]
    simp [Journal.written, IoOutcome.ok, WriteOutcome.written]
  have hwhole : s.WholeLine crates entry call.io :=
    h.wholeLine (hwritten ▸ List.prefix_append _ _)
  obtain ⟨before', current', hsound, hentries, _⟩ :=
    h.record_of_wholeLine hnext hcounter hwhole hparse
  have hjournal := j.append_ok crates entry
  rw [← hio] at hjournal
  have hcontent : Lines.Terminated newline
      (j.append crates entry call.io).1.content := by
    rw [hjournal]
    exact terminated_entryLine crates _ entry
  obtain ⟨hfirst, _⟩ := h.opened hnext hcounter
  obtain ⟨_, hrecorded⟩ := recorded crates h.represents hnext hfirst
  cases hrecorded with
  | failed err reported => simp [hjournal] at reported
  | done reported head replies acked stale =>
      have hready : (s.record crates record call).Ready crates
          (j.append crates entry call.io).1 before' (current' ++ [entry]) :=
        { hsound with
          fresh := by rw [stale, h.fresh]
          terminated := Journal.terminated_target hcontent }
      refine ⟨⟨_, before', current' ++ [entry], hready, hcontent, ?_⟩, acked,
        replies⟩
      rw [← List.append_assoc, hentries]

/-- A record call without faults adds what it acknowledges: nothing, where the
record cannot be sealed, or its entry. -/
theorem record_cases (h : s.Ready crates j before current) {record : Record}
    {call : Call} (hio : call.io = .ok)
    (hlength : (before ++ current).length + 1 < 2 ^ 64)
    (hparse : ∀ e ∈ (s.record crates record call).acked, ParsesBack crates e) :
    ((s.record crates record call).acked = s.acked ∧
        (s.record crates record call).Ready crates j before current) ∨
      ∃ entry, (s.record crates record call).acked = s.acked ++ [entry] ∧
        (s.record crates record call).Holds crates
          (before ++ current ++ [entry]) := by
  cases hnext : s.writer.nextEntry crates call record with
  | error err =>
      left
      rw [record_of_error crates hnext]
      exact ⟨rfl, { h with }⟩
  | ok entry =>
      right
      have hcounter : s.writer.seq.toNat + 1 < 2 ^ 64 := by
        rw [h.toNat_seq]
        exact hlength
      obtain ⟨hfirst, _⟩ := h.opened hnext hcounter
      have hrecorded := (recorded crates h.represents hnext hfirst).2
      rw [hio] at hrecorded
      cases hrecorded with
      | failed err reported => simp [j.append_ok] at reported
      | done reported head replies acked stale =>
          have hentry : ParsesBack crates entry :=
            hparse entry (by rw [acked]; simp)
          exact ⟨entry, acked, (h.record_ok hnext hio hlength hentry).1⟩

end Ready

namespace Holds

variable {s : Engine} {entries : List AuditEntry}

theorem record_ok (h : s.Holds crates entries) {record : Record} {call : Call}
    {entry : AuditEntry}
    (hnext : s.writer.nextEntry crates call record = .ok entry)
    (hio : call.io = .ok) (hlength : entries.length + 1 < 2 ^ 64)
    (hparse : ParsesBack crates entry) :
    (s.record crates record call).Holds crates (entries ++ [entry]) ∧
      (s.record crates record call).acked = s.acked ++ [entry] ∧
      (s.record crates record call).replies =
        s.replies ++ [.ok entry.receipt] := by
  obtain ⟨j, before, current, hready, _, rfl⟩ := h
  exact hready.record_ok hnext hio hlength hparse

theorem record_error (h : s.Holds crates entries) {record : Record}
    {call : Call} {err : Error}
    (hnext : s.writer.nextEntry crates call record = .error err) :
    (s.record crates record call).Holds crates entries := by
  obtain ⟨j, before, current, hready, hcontent, hentries⟩ := h
  refine ⟨j, before, current, ?_, hcontent, hentries⟩
  rw [record_of_error crates hnext]
  exact { hready with }

theorem record_acked (h : s.Holds crates entries) {record : Record}
    {call : Call} (hio : call.io = .ok)
    (hlength : entries.length + 1 < 2 ^ 64)
    (hparse : ∀ e ∈ (s.record crates record call).acked, ParsesBack crates e) :
    ∃ new, (s.record crates record call).acked = s.acked ++ new ∧
      (s.record crates record call).Holds crates (entries ++ new) := by
  obtain ⟨j, before, current, hready, hcontent, rfl⟩ := h
  rcases hready.record_cases hio hlength hparse with
    ⟨hacked, hsame⟩ | ⟨entry, hacked, hholds⟩
  · exact ⟨[], by simpa using hacked, j, before, current, hsame, hcontent,
      by simp⟩
  · exact ⟨[entry], hacked, hholds⟩

theorem restart (h : s.Holds crates entries) {mode : Mode}
    (hadmits : s.writer.store.Admits mode) :
    ∃ t, start crates mode s.writer.store.disk = .ok t ∧
      t.Holds crates entries ∧ t.acked = [] := by
  obtain ⟨j, before, current, hready, hcontent, hentries⟩ := h
  obtain ⟨t, ht, hsound, hstale, hacked, _⟩ := hready.restart hadmits
  refine ⟨t, ht, ⟨j.resume mode current.length, before, current, ?_, hcontent,
    hentries⟩, hacked⟩
  exact { hsound with
    fresh := hstale
    terminated := Journal.terminated_target hcontent }

theorem reopen (h : s.Holds crates entries) {mode : Mode}
    (hadmits : s.writer.store.Admits mode) :
    ∃ t, s.reopen crates mode = .ok t ∧ t.Holds crates entries ∧
      t.acked = s.acked := by
  obtain ⟨j, before, current, hready, hcontent, hentries⟩ := h
  obtain ⟨t, ht, hsound, hstale, hacked, _⟩ := hready.reopen hadmits
  refine ⟨t, ht, ⟨j.resume mode current.length, before, current, ?_, hcontent,
    hentries⟩, hacked⟩
  exact { hsound with
    fresh := hstale
    terminated := Journal.terminated_target hcontent }

theorem head_eq (h : s.Holds crates entries) :
    s.writer.head = logHead entries := by
  obtain ⟨j, before, current, hready, _, rfl⟩ := h
  exact hready.head_eq

theorem chain (h : s.Holds crates entries) :
    (entryChain crates).Follows (chainStart none) entries := by
  obtain ⟨j, before, current, hready, _, rfl⟩ := h
  exact hready.chain

theorem length (h : s.Holds crates entries) : entries.length < 2 ^ 64 := by
  obtain ⟨j, before, current, hready, _, rfl⟩ := h
  exact hready.length

theorem valid (h : s.Holds crates entries) :
    (verifyEntries crates entries).isValid = true :=
  (verifyEntriesFrom_isValid crates none _).mpr h.chain

theorem intact (h : s.Holds crates entries) : s.Intact crates := by
  obtain ⟨j, before, current, hready, _⟩ := h
  exact hready.intact

theorem reopens (h : s.Holds crates entries) : s.Reopens crates := by
  obtain ⟨j, before, current, hready, _⟩ := h
  exact hready.reopens

theorem read (h : s.Holds crates entries) :
    readStored crates s.writer.store.isSegmented s.writer.store.disk =
      .ok entries := by
  obtain ⟨j, before, current, hready, _, rfl⟩ := h
  rw [hready.represents.read_eq, hready.stores.read]

end Holds

theorem holds_of_start {mode : Mode} {s : Engine}
    (hstart : start crates mode .missing = .ok s) : s.Holds crates [] := by
  obtain ⟨hsound, hstale, _⟩ := start_missing crates hstart
  refine ⟨Journal.fresh mode, [], [], ?_, Lines.terminated_nil newline, rfl⟩
  exact { hsound with
    fresh := hstale
    terminated := Journal.terminated_target (Lines.terminated_nil newline) }

/-! ## Runs without faults -/

theorem holds_of_run {mode : Mode} {s t : Engine}
    (hstart : start crates mode .missing = .ok s)
    (hrun : Runs crates FaultFree s t)
    (hparse : ∀ e ∈ t.acked, ParsesBack crates e)
    (hlength : t.acked.length + 1 < 2 ^ 64) : t.Holds crates t.acked := by
  induction hrun with
  | refl =>
      obtain ⟨_, _, hacked, _⟩ := start_missing crates hstart
      rw [hacked]
      exact holds_of_start hstart
  | @tail u v _ hstep ih =>
      obtain ⟨op, hop, hstep⟩ := hstep
      have hinit := acked_prefix_step crates hstep
      have hholds := ih (fun e he => hparse e (hinit.subset he))
        (lt_of_le_of_lt (Nat.succ_le_succ hinit.length_le) hlength)
      cases op with
      | reopen mode =>
          obtain ⟨w, hw, hsame, hacked⟩ := hholds.reopen hop
          obtain rfl : w = v := Except.ok.inj (hw.symm.trans hstep)
          rw [hacked]
          exact hsame
      | record record call =>
          obtain rfl := Except.ok.inj hstep
          obtain ⟨new, hacked, hnew⟩ := hholds.record_acked hop
            (lt_of_le_of_lt (Nat.succ_le_succ hinit.length_le) hlength) hparse
          rw [hacked]
          exact hnew

end Engine

/-! ## Logins over the reference crates -/

def alice : Record := Record.new "login" .success "alice"

/-- A call whose append gets as far as `write` says. -/
def loginCall (write : WriteOutcome) : Call where
  now := 0
  cryptoSeal := fun _ _ => .error (.key "none")
  io := { create := none, write }

theorem parsesBack_sealEntry_alice (seq : UInt64) (prevHash : String)
    (call : Call) :
    ParsesBack referenceCrates
      (sealEntry referenceCrates seq prevHash call alice none) := by
  rw [parsesBack_iff_of_invertsUpTo referenceCrates
    (referenceSerde_invertsUpTo 127), AuditEntry.depth_toDocument]
  simp [sealEntry, alice, Record.new, Value.depth, Value.toDocument, Value.null]

theorem parsesBack_of_alice {σ : Type} {writer : WriterState σ} {call : Call}
    {entry : AuditEntry}
    (hnext : writer.nextEntry referenceCrates call alice = .ok entry) :
    ParsesBack referenceCrates entry := by
  obtain rfl := Except.ok.inj hnext
  exact parsesBack_sealEntry_alice _ _ call

def Engine.onMissing : Engine where
  writer := { store := .file { content := [], cachedTail := none }, seq := 0
              prevHash := genesisPrevHash }
  replies := []
  acked := []
  stale := false

theorem Engine.start_onMissing :
    Engine.start referenceCrates none .missing = .ok onMissing := rfl

theorem Engine.nextEntry_onMissing :
    onMissing.writer.nextEntry referenceCrates (loginCall .synced) alice =
      .ok (sealEntry referenceCrates 0 genesisPrevHash (loginCall .synced)
        alice none) := rfl

end Chainlog
