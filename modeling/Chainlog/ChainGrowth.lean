import Chainlog.ChainVerification
import Chainlog.Log

/-!
# Writing extends the chain

`process` seals the next entry and hands it to the store.  A writer whose head
is the head of a log seals an entry that continues the log's chain, and in a
chain from genesis the sequence numbers count the entries.
-/

namespace Chainlog

variable (crates : Crates)

/-- `(seq, entry_hash)` of the last entry, or of the empty chain. -/
def logHead (entries : List AuditEntry) : UInt64 × String :=
  (lastHead entries).getD (0, genesisPrevHash)

@[simp] theorem logHead_nil : logHead [] = (0, genesisPrevHash) := rfl

@[simp] theorem lastHead_snoc (entries : List AuditEntry) (e : AuditEntry) :
    lastHead (entries ++ [e]) = some (e.seq, e.entryHash) := by
  simp [lastHead]

@[simp] theorem logHead_snoc (entries : List AuditEntry) (e : AuditEntry) :
    logHead (entries ++ [e]) = (e.seq, e.entryHash) := by
  simp [logHead]

/-! ## One record -/

theorem sealed_sealEntry (seq : UInt64) (prevHash : String) (call : Call)
    (record : Record) (pii : Option EncryptedPii) :
    (entryChain crates).Sealed
      (sealEntry crates seq prevHash call record pii) := rfl

namespace WriterState

variable {σ : Type}

/-- The entry that the writer builds for a record. -/
def nextEntry (writer : WriterState σ) (call : Call) (record : Record) :
    Result AuditEntry :=
  (sealPii call record).map
    (sealEntry crates writer.seq writer.prevHash call record)

variable [Store σ]

/-- What processing a record can do: fail to seal, fail to append, or
append. -/
theorem process_cases (writer : WriterState σ) (call : Call)
    (record : Record) :
    (∃ err, writer.nextEntry crates call record = .error err ∧
        writer.process crates call record = (writer, .error err)) ∨
      (∃ entry store err, writer.nextEntry crates call record = .ok entry ∧
        Store.append crates writer.store entry call.io = (store, .error err) ∧
        writer.process crates call record =
          ({ writer with store }, .error err)) ∨
      (∃ entry store, writer.nextEntry crates call record = .ok entry ∧
        Store.append crates writer.store entry call.io = (store, .ok ()) ∧
        writer.process crates call record =
          ({ store, seq := entry.seq, prevHash := entry.entryHash },
            .ok entry.receipt)) := by
  cases hpii : sealPii call record with
  | error err =>
      left
      exact ⟨err, by rw [nextEntry, hpii, Except.map], by rw [process, hpii]⟩
  | ok pii =>
      right
      let entry :=
        sealEntry crates writer.seq writer.prevHash call record pii
      have hnext : writer.nextEntry crates call record = .ok entry := by
        rw [nextEntry, hpii, Except.map]
      cases happend : Store.append crates writer.store entry call.io with
      | mk store result =>
          cases result with
          | error err =>
              left
              refine ⟨entry, store, err, hnext, happend, ?_⟩
              simp only [process, hpii]
              rw [happend]
          | ok done =>
              right
              refine ⟨entry, store, hnext, happend, ?_⟩
              simp only [process, hpii]
              rw [happend]

theorem isSegmented_process (writer : WriterState LogStore) (call : Call)
    (record : Record) :
    (writer.process crates call record).1.store.isSegmented =
      writer.store.isSegmented := by
  rcases writer.process_cases crates call record with
    ⟨_, _, hprocess⟩ | ⟨entry, store, _, _, happend, hprocess⟩ |
      ⟨entry, store, _, happend, hprocess⟩
  · rw [hprocess]
  · rw [hprocess, ← writer.store.isSegmented_append crates entry call.io]
    exact congrArg (fun next => next.1.isSegmented) happend.symm
  · rw [hprocess, ← writer.store.isSegmented_append crates entry call.io]
    exact congrArg (fun next => next.1.isSegmented) happend.symm

omit [Store σ] in
/-- The next entry continues the writer's head and is sealed. -/
theorem nextEntry_spec {writer : WriterState σ} {call : Call}
    {record : Record} {entry : AuditEntry}
    (h : writer.nextEntry crates call record = .ok entry) :
    entry.seq = writer.seq + 1 ∧ entry.prevHash = writer.prevHash ∧
      (entryChain crates).Sealed entry := by
  unfold nextEntry at h
  cases hpii : sealPii call record with
  | error err => simp [hpii, Except.map] at h
  | ok pii =>
      simp only [hpii, Except.map, Except.ok.injEq] at h
      subst entry
      exact ⟨rfl, rfl, sealed_sealEntry crates _ _ _ _ _⟩

end WriterState

theorem build_eq {σ : Type} [Store σ] {store : σ}
    {tail : Option (UInt64 × String)} (htail : Store.tail store = .ok tail) :
    Builder.build { store := some store, hasProvider := true } =
      .ok { store, seq := (tail.getD (0, genesisPrevHash)).1
            prevHash := (tail.getD (0, genesisPrevHash)).2 } := by
  cases tail <;> simp [Builder.build, htail, bind, Except.bind, pure, Except.pure]

/-! ## Chains from genesis -/

theorem finish_chainStart (entries : List AuditEntry) :
    (entryChain crates).finish (chainStart none) entries =
      ((logHead entries).1 + 1, (logHead entries).2) := by
  cases entries using List.reverseRecOn with
  | nil => rfl
  | append_singleton entries e =>
      rw [HashChain.Shape.finish_append, logHead_snoc]
      rfl

theorem follows_snoc_nextEntry {σ : Type} {writer : WriterState σ}
    {call : Call} {record : Record} {entry : AuditEntry}
    {entries : List AuditEntry}
    (hchain : (entryChain crates).Follows (chainStart none) entries)
    (hhead : writer.head = logHead entries)
    (hnext : writer.nextEntry crates call record = .ok entry) :
    (entryChain crates).Follows (chainStart none) (entries ++ [entry]) := by
  obtain ⟨hseq, hprev, hsealed⟩ := writer.nextEntry_spec crates hnext
  have hwriter : writer.seq = (logHead entries).1 ∧
      writer.prevHash = (logHead entries).2 := by
    rw [← hhead]
    exact ⟨rfl, rfl⟩
  rw [HashChain.Shape.follows_append, finish_chainStart]
  refine ⟨hchain, ⟨?_, ?_, hsealed⟩, trivial⟩
  · rw [← hwriter.1]
    exact hseq
  · rw [← hwriter.2]
    exact hprev

/-- Sequence numbers count the entries, up to the width of the counter. -/
theorem seq_getElem {start : UInt64 × String} {entries : List AuditEntry}
    (h : (entryChain crates).Follows start entries) (i : ℕ)
    (hi : i < entries.length) :
    entries[i].seq = start.1 + UInt64.ofNat i := by
  induction entries generalizing start i with
  | nil => simp at hi
  | cons e rest ih =>
      have hseq : e.seq = start.1 := h.1.1
      cases i with
      | zero => simpa using hseq
      | succ i =>
          have htail := ih h.2 i (by simpa using hi)
          have hafter : ((entryChain crates).after e).1 = e.seq + 1 := rfl
          rw [List.getElem_cons_succ, htail, hafter, hseq, UInt64.ofNat_add,
            UInt64.add_assoc, UInt64.add_comm 1]
          rfl

theorem toNat_seq_getElem {entries : List AuditEntry}
    (h : (entryChain crates).Follows (chainStart none) entries)
    (hlength : entries.length < 2 ^ 64) (i : ℕ) (hi : i < entries.length) :
    entries[i].seq.toNat = i + 1 := by
  have hseq : entries[i].seq = UInt64.ofNat (i + 1) := by
    rw [seq_getElem crates h i hi, UInt64.ofNat_add, UInt64.add_comm]
    rfl
  rw [hseq, UInt64.toNat_ofNat_of_lt' (show i + 1 < 2 ^ 64 by omega)]

theorem toNat_logHead {entries : List AuditEntry}
    (h : (entryChain crates).Follows (chainStart none) entries)
    (hlength : entries.length < 2 ^ 64) :
    (logHead entries).1.toNat = entries.length := by
  cases entries using List.reverseRecOn with
  | nil => rfl
  | append_singleton entries e =>
      have hlast := toNat_seq_getElem crates h hlength entries.length (by simp)
      simpa using hlast

end Chainlog
