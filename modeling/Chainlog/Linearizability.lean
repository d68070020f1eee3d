import Chainlog.ChainGrowth
import Chainlog.Foundation.RequestReply

/-!
# Single-writer linearizability

Every clone of an audit log is a client of one writer thread.  The store is
seen through the list of entries it holds; an append adds its entry to that
list or fails without effect.
-/

namespace Chainlog

open RequestReply

/-- What a client puts on the channel. -/
inductive Cmd where
  | write (record : Record)
  | head

/-- What the writer sends back. -/
inductive Reply where
  | receipt (result : Result Receipt)
  | head (head : UInt64 × String)

variable (crates : Crates) {σ : Type} [Store σ] (view : σ → List AuditEntry)

/-- The append adds the entry, or fails without effect. -/
def AppendsOrFails (store : σ) (entry : AuditEntry) (io : IoOutcome) : Prop :=
  match Store.append crates store entry io with
  | (next, .ok ()) => view next = view store ++ [entry]
  | (next, .error _) => view next = view store

/-- The writer thread takes one command. -/
inductive Serve : WriterState σ → Cmd → Reply → WriterState σ → Prop where
  | write (writer : WriterState σ) (record : Record) (call : Call)
      (atomic : ∀ entry, writer.nextEntry crates call record = .ok entry →
        AppendsOrFails crates view writer.store entry call.io) :
      Serve writer (.write record)
        (.receipt (writer.process crates call record).2)
        (writer.process crates call record).1
  | head (writer : WriterState σ) : Serve writer .head (.head writer.head) writer

/-- The receipts of the successful record calls, in the order of service. -/
def acceptedReceipts (trace : List (Cmd × Reply)) : List Receipt :=
  trace.filterMap fun served => match served.2 with
    | .receipt (.ok receipt) => some receipt
    | _ => none

/-- The writer's head is the head of a chain from genesis that the store
holds. -/
structure AtHead (writer : WriterState σ) : Prop where
  chain : (entryChain crates).Follows (chainStart none) (view writer.store)
  head : writer.head = logHead (view writer.store)

variable {crates view}

omit [Store σ] in
theorem AtHead.valid {writer : WriterState σ}
    (h : AtHead crates view writer) :
    (verifyEntries crates (view writer.store)).isValid = true :=
  (verifyEntriesFrom_isValid crates none _).mpr h.chain

/-- One command keeps the writer at the head and adds at most one entry, the
one its receipt names. -/
theorem AtHead.serve {writer next : WriterState σ} {cmd : Cmd} {reply : Reply}
    (h : AtHead crates view writer)
    (hserve : Serve crates view writer cmd reply next) :
    AtHead crates view next ∧
      ∃ new, view next.store = view writer.store ++ new ∧
        acceptedReceipts [(cmd, reply)] = new.map AuditEntry.receipt := by
  cases hserve with
  | head => exact ⟨h, [], by simp, rfl⟩
  | write record call atomic =>
      rcases writer.process_cases crates call record with
        ⟨err, hnext, hprocess⟩ | ⟨entry, store, err, hnext, happend, hprocess⟩ |
          ⟨entry, store, hnext, happend, hprocess⟩
      · rw [hprocess]
        exact ⟨h, [], by simp, rfl⟩
      · have hview : view store = view writer.store := by
          have hatomic := atomic entry hnext
          rwa [AppendsOrFails, happend] at hatomic
        rw [hprocess]
        refine ⟨⟨?_, ?_⟩, [], by simpa using hview, rfl⟩
        · show (entryChain crates).Follows (chainStart none) (view store)
          rw [hview]
          exact h.chain
        · show writer.head = logHead (view store)
          rw [hview]
          exact h.head
      · have hview : view store = view writer.store ++ [entry] := by
          have hatomic := atomic entry hnext
          rwa [AppendsOrFails, happend] at hatomic
        rw [hprocess]
        refine ⟨⟨?_, ?_⟩, [entry], hview, rfl⟩
        · show (entryChain crates).Follows (chainStart none) (view store)
          rw [hview]
          exact follows_snoc_nextEntry crates h.chain h.head hnext
        · show (entry.seq, entry.entryHash) = logHead (view store)
          rw [hview, logHead_snoc]

variable {κ : Type} [DecidableEq κ]

/-- A reply to a head command is the writer's head. -/
theorem Serve.head_eq {writer next : WriterState σ} {cmd : Cmd}
    {head : UInt64 × String}
    (h : Serve crates view writer cmd (.head head) next) :
    head = writer.head := by
  cases h
  rfl

end Chainlog
