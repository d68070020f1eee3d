import Chainlog.Foundation.HandleLifetime
import Chainlog.Linearizability

/-!
# The life of the writer thread

Clones of an audit log are handles to one writer thread.  The thread ends when
the last clone is dropped, and that drop joins it; or it panics in the middle
of a record, with the entry in the store or not, and takes the channel with
it.  The channel is open in every call, since a call borrows a clone: `record`
and `head` never find the log closed.
-/

namespace Chainlog

open RequestReply (Reaches System)
open HandleLifetime (Lifetime Failure)

variable (crates : Crates) {σ : Type} [Store σ] (view : σ → List AuditEntry)

/-- What a panic leaves of the writer: it has not touched the store, or its
append has been carried out. -/
inductive Crash : WriterState σ → Cmd → WriterState σ → Prop where
  | early (writer : WriterState σ) (cmd : Cmd) : Crash writer cmd writer
  | late (writer : WriterState σ) (record : Record) (call : Call)
      (atomic : ∀ entry, writer.nextEntry crates call record = .ok entry →
        AppendsOrFails crates view writer.store entry call.io) :
      Crash writer (.write record) (writer.process crates call record).1

/-- The error of a call that gets no reply. -/
def writerGone : Failure → Error
  | .notSent => .writerGone "writer thread has stopped"
  | .noReply => .writerGone "writer dropped the reply"

variable {crates view}

/-- A panic leaves a chain that has grown by at most one entry. -/
theorem AtHead.crash {writer next : WriterState σ} {cmd : Cmd}
    (h : AtHead crates view writer) (hcrash : Crash crates view writer cmd next) :
    AtHead crates view next ∧ ∃ extra,
      view next.store = view writer.store ++ extra ∧ extra.length ≤ 1 := by
  cases hcrash with
  | early => exact ⟨h, [], by simp, by simp⟩
  | late record call atomic =>
      obtain ⟨hnext, new, hview, hreceipts⟩ :=
        h.serve (Serve.write writer record call atomic)
      refine ⟨hnext, new, hview, ?_⟩
      have hlength := congrArg List.length hreceipts
      rw [List.length_map] at hlength
      rw [← hlength]
      cases hresult : (writer.process crates call record).2 with
      | error err => simp [acceptedReceipts]
      | ok receipt => simp [acceptedReceipts]

variable {κ : Type} [DecidableEq κ]

end Chainlog
