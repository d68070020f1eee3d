import Chainlog.Durability

/-!
# Crash points

An append is cut anywhere: before or after the next segment file is created,
and after any number of bytes of the line.  What is then on disk is what some
failed append leaves, and it is found by a concurrent reader or by the next
process.  The one cut that loses the log's readers is inside the line; the one
that poisons it later is between the text and its newline, unless the next line
goes to a new file.
-/

namespace Chainlog

variable (crates : Crates)

namespace Engine

def cut (s : Engine) (entry : AuditEntry) (io : IoOutcome) : DataPath :=
  (s.writer.store.append crates entry io).1.disk

/-- The disk is read as the acknowledged entries, optionally followed by the
entry in flight; a restart resumes after the last of them, and every chain
continued from there is read back and verifies from genesis. -/
def Recovers (s : Engine) (entry : AuditEntry) (disk : DataPath)
    (mode : Mode) : Prop :=
  ∃ found, (found = s.acked ∨ found = s.acked ++ [entry]) ∧
    readStored crates s.writer.store.isSegmented disk = .ok found ∧
    ∃ t, start crates mode disk = .ok t ∧ t.writer.head = logHead found ∧
      ∀ u, Runs crates Appends t u → (∀ e ∈ u.acked, ParsesBack crates e) →
        found.length + u.acked.length + 1 < 2 ^ 64 →
          readStored crates u.writer.store.isSegmented u.writer.store.disk =
              .ok (found ++ u.acked) ∧
            (verifyEntries crates (found ++ u.acked)).isValid = true

variable {crates}

theorem cut_cases {entry : AuditEntry} {bytes : Bytes}
    (h : bytes <+: entryLine crates entry) :
    (bytes <+: asBytes (entryText crates entry) ∧
        bytes ≠ asBytes (entryText crates entry)) ∨
      bytes = asBytes (entryText crates entry) ∨
      bytes = entryLine crates entry := by
  have htext : asBytes (entryText crates entry) <+: entryLine crates entry :=
    List.prefix_append _ _
  rcases List.prefix_or_prefix_of_prefix h htext with hshort | hlong
  · by_cases heq : bytes = asBytes (entryText crates entry)
    · exact Or.inr (Or.inl heq)
    · exact Or.inl ⟨hshort, heq⟩
  · exact Or.inr (eq_text_or_eq_line hlong h)

variable {s : Engine} {record : Record} {call : Call} {entry : AuditEntry}

theorem isSegmented_record (record : Record) (call : Call) :
    (s.record crates record call).writer.store.isSegmented =
      s.writer.store.isSegmented :=
  s.writer.isSegmented_process crates call record

theorem parsesBack_of_plain {e : AuditEntry}
    (hdata : e.payload.data = Value.null) (hpii : e.payload.pii = none) :
    ParsesBack referenceCrates e := by
  rw [parsesBack_iff_of_invertsUpTo referenceCrates
    (referenceSerde_invertsUpTo 127), AuditEntry.depth_toDocument, hdata, hpii]
  simp [Value.depth, Value.toDocument, Value.null]

noncomputable def firstLogin : AuditEntry :=
  sealEntry referenceCrates 0 genesisPrevHash (loginCall .synced) alice none

theorem holds_onMissing : onMissing.Holds referenceCrates onMissing.acked :=
  holds_of_start start_onMissing

end Engine

end Chainlog
