import Chainlog.EntryLines
import Chainlog.SegmentFiles

/-!
# Sequence numbers at the top

Every `seq + 1` of the verifier and of the writer, with overflow checks.  Where
none fails, the checked run is the run of the other modules.
-/

namespace Chainlog

/-- The panic of a build with overflow checks. -/
inductive Overflow where
  | add
  deriving DecidableEq, Repr

/-- `u64::MAX`. -/
def maxSeq : UInt64 := 0xFFFFFFFFFFFFFFFF

def succSeq (seq : UInt64) : Except Overflow UInt64 :=
  if seq = maxSeq then .error .add else .ok (seq + 1)

variable (crates : Crates)

/-! ## The verifier -/

/-- The sequence number that one turn of the loop adds one to. -/
def Walk.added (anchor : Option Anchor) (walk : Walk) : Option UInt64 :=
  match walk.prev with
  | some p => some p.seq
  | none => anchor.map Anchor.seq

def Walk.stepChecked (anchor : Option Anchor) (walk : Walk)
    (entry : AuditEntry) : Except Overflow Walk :=
  match walk.added anchor with
  | none => .ok (walk.step crates anchor entry)
  | some seq =>
      match succSeq seq with
      | .error overflow => .error overflow
      | .ok _ => .ok (walk.step crates anchor entry)

def verifyEntriesFromChecked (anchor : Option Anchor)
    (entries : List AuditEntry) : Except Overflow VerifyReport := do
  let walk ← entries.foldlM (Walk.stepChecked crates anchor)
    { violations := [], count := 0, prev := none, head := none }
  return {
    entriesChecked := walk.count
    violations := walk.violations
    head := walk.head }

/-- The sequence numbers that a walk adds one to, given the one before it. -/
def addends : Option UInt64 → List AuditEntry → List UInt64
  | _, [] => []
  | before, entry :: rest => before.toList ++ addends (some entry.seq) rest

theorem foldlM_stepChecked (anchor : Option Anchor) (walk : Walk)
    (entries : List AuditEntry) :
    entries.foldlM (Walk.stepChecked crates anchor) walk =
      if maxSeq ∈ addends (walk.added anchor) entries then .error .add
      else .ok (entries.foldl (Walk.step crates anchor) walk) := by
  induction entries generalizing walk with
  | nil => rfl
  | cons entry rest ih =>
      have hadded : (walk.step crates anchor entry).added anchor =
          some entry.seq := rfl
      have hrest := ih (walk.step crates anchor entry)
      rw [hadded] at hrest
      rw [List.foldlM_cons, List.foldl_cons, addends, Walk.stepChecked]
      cases hbefore : walk.added anchor with
      | none => exact hrest
      | some seq =>
          unfold succSeq
          by_cases htop : seq = maxSeq
          · simp [htop, bind, Except.bind]
          · have hmem : maxSeq ∈ (some seq).toList ++
                addends (some entry.seq) rest ↔
                  maxSeq ∈ addends (some entry.seq) rest := by
              simp [Ne.symm htop]
            simp only [if_neg htop, hmem]
            exact hrest

/-- The checked walk fails where it adds one to the largest number. -/
theorem verifyEntriesFromChecked_eq (anchor : Option Anchor)
    (entries : List AuditEntry) :
    verifyEntriesFromChecked crates anchor entries =
      if maxSeq ∈ addends (anchor.map Anchor.seq) entries then .error .add
      else .ok (verifyEntriesFrom crates anchor entries) := by
  unfold verifyEntriesFromChecked
  rw [foldlM_stepChecked]
  have hadded : ({ violations := [], count := 0, prev := none, head := none } :
      Walk).added anchor = anchor.map Anchor.seq := rfl
  rw [hadded]
  by_cases htop : maxSeq ∈ addends (anchor.map Anchor.seq) entries
  · rw [if_pos htop, if_pos htop]
    rfl
  · rw [if_neg htop, if_neg htop]
    rfl

/-- The numbers that are added to are the anchor's and those of all entries but
the last. -/
theorem mem_addends {before : Option UInt64} {entries : List AuditEntry}
    {seq : UInt64} :
    seq ∈ addends before entries ↔ (before = some seq ∧ entries ≠ []) ∨
      ∃ e ∈ entries.dropLast, e.seq = seq := by
  induction entries generalizing before with
  | nil => simp [addends]
  | cons entry rest ih =>
      rw [addends, List.mem_append, ih, Option.mem_toList]
      cases rest with
      | nil => simp
      | cons next rest => simp

/-- The first entry and the anchor leave room for one more. -/
def BelowTop (anchor : Option Anchor) (entries : List AuditEntry) : Prop :=
  (∀ a, anchor = some a → entries ≠ [] → a.seq ≠ maxSeq) ∧
    ∀ e ∈ entries.dropLast, e.seq ≠ maxSeq

theorem belowTop_iff {anchor : Option Anchor} {entries : List AuditEntry} :
    BelowTop anchor entries ↔
      maxSeq ∉ addends (anchor.map Anchor.seq) entries := by
  rw [mem_addends, Option.map_eq_some_iff]
  constructor
  · rintro ⟨hanchor, hentries⟩ (⟨⟨a, ha, htop⟩, hne⟩ | ⟨e, he, htop⟩)
    · exact hanchor a ha hne htop
    · exact hentries e he htop
  · intro h
    exact ⟨fun a ha hne htop => h (Or.inl ⟨⟨a, ha, htop⟩, hne⟩),
      fun e he htop => h (Or.inr ⟨e, he, htop⟩)⟩

theorem verifyEntriesFromChecked_ok_iff {anchor : Option Anchor}
    {entries : List AuditEntry} {report : VerifyReport} :
    verifyEntriesFromChecked crates anchor entries = .ok report ↔
      BelowTop anchor entries ∧
        report = verifyEntriesFrom crates anchor entries := by
  rw [verifyEntriesFromChecked_eq, belowTop_iff]
  by_cases htop : maxSeq ∈ addends (anchor.map Anchor.seq) entries
  · simp [htop]
  · simp [htop, eq_comm]

end Chainlog
