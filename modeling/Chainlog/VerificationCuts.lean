import Chainlog.Overflow

/-!
# Verification in pieces

A list may be cut anywhere: the back is verified from the last entry of the
front, and what is reported for the two pieces is what is reported for the
whole, up to the wording.
-/

namespace Chainlog

/-- What is reported, without the wording. -/
def VerifyReport.faults (report : VerifyReport) : List (UInt64 × ViolationKind) :=
  report.violations.map fun v => (v.seq, v.kind)

/-- The anchor that a checkpoint of an entry gives. -/
def Anchor.after (e : AuditEntry) : Anchor where
  seq := e.seq
  hash := e.entryHash

/-- The anchor behind a piece: its last entry, or the one before it. -/
def anchorBehind (anchor : Option Anchor) (entries : List AuditEntry) :
    Option Anchor :=
  (entries.getLast?.map Anchor.after).or anchor

variable (crates : Crates)

def verifyPieces (anchor : Option Anchor) :
    List (List AuditEntry) → List VerifyReport
  | [] => []
  | piece :: rest =>
      verifyEntriesFrom crates anchor piece ::
        verifyPieces (anchorBehind anchor piece) rest

theorem isValid_iff_faults {report : VerifyReport} :
    report.isValid = true ↔ report.faults = [] := by
  unfold VerifyReport.isValid VerifyReport.faults
  rw [List.isEmpty_iff, List.map_eq_nil_iff]

/-! ## One cut -/

/-- Following an entry and following its anchor fail alike. -/
theorem linkViolations_faults (p entry : AuditEntry) :
    (linkViolations p entry).map (fun v => (v.seq, v.kind)) =
      (startViolations (some (.after p)) entry).map fun v => (v.seq, v.kind) := by
  simp only [linkViolations, startViolations, Anchor.after]
  by_cases hlink : entry.prevHash = p.entryHash <;>
    by_cases hseq : entry.seq = p.seq + 1 <;> simp [hlink, hseq]

theorem violationsFrom_faults (anchor : Option Anchor) (p : AuditEntry)
    (entries : List AuditEntry) :
    (violationsFrom crates anchor (some p) entries).map
        (fun v => (v.seq, v.kind)) =
      (violationsFrom crates (some (.after p)) none entries).map
        fun v => (v.seq, v.kind) := by
  cases entries with
  | nil => rfl
  | cons entry rest =>
      rw [violationsFrom_cons_some, violationsFrom_cons_none,
        violationsFrom_some crates anchor (some (.after p)) entry rest]
      simp only [List.map_append, linkViolations_faults]

theorem faults_append (anchor : Option Anchor) (front back : List AuditEntry) :
    (verifyEntriesFrom crates anchor (front ++ back)).faults =
      (verifyEntriesFrom crates anchor front).faults ++
        (verifyEntriesFrom crates (anchorBehind anchor front) back).faults := by
  unfold VerifyReport.faults anchorBehind
  rw [verifyEntriesFrom_eq, verifyEntriesFrom_eq, verifyEntriesFrom_eq]
  simp only [violationsFrom_append, List.map_append, Option.or_none]
  cases front.getLast? with
  | none => rfl
  | some last => rw [violationsFrom_faults]; rfl

theorem entriesChecked_append (anchor : Option Anchor)
    (front back : List AuditEntry) :
    (verifyEntriesFrom crates anchor (front ++ back)).entriesChecked =
      (verifyEntriesFrom crates anchor front).entriesChecked +
        (verifyEntriesFrom crates (anchorBehind anchor front)
          back).entriesChecked := by
  simp only [verifyEntriesFrom_eq, List.length_append]

theorem head_append (anchor : Option Anchor) (front back : List AuditEntry) :
    (verifyEntriesFrom crates anchor (front ++ back)).head =
      (verifyEntriesFrom crates (anchorBehind anchor front) back).head.or
        (verifyEntriesFrom crates anchor front).head := by
  simp only [verifyEntriesFrom_eq, lastHead, List.getLast?_append]
  cases back.getLast? <;> rfl

theorem addends_append (before : Option UInt64) (front back : List AuditEntry) :
    addends before (front ++ back) = addends before front ++
      addends ((front.getLast?.map AuditEntry.seq).or before) back := by
  induction front generalizing before with
  | nil => rfl
  | cons entry rest ih =>
      have hlast : ((entry :: rest).getLast?.map AuditEntry.seq).or before =
          (rest.getLast?.map AuditEntry.seq).or (some entry.seq) := by
        cases rest with
        | nil => rfl
        | cons next rest => simp [List.getLast?_cons]
      rw [List.cons_append, addends, addends, ih, hlast, List.append_assoc]

/-- With overflow checks the whole is verified where both pieces are. -/
theorem belowTop_append (anchor : Option Anchor)
    (front back : List AuditEntry) :
    BelowTop anchor (front ++ back) ↔
      BelowTop anchor front ∧ BelowTop (anchorBehind anchor front) back := by
  have hseq : (anchorBehind anchor front).map Anchor.seq =
      (front.getLast?.map AuditEntry.seq).or (anchor.map Anchor.seq) := by
    unfold anchorBehind
    cases front.getLast? <;> rfl
  rw [belowTop_iff, belowTop_iff, belowTop_iff, addends_append, hseq,
    List.mem_append, not_or]

theorem checked_append (anchor : Option Anchor) (front back : List AuditEntry) :
    (∃ report, verifyEntriesFromChecked crates anchor (front ++ back) =
        .ok report) ↔
      (∃ report, verifyEntriesFromChecked crates anchor front = .ok report) ∧
        ∃ report, verifyEntriesFromChecked crates (anchorBehind anchor front)
          back = .ok report := by
  simp only [verifyEntriesFromChecked_ok_iff, belowTop_append,
    exists_and_left, exists_eq, and_true]

/-! ## Any number of cuts -/

theorem verifyPieces_flatten (anchor : Option Anchor)
    (pieces : List (List AuditEntry)) :
    (verifyEntriesFrom crates anchor pieces.flatten).faults =
        (verifyPieces crates anchor pieces).flatMap VerifyReport.faults ∧
      (verifyEntriesFrom crates anchor pieces.flatten).entriesChecked =
        ((verifyPieces crates anchor pieces).map
          VerifyReport.entriesChecked).sum := by
  induction pieces generalizing anchor with
  | nil => exact ⟨rfl, rfl⟩
  | cons piece rest ih =>
      obtain ⟨hfaults, hcount⟩ := ih (anchorBehind anchor piece)
      rw [List.flatten_cons, verifyPieces, List.flatMap_cons, List.map_cons,
        List.sum_cons]
      exact ⟨by rw [faults_append, hfaults],
        by rw [entriesChecked_append, hcount]⟩

theorem isValid_pieces (anchor : Option Anchor)
    (pieces : List (List AuditEntry)) :
    (verifyEntriesFrom crates anchor pieces.flatten).isValid = true ↔
      ∀ report ∈ verifyPieces crates anchor pieces, report.isValid = true := by
  simp only [isValid_iff_faults, (verifyPieces_flatten crates anchor pieces).1,
    List.flatMap_eq_nil_iff]

/-- Verification composes at every cut, and so over any number of cuts. -/
theorem verification_composes (anchor : Option Anchor)
    (front back : List AuditEntry) (last : AuditEntry) :
    let whole := verifyEntriesFrom crates anchor (front ++ [last] ++ back)
    let former := verifyEntriesFrom crates anchor (front ++ [last])
    let latter := verifyEntriesFrom crates
      (some { seq := last.seq, hash := last.entryHash }) back
    whole.faults = former.faults ++ latter.faults ∧
      whole.entriesChecked = former.entriesChecked + latter.entriesChecked ∧
      whole.head = (if back = [] then former.head else latter.head) ∧
      (whole.isValid = true ↔ former.isValid = true ∧ latter.isValid = true) ∧
      ((∃ report, verifyEntriesFromChecked crates anchor
          (front ++ [last] ++ back) = .ok report) ↔
        (∃ report, verifyEntriesFromChecked crates anchor (front ++ [last]) =
            .ok report) ∧
          ∃ report, verifyEntriesFromChecked crates
            (some { seq := last.seq, hash := last.entryHash }) back =
              .ok report) ∧
      ∀ pieces : List (List AuditEntry),
        (verifyEntriesFrom crates anchor pieces.flatten).isValid = true ↔
          ∀ report ∈ verifyPieces crates anchor pieces,
            report.isValid = true := by
  intro whole former latter
  have hanchor : anchorBehind anchor (front ++ [last]) =
      some { seq := last.seq, hash := last.entryHash } := by
    unfold anchorBehind
    rw [List.getLast?_append, List.getLast?_singleton]
    rfl
  have hfaults := faults_append crates anchor (front ++ [last]) back
  have hcount := entriesChecked_append crates anchor (front ++ [last]) back
  have hhead := head_append crates anchor (front ++ [last]) back
  have hchecked := checked_append crates anchor (front ++ [last]) back
  rw [hanchor] at hfaults hcount hhead hchecked
  refine ⟨hfaults, hcount, ?_, ?_, hchecked, isValid_pieces crates anchor⟩
  · have hlatter : latter.head = lastHead back :=
      congrArg VerifyReport.head (verifyEntriesFrom_eq crates _ back)
    have hwhole : whole.head = latter.head.or former.head := hhead
    rw [hwhole, hlatter]
    cases back with
    | nil => rfl
    | cons e rest => simp [lastHead, List.getLast?_cons]
  · rw [isValid_iff_faults, isValid_iff_faults, isValid_iff_faults, hfaults,
      List.append_eq_nil_iff]

end Chainlog
