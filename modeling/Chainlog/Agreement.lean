import Chainlog.ChainVerification
import Chainlog.Cli
import Chainlog.Server

/-!
# The server and the offline tool

Both verify what `read_all` or `read_all_segmented` returns.  The server turns
every I/O error into an empty list, and a line that is not valid UTF-8 is an
I/O error of the line reader.  The two therefore agree on a log exactly when
no such fault comes before the first line that fails to parse.
-/

namespace Chainlog

variable (crates : Crates)

/-! ## The first fault -/

/-- Some item is at fault and every item before it is clean. -/
def FaultFirst {α : Type} (clean fault : α → Prop) (items : List α) : Prop :=
  ∃ before item after, items = before ++ item :: after ∧
    (∀ x ∈ before, clean x) ∧ fault item

theorem faultFirst_nil {α : Type} (clean fault : α → Prop) :
    ¬FaultFirst clean fault [] := by
  rintro ⟨before, item, after, heq, _⟩
  simp at heq

theorem faultFirst_cons {α : Type} {clean fault : α → Prop} {x : α}
    {rest : List α} :
    FaultFirst clean fault (x :: rest) ↔
      fault x ∨ (clean x ∧ FaultFirst clean fault rest) := by
  constructor
  · rintro ⟨before, item, after, heq, hclean, hfault⟩
    cases before with
    | nil =>
        obtain ⟨rfl, rfl⟩ := List.cons.inj heq
        exact Or.inl hfault
    | cons y before =>
        obtain ⟨rfl, rfl⟩ := List.cons.inj heq
        exact Or.inr ⟨hclean x (by simp), before, item, after, rfl,
          fun z hz => hclean z (List.mem_cons_of_mem x hz), hfault⟩
  · rintro (hfault | ⟨hx, before, item, after, rfl, hclean, hfault⟩)
    · exact ⟨[], x, rest, rfl, by simp, hfault⟩
    · exact ⟨x :: before, item, after, rfl,
        List.forall_mem_cons.mpr ⟨hx, hclean⟩, hfault⟩

/-- The line is blank or parses as an entry. -/
def CleanLine (piece : Bytes) : Prop :=
  ∃ text, fromUtf8 piece = some text ∧
    (isBlank (stripLineEnd text) ∨
      ∃ entry, decodeEntry crates (stripLineEnd text) = .ok entry)

/-- The line is not valid UTF-8. -/
def GarbledLine (piece : Bytes) : Prop := fromUtf8 piece = none

/-- Every line of the file is clean. -/
def CleanFile : FileNode → Prop
  | .readable content =>
      ∀ piece ∈ Lines.pieces newline content, CleanLine crates piece
  | .unreadable _ => False

/-- The file cannot be opened, or a garbled line comes before every line that
fails to parse. -/
def FileFault : FileNode → Prop
  | .readable content =>
      FaultFirst (CleanLine crates) GarbledLine (Lines.pieces newline content)
  | .unreadable _ => True

/-- A faulty segment comes before every segment with a line that fails to
parse. -/
def SegmentFault (dir : Dir) : Prop :=
  FaultFirst (fun segment => CleanFile crates segment.node)
    (fun segment => FileFault crates segment.node) (listSegments dir)

/-- Every line is blank. -/
def BlankFile : FileNode → Prop
  | .readable content => ∀ piece ∈ Lines.pieces newline content,
      ∃ text, fromUtf8 piece = some text ∧ isBlank (stripLineEnd text)
  | .unreadable _ => False

/-! ## What the readers return -/

def IsIoError {α : Type} (result : Result α) : Prop :=
  ∃ reason, result = .error (.io reason)

theorem isIoError_map {α β : Type} (f : α → β) (result : Result α) :
    IsIoError (result.map f) ↔ IsIoError result := by
  cases result <;> simp [IsIoError, Except.map]

theorem readLines_isIoError (pieces : List Bytes) :
    IsIoError (readLines crates pieces) ↔
      FaultFirst (CleanLine crates) GarbledLine pieces := by
  induction pieces with
  | nil => simp [readLines, IsIoError, faultFirst_nil]
  | cons piece rest ih =>
      rw [faultFirst_cons]
      cases hutf : fromUtf8 piece with
      | none => simp [readLines, readLine, hutf, IsIoError, GarbledLine]
      | some text =>
          have hclean : CleanLine crates piece ↔
              (isBlank (stripLineEnd text) ∨
                ∃ entry, decodeEntry crates (stripLineEnd text) = .ok entry) := by
            simp [CleanLine, hutf]
          simp only [readLines, readLine, hutf, hclean, GarbledLine, reduceCtorEq,
            false_or]
          by_cases hblank : isBlank (stripLineEnd text)
          · simpa [hblank] using ih
          · cases hdecode : decodeEntry crates (stripLineEnd text) with
            | error reason => simp [hblank, IsIoError]
            | ok entry => simpa [hblank, isIoError_map] using ih

theorem readLines_isOk (pieces : List Bytes) :
    (∃ entries, readLines crates pieces = .ok entries) ↔
      ∀ piece ∈ pieces, CleanLine crates piece := by
  induction pieces with
  | nil => simp [readLines]
  | cons piece rest ih =>
      rw [List.forall_mem_cons, ← ih]
      cases hutf : fromUtf8 piece with
      | none => simp [readLines, readLine, hutf, CleanLine]
      | some text =>
          by_cases hblank : isBlank (stripLineEnd text)
          · simp [readLines, readLine, hutf, CleanLine, hblank]
          · cases hdecode : decodeEntry crates (stripLineEnd text) with
            | error reason =>
                simp [readLines, readLine, hutf, CleanLine, hblank, hdecode]
            | ok entry =>
                cases hrest : readLines crates rest <;>
                  simp [readLines, readLine, hutf, CleanLine, hblank, hdecode,
                    hrest, Except.map]

theorem readLines_eq_nil {pieces : List Bytes}
    (h : readLines crates pieces = .ok []) :
    ∀ piece ∈ pieces,
      ∃ text, fromUtf8 piece = some text ∧ isBlank (stripLineEnd text) := by
  induction pieces with
  | nil => simp
  | cons piece rest ih =>
      cases hutf : fromUtf8 piece with
      | none => simp [readLines, readLine, hutf] at h
      | some text =>
          by_cases hblank : isBlank (stripLineEnd text)
          · have hrest : readLines crates rest = .ok [] := by
              simpa [readLines, readLine, hutf, hblank] using h
            exact List.forall_mem_cons.mpr ⟨⟨text, hutf, hblank⟩, ih hrest⟩
          · exfalso
            cases hdecode : decodeEntry crates (stripLineEnd text) <;>
              cases hrest : readLines crates rest <;>
              simp [readLines, readLine, hutf, hblank, hdecode, hrest,
                Except.map] at h

theorem readFile_isIoError (node : FileNode) :
    IsIoError (readFile crates node) ↔ FileFault crates node := by
  cases node with
  | readable content => exact readLines_isIoError crates _
  | unreadable reason => simp [readFile, IsIoError, FileFault]

theorem readFile_isOk (node : FileNode) :
    (∃ entries, readFile crates node = .ok entries) ↔ CleanFile crates node := by
  cases node with
  | readable content => exact readLines_isOk crates _
  | unreadable reason => simp [readFile, CleanFile]

theorem readFile_eq_nil {node : FileNode} (h : readFile crates node = .ok []) :
    BlankFile node := by
  cases node with
  | readable content => exact readLines_eq_nil crates h
  | unreadable reason => simp [readFile] at h

theorem readSegments_isIoError (segments : List SegmentFile) :
    IsIoError (readSegments crates segments) ↔
      FaultFirst (fun segment => CleanFile crates segment.node)
        (fun segment => FileFault crates segment.node) segments := by
  induction segments with
  | nil => simp [readSegments, IsIoError, faultFirst_nil]
  | cons segment rest ih =>
      rw [faultFirst_cons, ← readFile_isIoError, ← readFile_isOk, ← ih]
      cases hread : readFile crates segment.node with
      | error err => simp [readSegments, hread, IsIoError]
      | ok entries =>
          have hmap := isIoError_map (entries ++ ·) (readSegments crates rest)
          simpa [readSegments, hread, IsIoError] using hmap

theorem readSegments_eq_nil {segments : List SegmentFile}
    (h : readSegments crates segments = .ok []) :
    ∀ segment ∈ segments, BlankFile segment.node := by
  induction segments with
  | nil => simp
  | cons segment rest ih =>
      cases hread : readFile crates segment.node with
      | error err => simp [readSegments, hread] at h
      | ok entries =>
          cases hrest : readSegments crates rest with
          | error err => simp [readSegments, hread, hrest, Except.map] at h
          | ok others =>
              have hnil : entries = [] ∧ others = [] := by
                simpa [readSegments, hread, hrest, Except.map] using h
              rw [hnil.1] at hread
              rw [hnil.2] at hrest
              exact List.forall_mem_cons.mpr
                ⟨readFile_eq_nil crates hread, ih hrest⟩

/-! ## Agreement -/

variable (keys : SignatureCrates)

/-- Whenever the server answers 200 for the log, the offline tool exits with
success and prints the same report, and a report of no entries means that
`NoEntry` holds of the log. -/
def IntegrityAgreement (σ : Type) (segmented : Bool) (path : DataPath)
    (NoEntry : Prop) : Prop :=
  ∀ (st : AppState σ) (headers : HeaderMap) (report : VerifyReport),
    st.segmented = segmented →
      st.verify crates headers path = .ok (.ok, report) →
        ((verifyCommand crates keys path none none).exitCode = .success ∧
          (verifyCommand crates keys path none none).stdout = [report]) ∧
        (report.entriesChecked = 0 → NoEntry)

theorem verify_eq_ok {σ : Type} {st : AppState σ} {headers : HeaderMap}
    {path : DataPath} {status : StatusCode} {report : VerifyReport}
    (h : st.verify crates headers path = .ok (status, report)) :
    ∃ entries, readLog crates path st.segmented = .ok entries ∧
      report = verifyEntries crates entries ∧
      status = if report.isValid then StatusCode.ok else .conflict := by
  unfold AppState.verify at h
  cases hrequire : require headers st.readToken with
  | error err => simp [hrequire, bind, Except.bind] at h
  | ok granted =>
      cases hread : readLog crates path st.segmented with
      | error err => simp [hrequire, hread, bind, Except.bind] at h
      | ok entries =>
          simp only [hrequire, hread, bind, Except.bind, pure, Except.pure,
            Except.ok.injEq, Prod.mk.injEq] at h
          obtain ⟨hstatus, hreport⟩ := h
          exact ⟨entries, rfl, hreport.symm, by rw [← hstatus, hreport]⟩

theorem verify_of_read {σ : Type} {st : AppState σ} {headers : HeaderMap}
    {path : DataPath} {entries : List AuditEntry}
    (hrequire : require headers st.readToken = .ok ())
    (hread : readLog crates path st.segmented = .ok entries) :
    st.verify crates headers path =
      .ok (if (verifyEntries crates entries).isValid then .ok else .conflict,
        verifyEntries crates entries) := by
  simp [AppState.verify, hrequire, hread, bind, Except.bind, pure, Except.pure]

/-- Agreement fails exactly on the I/O errors that the server swallows. -/
theorem integrityAgreement_of_read {σ : Type} (log : WriterState σ)
    {segmented : Bool} {path : DataPath} {NoEntry : Prop}
    (hsame : loadEntries crates path = readStored crates segmented path)
    (hempty : loadEntries crates path = .ok [] → NoEntry) :
    IntegrityAgreement crates keys σ segmented path NoEntry ↔
      ¬IsIoError (loadEntries crates path) := by
  constructor
  · rintro hagree ⟨reason, hio⟩
    let st : AppState σ :=
      { log, segmented, writeToken := "w", readToken := "r" }
    have hread : readLog crates path st.segmented = .ok [] := by
      simp only [readLog, st, ← hsame, hio]
    have hverify : st.verify crates (bearing "r") path =
        .ok (.ok, verifyEntries crates []) :=
      verify_of_read crates require_bearing hread
    have hexit := (hagree st (bearing "r") _ rfl hverify).1.1
    simp [verifyCommand, hio, VerifyOutput.failed] at hexit
  · intro hnoIo st headers report hsegmented hverify
    obtain ⟨entries, hread, hreport, hstatus⟩ := verify_eq_ok crates hverify
    have hvalid : report.isValid = true := by
      by_contra hinvalid
      simp [hinvalid] at hstatus
    have hload : loadEntries crates path = .ok entries := by
      rw [hsegmented, readLog, ← hsame] at hread
      cases hload : loadEntries crates path with
      | ok others => simpa [hload] using hread
      | error err =>
          cases err with
          | io reason => exact absurd ⟨reason, hload⟩ hnoIo
          | _ => simp [hload] at hread
    have hreport' : report = verifyEntriesFrom crates none entries := hreport
    refine ⟨⟨?_, ?_⟩, fun hzero => hempty ?_⟩
    · simp [verifyCommand, hload, loadAnchor, ← hreport', hvalid]
    · simp [verifyCommand, hload, loadAnchor, ← hreport']
    · rw [hreport', verifyEntriesFrom_eq] at hzero
      rw [hload, List.eq_nil_of_length_eq_zero hzero]

theorem integrityAgreement_file (node : FileNode) :
    IntegrityAgreement crates keys FileStore false (.file node)
        (BlankFile node) ↔ ¬FileFault crates node := by
  rw [← readFile_isIoError]
  exact integrityAgreement_of_read crates keys
    { store := { content := [], cachedTail := none }
      seq := 0
      prevHash := genesisPrevHash } rfl (readFile_eq_nil crates)

theorem integrityAgreement_directory (dir : Dir) :
    IntegrityAgreement crates keys SegmentedStore true (.directory dir)
        (∀ segment ∈ listSegments dir, BlankFile segment.node) ↔
      ¬SegmentFault crates dir := by
  rw [SegmentFault, ← readSegments_isIoError]
  exact integrityAgreement_of_read crates keys
    { store := {
        dir := []
        maxEntries := 1
        file := segmentName 1
        curFirst := 1
        curCount := 0
        cachedTail := none }
      seq := 0
      prevHash := genesisPrevHash } rfl (readSegments_eq_nil crates)

/-- The server and the offline tool agree on a log exactly when no unreadable
file and no garbled line comes before the first line that fails to parse. -/
theorem integrityAgreement_iff :
    (∀ node, IntegrityAgreement crates keys FileStore false (.file node)
        (BlankFile node) ↔ ¬FileFault crates node) ∧
      ∀ dir, IntegrityAgreement crates keys SegmentedStore true (.directory dir)
        (∀ segment ∈ listSegments dir, BlankFile segment.node) ↔
          ¬SegmentFault crates dir :=
  ⟨integrityAgreement_file crates keys,
    integrityAgreement_directory crates keys⟩

/-- Overwriting the first byte of a one-entry log with `0xFF` makes the server
report an intact empty chain where the offline tool fails. -/
theorem integrityAgreement_garbled :
    ¬IntegrityAgreement referenceCrates noSignatures FileStore false
        (.file (.readable (0xFF :: (entryLine referenceCrates
          (referenceEntry 1 none genesisPrevHash)).tail)))
        (BlankFile (.readable (0xFF :: (entryLine referenceCrates
          (referenceEntry 1 none genesisPrevHash)).tail))) := by
  rw [integrityAgreement_file, not_not]
  obtain ⟨piece, others, hpieces, hfirst⟩ := Lines.pieces_cons newline 0xFF
    (entryLine referenceCrates (referenceEntry 1 none genesisPrevHash)).tail
  refine ⟨[], piece, others, hpieces, by simp, ?_⟩
  obtain ⟨rest, rfl⟩ := hfirst
  exact fromUtf8_cons_ff rest

end Chainlog
