import Chainlog.EntryLines
import Chainlog.SegmentFiles

/-!
# Journals

What both stores are for: a log is a row of files in chain order, of which only
the last is written to.  A full file is closed and a new one is opened before
the next line is written.  `Represents` connects a store to its journal, and
every operation of the stores is the operation on the journal.
-/

namespace Chainlog

variable (crates : Crates)

/-- The files of a log in chain order.  `count` is the number of entries that
the store counts in the open file. -/
structure Journal where
  closed : List (UInt64 × Bytes)
  first : UInt64
  content : Bytes
  count : ℕ
  limit : Option ℕ

namespace Journal

def files (j : Journal) : List (UInt64 × Bytes) :=
  j.closed ++ [(j.first, j.content)]

/-- The open file holds as many entries as a file may hold. -/
def full (j : Journal) : Bool :=
  match j.limit with
  | some limit => decide (limit ≤ j.count)
  | none => false

def fresh (mode : Mode) : Journal where
  closed := []
  first := 1
  content := []
  count := 0
  limit := mode

def rotate (j : Journal) (first : UInt64) : Journal where
  closed := j.files
  first := first
  content := []
  count := 0
  limit := j.limit

/-- The journal that the entry's line goes to. -/
def opened (j : Journal) (entry : AuditEntry) : Journal :=
  if j.full then j.rotate entry.seq else j

def extend (j : Journal) (bytes : Bytes) (entries : ℕ) : Journal where
  closed := j.closed
  first := j.first
  content := j.content ++ bytes
  count := j.count + entries
  limit := j.limit

/-- Resume under a mode, with the entries counted anew. -/
def resume (j : Journal) (mode : Mode) (count : ℕ) : Journal where
  closed := j.closed
  first := j.first
  content := j.content
  count := count
  limit := mode

end Journal

/-- What a write reports. -/
def WriteOutcome.result : WriteOutcome → Result Unit
  | .synced => .ok ()
  | .writeFailed _ reason => .error (.io reason)
  | .flushFailed reason => .error (.io reason)
  | .syncFailed reason => .error (.io reason)

/-- The number of entries that a write adds to the store's count. -/
def WriteOutcome.counted : WriteOutcome → ℕ
  | .synced => 1
  | _ => 0

theorem LogStore.exists_admits (store : LogStore) :
    ∃ mode, store.Admits mode := by
  cases store with
  | file store => exact ⟨none, trivial⟩
  | segmented store => exact ⟨some 1, Nat.le_refl 1⟩

theorem writeLine_eq (content line : Bytes) (write : WriteOutcome) :
    writeLine content line write =
      (content ++ write.written line, write.result) := by
  cases write <;> rfl

namespace Journal

/-- Append one entry. -/
def append (j : Journal) (entry : AuditEntry) (io : IoOutcome) :
    Journal × Result Unit :=
  match j.full, io.create with
  | true, some reason => (j, .error (.io reason))
  | _, _ =>
      ((j.opened entry).extend (io.write.written (entryLine crates entry))
        io.write.counted, io.write.result)

def read (j : Journal) : Result (List AuditEntry) :=
  readNodes crates (j.files.map fun file => .readable file.2)

/-- The content of the file that the next append writes to. -/
def target (j : Journal) : Bytes := if j.full then [] else j.content

/-- The bytes of the entry's line that the append leaves on disk. -/
def written (j : Journal) (entry : AuditEntry) (io : IoOutcome) : Bytes :=
  if j.full = true ∧ io.create.isSome then []
  else io.write.written (entryLine crates entry)

/-- An append fails to open the next file, or writes to the open one. -/
theorem append_cases (j : Journal) (entry : AuditEntry) (io : IoOutcome) :
    (∃ reason, j.append crates entry io = (j, .error (.io reason)) ∧
        j.written crates entry io = []) ∨
      (j.append crates entry io =
          ((j.opened entry).extend (j.written crates entry io)
            io.write.counted, io.write.result) ∧
        j.written crates entry io =
          io.write.written (entryLine crates entry)) := by
  cases hfull : j.full with
  | false => right; simp [append, written, hfull]
  | true =>
      cases hcreate : io.create with
      | some reason =>
          left
          exact ⟨reason, by simp [append, hfull, hcreate],
            by simp [written, hfull, hcreate]⟩
      | none => right; simp [append, written, hfull, hcreate]

theorem opened_content (j : Journal) (entry : AuditEntry) :
    (j.opened entry).content = j.target := by
  cases hfull : j.full <;> simp [opened, target, rotate, hfull]

@[simp] theorem extend_nil (j : Journal) : j.extend [] 0 = j := by
  simp [extend]

theorem full_extend_zero (j : Journal) (bytes : Bytes) :
    (j.extend bytes 0).full = j.full := rfl

end Journal

theorem WriteOutcome.counted_of_error {write : WriteOutcome} {err : Error}
    (h : write.result = .error err) : write.counted = 0 := by
  cases write with
  | synced => simp [WriteOutcome.result] at h
  | _ => rfl

theorem WriteOutcome.eq_synced_of_ok {write : WriteOutcome}
    (h : write.result = .ok ()) : write = .synced := by
  cases write with
  | synced => rfl
  | _ => simp [WriteOutcome.result] at h

/-! ## Stores and their journals -/

/-- The store holds the journal. -/
inductive LogStore.Represents : LogStore → Journal → Prop where
  | file (store : FileStore) (count : ℕ) :
      Represents (.file store)
        { closed := [], first := 1, content := store.content, count
          limit := none }
  | segmented (store : SegmentedStore) (j : Journal)
      (dir : store.dir = segmentDir j.files)
      (file : store.file = segmentName j.first)
      (first : store.curFirst = j.first)
      (count : store.curCount = j.count)
      (limit : j.limit = some store.maxEntries)
      (pos : 1 ≤ store.maxEntries)
      (sorted : (j.files.map Prod.fst).Pairwise (· < ·)) :
      Represents (.segmented store) j

/-- The closed segments, as a listing names them. -/
def Journal.closedSegments (j : Journal) : List SegmentFile :=
  j.closed.map fun file =>
    { first := file.1, name := segmentName file.1, node := .readable file.2 }

def Journal.openSegment (j : Journal) : SegmentFile where
  first := j.first
  name := segmentName j.first
  node := .readable j.content

theorem Journal.listSegments_files {j : Journal}
    (hsorted : (j.files.map Prod.fst).Pairwise (· < ·)) :
    listSegments (segmentDir j.files) = j.closedSegments ++ [j.openSegment] := by
  rw [listSegments_segmentDir hsorted, Journal.files, List.map_append]
  rfl

theorem lt_first_of_sorted {j : Journal}
    (hsorted : (j.files.map Prod.fst).Pairwise (· < ·)) :
    ∀ n ∈ j.closed.map Prod.fst, n < j.first := by
  rw [Journal.files, List.map_append, List.pairwise_append] at hsorted
  exact fun n hn => hsorted.2.2 n hn j.first (by simp)

theorem first_notMem_of_sorted {j : Journal}
    (hsorted : (j.files.map Prod.fst).Pairwise (· < ·)) :
    j.first ∉ j.closed.map Prod.fst := fun hmem =>
  absurd (lt_first_of_sorted hsorted j.first hmem) (UInt64.lt_irrefl j.first)

theorem sorted_rotate {j : Journal} {first : UInt64}
    (hsorted : (j.files.map Prod.fst).Pairwise (· < ·))
    (hfirst : j.first < first) :
    ((j.rotate first).files.map Prod.fst).Pairwise (· < ·) := by
  have hbelow : ∀ n ∈ j.files.map Prod.fst, n < first := by
    intro n hn
    rw [Journal.files, List.map_append, List.mem_append] at hn
    rcases hn with hclosed | hopen
    · exact UInt64.lt_trans (lt_first_of_sorted hsorted n hclosed) hfirst
    · obtain rfl : n = j.first := by simpa using hopen
      exact hfirst
  rw [Journal.files, List.map_append, List.pairwise_append]
  refine ⟨hsorted, by simp, fun n hn m hm => ?_⟩
  obtain rfl : m = first := by simpa [Journal.rotate] using hm
  exact hbelow n hn

namespace LogStore.Represents

variable {store : LogStore} {j : Journal}

theorem full_iff {store : SegmentedStore}
    (h : Represents (.segmented store) j) :
    j.full = true ↔ store.maxEntries ≤ store.curCount := by
  cases h with
  | segmented _ _ dir file first count limit pos sorted =>
      simp [Journal.full, limit, count]

theorem not_full_rotate (h : store.Represents j) (first : UInt64) :
    (j.rotate first).full = false := by
  cases h with
  | file store count => rfl
  | segmented store _ dir file first' count limit pos sorted =>
      simp only [Journal.full, Journal.rotate, limit, decide_eq_false_iff_not]
      omega

theorem not_full_opened (h : store.Represents j) (entry : AuditEntry) :
    (j.opened entry).full = false := by
  rw [Journal.opened]
  split_ifs with hfull
  · exact h.not_full_rotate entry.seq
  · exact Bool.eq_false_iff.mpr hfull

theorem count_pos_of_full (h : store.Represents j) (hfull : j.full = true) :
    0 < j.count := by
  cases h with
  | file store count => simp [Journal.full] at hfull
  | segmented store _ dir file first count limit pos sorted =>
      simp only [Journal.full, limit, decide_eq_true_eq] at hfull
      omega

end LogStore.Represents

/-! ## Appending -/

namespace SegmentedStore

variable {store : SegmentedStore} {j : Journal}

theorem content_eq (h : (LogStore.segmented store).Represents j) :
    store.dir.content store.file = j.content := by
  cases h with
  | segmented _ _ dir file first count limit pos sorted =>
      rw [Dir.content, dir, file, Journal.files,
        find_segmentDir_snoc (first_notMem_of_sorted sorted)]

theorem appendLine_represents (h : (LogStore.segmented store).Represents j)
    (entry : AuditEntry) (write : WriteOutcome) :
    (LogStore.segmented (store.appendLine crates entry write).1).Represents
        (j.extend (write.written (entryLine crates entry)) write.counted) ∧
      (store.appendLine crates entry write).2 = write.result := by
  have hcontent := content_eq h
  cases h with
  | segmented _ _ dir file first count limit pos sorted =>
      have hset := setContent_segmentDir_snoc (first_notMem_of_sorted sorted)
        j.content (j.content ++ write.written (entryLine crates entry))
      have hdir : store.dir.setContent store.file
          (j.content ++ write.written (entryLine crates entry)) =
            segmentDir (j.extend (write.written (entryLine crates entry))
              write.counted).files := by
        rw [dir, file]
        exact hset
      have hsorted : ((j.extend (write.written (entryLine crates entry))
          write.counted).files.map Prod.fst).Pairwise (· < ·) := by
        simpa [Journal.files, Journal.extend] using sorted
      rw [appendLine, writeLine_eq, hcontent]
      cases write with
      | synced =>
          exact ⟨.segmented _ _ hdir file first (by rw [count]; rfl) limit pos
            hsorted, rfl⟩
      | writeFailed persisted reason =>
          exact ⟨.segmented _ _ hdir file first count limit pos hsorted, rfl⟩
      | flushFailed reason =>
          exact ⟨.segmented _ _ hdir file first count limit pos hsorted, rfl⟩
      | syncFailed reason =>
          exact ⟨.segmented _ _ hdir file first count limit pos hsorted, rfl⟩

theorem rotateTo_represents (h : (LogStore.segmented store).Represents j)
    {first : UInt64} (hfirst : j.first < first) :
    ∃ next, store.rotateTo first none = (next, .ok ()) ∧
      (LogStore.segmented next).Represents (j.rotate first) := by
  cases h with
  | segmented _ _ dir file first' count limit pos sorted =>
      have hsorted := sorted_rotate sorted hfirst
      have hnew : first ∉ j.files.map Prod.fst :=
        first_notMem_of_sorted (j := j.rotate first) hsorted
      have hfind : store.dir.find (segmentName first) = none := by
        rw [dir]
        exact find_segmentDir_eq_none hnew
      have hcreate : store.dir.create (segmentName first) =
          segmentDir (j.rotate first).files := by
        rw [Dir.create, hfind, dir]
        simp [Journal.files, Journal.rotate, segmentDir]
      have hrotate : store.rotateTo first none =
          ({ store with
              dir := store.dir.create (segmentName first)
              file := segmentName first
              curFirst := first
              curCount := 0 }, .ok ()) := by
        simp only [rotateTo, hfind, openAppend]
      exact ⟨_, hrotate, .segmented _ _ hcreate rfl rfl rfl limit pos hsorted⟩

end SegmentedStore

namespace LogStore.Represents

variable {store : LogStore} {j : Journal}

theorem append (h : store.Represents j) (entry : AuditEntry) (io : IoOutcome)
    (hfirst : j.full = true → j.first < entry.seq) :
    (store.append crates entry io).1.Represents (j.append crates entry io).1 ∧
      (store.append crates entry io).2 = (j.append crates entry io).2 := by
  have hfull := h
  cases h with
  | file store count =>
      simp only [LogStore.append, FileStore.append, Journal.append,
        Journal.full, Journal.opened, writeLine_eq]
      cases io.write <;> exact ⟨.file _ _, rfl⟩
  | segmented store _ dir file first count limit pos sorted =>
      have hsegmented := Represents.segmented store j dir file first count limit
        pos sorted
      by_cases hmax : store.maxEntries ≤ store.curCount
      · have hjournal : j.full = true := hsegmented.full_iff.mpr hmax
        cases hcreate : io.create with
        | some reason =>
            simp only [LogStore.append, SegmentedStore.append, if_pos hmax,
              SegmentedStore.rotateTo, hcreate, Journal.append, hjournal]
            exact ⟨hsegmented, trivial⟩
        | none =>
            obtain ⟨next, hrotate, hnext⟩ :=
              SegmentedStore.rotateTo_represents hsegmented (hfirst hjournal)
            obtain ⟨hline, hresult⟩ :=
              SegmentedStore.appendLine_represents crates hnext entry io.write
            simp only [LogStore.append, SegmentedStore.append, if_pos hmax,
              hcreate, hrotate, Journal.append, hjournal, Journal.opened,
              if_true]
            exact ⟨hline, hresult⟩
      · have hjournal : j.full = false := by
          rw [Bool.eq_false_iff]
          exact fun hfull => hmax (hsegmented.full_iff.mp hfull)
        obtain ⟨hline, hresult⟩ :=
          SegmentedStore.appendLine_represents crates hsegmented entry io.write
        simp only [LogStore.append, SegmentedStore.append, if_neg hmax,
          Journal.append, hjournal, Journal.opened]
        exact ⟨hline, hresult⟩

theorem target_eq (h : store.Represents j) : store.target = j.target := by
  cases h with
  | file store count => rfl
  | segmented store _ dir file first count limit pos sorted =>
      have hsegmented := Represents.segmented store j dir file first count limit
        pos sorted
      rw [LogStore.target, Journal.target, SegmentedStore.content_eq hsegmented]
      simp only [hsegmented.full_iff]

theorem written_eq (h : store.Represents j) (entry : AuditEntry)
    (io : IoOutcome) :
    store.written crates entry io = j.written crates entry io := by
  cases h with
  | file store count =>
      rw [LogStore.written, Journal.written, if_neg]
      simp [Journal.full]
  | segmented store _ dir file first count limit pos sorted =>
      have hsegmented := Represents.segmented store j dir file first count limit
        pos sorted
      simp only [LogStore.written, Journal.written, hsegmented.full_iff]

/-! ## Reading and opening -/

variable {crates}

theorem read_eq (h : store.Represents j) :
    readStored crates store.isSegmented store.disk = j.read crates := by
  cases h with
  | file store count =>
      show readFile crates (.readable store.content) = _
      cases hread : readFile crates (.readable store.content) with
      | error err => simp [Journal.read, Journal.files, readNodes, hread]
      | ok entries =>
          exact ((readNodes_singleton_ok crates).mpr hread).symm
  | segmented store _ dir file first count limit pos sorted =>
      show readSegments crates (listSegments store.dir) = _
      rw [dir, listSegments_segmentDir sorted, readSegments_eq, List.map_map]
      rfl

theorem read_eq_ok (j : Journal) {entries : List AuditEntry} :
    j.read crates = .ok entries ↔ ∃ before current,
      readNodes crates (j.closed.map fun file => .readable file.2) =
          .ok before ∧
        readFile crates (.readable j.content) = .ok current ∧
        before ++ current = entries := by
  rw [Journal.read, Journal.files, List.map_append, readNodes_append_ok]
  simp only [List.map_cons, List.map_nil, readNodes_singleton_ok]

/-- Opening needs the open file only; it resumes after the last entry that it
can read. -/
theorem openPath_ok (h : store.Represents j) {mode : Mode}
    (hadmits : store.Admits mode) {current : List AuditEntry}
    (hcurrent : readFile crates (.readable j.content) = .ok current) :
    ∃ next tail, LogStore.openPath crates mode store.disk = .ok next ∧
      next.Represents (j.resume mode current.length) ∧
      next.isSegmented = store.isSegmented ∧
      Store.tail next = .ok tail ∧
      (current ≠ [] → tail = lastHead current) ∧
      ∀ before,
        readNodes crates (j.closed.map fun file => .readable file.2) =
          .ok before → tail = lastHead (before ++ current) := by
  cases h with
  | file store count =>
      cases mode with
      | some limit => exact absurd hadmits id
      | none =>
          refine ⟨.file { content := store.content
                          cachedTail := lastHead current },
            lastHead current, ?_, .file _ _, rfl, rfl, fun _ => rfl, ?_⟩
          · simp [LogStore.openPath, FileStore.openPath, FileStore.readTail,
              LogStore.disk, readAll, hcurrent, openAppend, bind, Except.bind,
              pure, Except.pure, Except.map, lastHead]
          · intro before hbefore
            obtain rfl := Except.ok.inj hbefore
            rfl
  | segmented store _ dir file first count limit pos sorted =>
      cases mode with
      | none => exact absurd hadmits id
      | some max =>
          have hmax : max ≠ 0 := Nat.one_le_iff_ne_zero.mp hadmits
          have hlisted : listSegments store.dir =
              j.closedSegments ++ [j.openSegment] := by
            rw [dir]
            exact Journal.listSegments_files sorted
          have hlast : readFile crates j.openSegment.node = .ok current :=
            hcurrent
          have hfind : store.dir.find (segmentName j.first) =
              some (.readable j.content) := by
            rw [dir]
            exact find_segmentDir_snoc (first_notMem_of_sorted sorted) _
          let tail := (lastHead current).or
            (SegmentedStore.scanTail crates (j.closedSegments ++ [j.openSegment]))
          have hresume : SegmentedStore.resume crates
              (j.closedSegments ++ [j.openSegment]) =
                .ok (j.first, current.length, tail) :=
            resume_snoc crates j.closedSegments hlast
          refine ⟨.segmented
            { dir := store.dir, maxEntries := max
              file := segmentName j.first, curFirst := j.first
              curCount := current.length, cachedTail := tail },
            tail, ?_, ?_, rfl, rfl, ?_, ?_⟩
          · simp only [LogStore.openPath, SegmentedStore.openPath,
              LogStore.disk, if_neg hmax, bind, Except.bind, hlisted, hresume,
              hfind, openAppend, pure, Except.pure, Except.map, Dir.create]
          · exact .segmented _ (j.resume (some max) current.length) dir rfl rfl
              rfl rfl hadmits sorted
          · exact fun hne => lastHead_or_of_ne_nil hne _
          · intro before hbefore
            have hbefore' : readSegments crates j.closedSegments =
                .ok before := by
              rw [readSegments_eq, Journal.closedSegments, List.map_map]
              exact hbefore
            exact resume_tail_eq crates hbefore' hlast

theorem openPath_error (h : store.Represents j) {mode : Mode}
    (hadmits : store.Admits mode) {err : Error}
    (hcurrent : readFile crates (.readable j.content) = .error err) :
    LogStore.openPath crates mode store.disk = .error err := by
  cases h with
  | file store count =>
      cases mode with
      | some limit => exact absurd hadmits id
      | none =>
          simp [LogStore.openPath, FileStore.openPath, FileStore.readTail,
            LogStore.disk, readAll, hcurrent, bind, Except.bind, Except.map]
  | segmented store _ dir file first count limit pos sorted =>
      cases mode with
      | none => exact absurd hadmits id
      | some max =>
          have hmax : max ≠ 0 := Nat.one_le_iff_ne_zero.mp hadmits
          simp [LogStore.openPath, SegmentedStore.openPath, LogStore.disk,
            hmax, bind, Except.bind, dir, Journal.listSegments_files sorted,
            Journal.openSegment, SegmentedStore.resume, hcurrent, Except.map]

end LogStore.Represents

theorem openPath_missing {mode : Mode} (hmode : mode ≠ some 0) :
    ∃ store, LogStore.openPath crates mode .missing = .ok store ∧
      store.Represents (Journal.fresh mode) ∧
      store.isSegmented = mode.isSome ∧ Store.tail store = .ok none := by
  cases mode with
  | none =>
      exact ⟨.file { content := [], cachedTail := none }, rfl, .file _ 0, rfl,
        rfl⟩
  | some max =>
      have hmax : max ≠ 0 := fun h => hmode (by rw [h])
      refine ⟨.segmented
        { dir := segmentDir [(1, [])], maxEntries := max
          file := segmentName 1, curFirst := 1, curCount := 0
          cachedTail := none }, ?_, ?_, rfl, rfl⟩
      · simp [LogStore.openPath, SegmentedStore.openPath, hmax, bind,
          Except.bind, listSegments, SegmentedStore.resume, Dir.find, openAppend,
          Dir.create, segmentDir, pure, Except.pure, Except.map]
      · exact .segmented _ (Journal.fresh (some max)) rfl rfl rfl rfl rfl
          (Nat.one_le_iff_ne_zero.mpr hmax) (by simp [Journal.files, Journal.fresh])

end Chainlog
