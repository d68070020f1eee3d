import Chainlog.Segment

/-!
# Stores on disk

A log lives in one file or in a segment directory; the writer holds either
store behind one interface.  The mode is the segment limit, where segments are
used.
-/

namespace Chainlog

/-- `Box<dyn Store>` over the stores that write to disk. -/
inductive LogStore where
  | file (store : FileStore)
  | segmented (store : SegmentedStore)
  deriving DecidableEq, Repr

/-- `CHAINLOG_SEGMENT_MAX_ENTRIES`: the limit of a segment, or a single
file. -/
abbrev Mode := Option ℕ

variable (crates : Crates)

/-- The reader of a mode: `read_all_segmented` or `read_all`. -/
def readStored (segmented : Bool) (path : DataPath) :
    Result (List AuditEntry) :=
  if segmented then readAllSegmented crates path else readAll crates path

namespace LogStore

def tail : LogStore → Result (Option (UInt64 × String))
  | file store => Store.tail store
  | segmented store => Store.tail store

def append : LogStore → AuditEntry → IoOutcome → LogStore × Result Unit
  | file store, entry, io =>
      let (next, result) := store.append crates entry io
      (file next, result)
  | segmented store, entry, io =>
      let (next, result) := store.append crates entry io
      (segmented next, result)

instance : Store LogStore where
  tail := tail
  append := append

/-- `FileStore::open` or `SegmentedStore::open`. -/
def openPath (mode : Mode) (path : DataPath) : Result LogStore :=
  match mode with
  | none => (FileStore.openPath crates path).map file
  | some maxEntries =>
      (SegmentedStore.openPath crates maxEntries path).map segmented

def isSegmented : LogStore → Bool
  | file _ => false
  | segmented _ => true

/-- What the data path names while the store is open. -/
def disk : LogStore → DataPath
  | file store => .file (.readable store.content)
  | segmented store => .directory store.dir

/-- The mode opens the same path in the same way; a limit may change. -/
def Admits : LogStore → Mode → Prop
  | file _, none => True
  | segmented _, some maxEntries => 1 ≤ maxEntries
  | _, _ => False

/-- The content of the file that the next append writes to. -/
def target : LogStore → Bytes
  | file store => store.content
  | segmented store =>
      if store.maxEntries ≤ store.curCount then []
      else store.dir.content store.file

end LogStore

/-- The bytes of a line that reach the file. -/
def WriteOutcome.written (line : Bytes) : WriteOutcome → Bytes
  | .synced => line
  | .writeFailed persisted _ => line.take persisted
  | .flushFailed _ => line
  | .syncFailed _ => line

/-- The bytes of the entry's line that the append leaves on disk: none where
the next segment file cannot be created. -/
def LogStore.written (entry : AuditEntry) (io : IoOutcome) :
    LogStore → Bytes
  | file _ => io.write.written (entryLine crates entry)
  | segmented store =>
      if store.maxEntries ≤ store.curCount ∧ io.create.isSome then []
      else io.write.written (entryLine crates entry)

theorem LogStore.isSegmented_append (store : LogStore) (entry : AuditEntry)
    (io : IoOutcome) :
    (store.append crates entry io).1.isSegmented = store.isSegmented := by
  cases store <;> rfl

theorem LogStore.admits_iff {store : LogStore} {mode : Mode} :
    store.Admits mode ↔ mode.isSome = store.isSegmented ∧ mode ≠ some 0 := by
  cases store <;> cases mode <;>
    simp [LogStore.Admits, LogStore.isSegmented, Nat.one_le_iff_ne_zero]

theorem LogStore.isSegmented_openPath {mode : Mode} {path : DataPath}
    {store : LogStore} (hopen : LogStore.openPath crates mode path = .ok store) :
    store.isSegmented = mode.isSome := by
  cases mode with
  | none =>
      cases hfile : FileStore.openPath crates path with
      | error err => simp [LogStore.openPath, hfile, Except.map] at hopen
      | ok file =>
          simp only [LogStore.openPath, hfile, Except.map,
            Except.ok.injEq] at hopen
          rw [← hopen]
          rfl
  | some maxEntries =>
      cases hdir : SegmentedStore.openPath crates maxEntries path with
      | error err => simp [LogStore.openPath, hdir, Except.map] at hopen
      | ok segments =>
          simp only [LogStore.openPath, hdir, Except.map,
            Except.ok.injEq] at hopen
          rw [← hopen]
          rfl

end Chainlog
