import Chainlog.Hash
import Chainlog.Foundation.Lines

/-!
# Storage backends

Files, the line reader `read_all`, the `Store` trait and the file and memory
backends.  What the file system answers while a line is written is an input
(`WriteOutcome`), so that partial writes and failed syncs are runs like any
other.
-/

namespace Chainlog

/-! ## Files -/

/-- A file as a reader finds it. -/
inductive FileNode where
  | readable (content : Bytes)
  /-- Opening or reading the file is an I/O error. -/
  | unreadable (reason : String)
  deriving DecidableEq, Repr

/-- The files of a directory, in the order `read_dir` lists them. -/
abbrev Dir := List (String × FileNode)

/-- What a data path names. -/
inductive DataPath where
  | missing
  | file (node : FileNode)
  | directory (entries : Dir)
  deriving DecidableEq, Repr

/-- `OpenOptions::new().create(true).append(true).open` on a path that names
no directory. -/
def openAppend : Option FileNode → Result Bytes
  | none => .ok []
  | some (.readable content) => .ok content
  | some (.unreadable reason) => .error (.io reason)

/-! ## Reading -/

def newline : UInt8 := 10

/-- `BufRead::lines` drops a final newline and a carriage return before it. -/
def stripLineEnd (text : String) : String :=
  match text.toList.reverse with
  | '\n' :: '\r' :: rest => String.ofList rest.reverse
  | '\n' :: rest => String.ofList rest.reverse
  | _ => text

/-- One item of `BufRead::lines`. -/
def readLine (piece : Bytes) : Result String :=
  match fromUtf8 piece with
  | some text => .ok (stripLineEnd text)
  | none => .error (.io "stream did not contain valid UTF-8")

variable (crates : Crates)

/-- `serde_json::from_str` at `AuditEntry`. -/
def decodeEntry (line : String) : Except String AuditEntry := do
  AuditEntry.ofDocument (← crates.serde.fromStr line)

/-- The loop of `read_all` over the lines of a file. -/
def readLines : List Bytes → Result (List AuditEntry)
  | [] => .ok []
  | piece :: rest =>
      match readLine piece with
      | .error err => .error err
      | .ok line =>
          if isBlank line then readLines rest
          else
            match decodeEntry crates line with
            | .error reason => .error (.serde reason)
            | .ok entry => (readLines rest).map (entry :: ·)

/-- `read_all` on an existing file. -/
def readFile : FileNode → Result (List AuditEntry)
  | .readable content => readLines crates (Lines.pieces newline content)
  | .unreadable reason => .error (.io reason)

/-- Read every entry from a JSONL log file, in order. -/
def readAll : DataPath → Result (List AuditEntry)
  | .missing => .error (.io "No such file or directory (os error 2)")
  | .directory _ => .error (.io "Is a directory (os error 21)")
  | .file node => readFile crates node

/-! ## Writing -/

/-- How far `write_all`, `flush` and `sync_all` get with one line. -/
inductive WriteOutcome where
  | synced
  | writeFailed (persisted : ℕ) (reason : String)
  | flushFailed (reason : String)
  | syncFailed (reason : String)
  deriving DecidableEq, Repr

/-- What the file system answers during one append. -/
structure IoOutcome where
  /-- The error of creating the next segment file, where one is created. -/
  create : Option String
  write : WriteOutcome
  deriving DecidableEq, Repr

def IoOutcome.ok : IoOutcome := { create := none, write := .synced }

/-- The stored form of an entry: its JSON and a newline. -/
def entryLine (e : AuditEntry) : Bytes :=
  crates.serde.toVec e.toDocument ++ [newline]

/-- `write_all`, `flush` and `sync_all` of one line at the end of a file. -/
def writeLine (content line : Bytes) : WriteOutcome → Bytes × Result Unit
  | .synced => (content ++ line, .ok ())
  | .writeFailed persisted reason =>
      (content ++ line.take persisted, .error (.io reason))
  | .flushFailed reason => (content ++ line, .error (.io reason))
  | .syncFailed reason => (content ++ line, .error (.io reason))

/-! ## Stores -/

/-- The `Store` trait.  A store carries the disk state it writes to. -/
class Store (σ : Type) where
  /-- The `(seq, entry_hash)` of the last entry, or `none` if empty. -/
  tail : σ → Result (Option (UInt64 × String))
  /-- Durably append one entry. -/
  append : Crates → σ → AuditEntry → IoOutcome → σ × Result Unit

/-- Append-only file backend: one JSON entry per line. -/
structure FileStore where
  content : Bytes
  cachedTail : Option (UInt64 × String)
  deriving DecidableEq, Repr

namespace FileStore

def readTail : DataPath → Result (Option (UInt64 × String))
  | .missing => .ok none
  | path => do
      let entries ← readAll crates path
      return entries.getLast?.map fun e => (e.seq, e.entryHash)

/-- Open (creating if needed) an append-only log file. -/
def openPath (path : DataPath) : Result FileStore := do
  let tail ← readTail crates path
  let content ← match path with
    | .missing => openAppend none
    | .file node => openAppend (some node)
    | .directory _ => .error (.io "Is a directory (os error 21)")
  return { content, cachedTail := tail }

def append (store : FileStore) (entry : AuditEntry) (io : IoOutcome) :
    FileStore × Result Unit :=
  match writeLine store.content (entryLine crates entry) io.write with
  | (content, .error err) => ({ store with content }, .error err)
  | (content, .ok ()) =>
      ({ content, cachedTail := some (entry.seq, entry.entryHash) }, .ok ())

end FileStore

instance : Store FileStore where
  tail store := .ok store.cachedTail
  append := FileStore.append

structure MemoryStore where
  entries : List AuditEntry

instance : Store MemoryStore where
  tail store := .ok (store.entries.getLast?.map fun e => (e.seq, e.entryHash))
  append _ store entry _ := ({ entries := store.entries ++ [entry] }, .ok ())

end Chainlog
