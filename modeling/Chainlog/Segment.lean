import Chainlog.Store
import Mathlib.Data.List.Sort

/-!
# Segmented storage

The chain is split across segment files in a directory, each holding up to
`max_entries` records.  A segment's name carries its first sequence number,
padded so that lexical order is chain order.
-/

namespace Chainlog

def segPrefix : List Char := ['s', 'e', 'g', '-']

def segSuffix : List Char := ['.', 'j', 's', 'o', 'n', 'l']

/-- The `{:020}` format of a `u64`. -/
def zeroPadded (n : UInt64) : List Char :=
  let digits := Nat.toDigits 10 n.toNat
  List.replicate (20 - digits.length) '0' ++ digits

def segmentName (firstSeq : UInt64) : String :=
  String.ofList (segPrefix ++ zeroPadded firstSeq ++ segSuffix)

/-- `str::strip_prefix`. -/
def stripPrefix (start text : List Char) : Option (List Char) :=
  if start.isPrefixOf text then some (text.drop start.length) else none

/-- `str::strip_suffix`. -/
def stripSuffix (ending text : List Char) : Option (List Char) :=
  if ending.isSuffixOf text then some (text.take (text.length - ending.length))
  else none

theorem stripPrefix_append (start text : List Char) :
    stripPrefix start (start ++ text) = some text := by
  simp [stripPrefix]

theorem stripSuffix_append (text ending : List Char) :
    stripSuffix ending (text ++ ending) = some text := by
  simp [stripSuffix]

theorem stripPrefix_eq_some {start text rest : List Char}
    (h : stripPrefix start text = some rest) : text = start ++ rest := by
  unfold stripPrefix at h
  split_ifs at h with hstart
  obtain rfl := Option.some.inj h
  exact (List.prefix_iff_eq_append.mp (List.isPrefixOf_iff_prefix.mp hstart)).symm

theorem stripSuffix_eq_some {ending text rest : List Char}
    (h : stripSuffix ending text = some rest) : text = rest ++ ending := by
  unfold stripSuffix at h
  split_ifs at h with hend
  obtain rfl := Option.some.inj h
  exact (List.suffix_iff_eq_append.mp (List.isSuffixOf_iff_suffix.mp hend)).symm

/-- `str::parse::<u64>`: an optional plus sign and decimal digits whose value
does not overflow. -/
def parseU64 (text : List Char) : Option UInt64 :=
  let digits := match text with
    | '+' :: rest => rest
    | _ => text
  if digits ≠ [] ∧ digits.all Char.isDigit ∧
      Nat.ofDigitChars 10 digits 0 < 2 ^ 64 then
    some (UInt64.ofNat (Nat.ofDigitChars 10 digits 0))
  else none

def parseSegmentFirstSeq (name : String) : Option UInt64 := do
  let rest ← stripPrefix segPrefix name.toList
  let digits ← stripSuffix segSuffix rest
  parseU64 digits

/-- A listed segment: its first sequence number, its file name and the file. -/
structure SegmentFile where
  first : UInt64
  name : String
  node : FileNode

/-- List segment files, sorted by their first sequence number.  The sort is
stable. -/
def listSegments (dir : Dir) : List SegmentFile :=
  (dir.filterMap fun (name, node) =>
      (parseSegmentFirstSeq name).map fun first => { first, name, node })
    |>.insertionSort fun a b => a.first ≤ b.first

variable (crates : Crates)

/-- Read the listed segments one after the other. -/
def readSegments : List SegmentFile → Result (List AuditEntry)
  | [] => .ok []
  | segment :: rest =>
      match readFile crates segment.node with
      | .error err => .error err
      | .ok entries => (readSegments rest).map (entries ++ ·)

/-- Read every entry across all segments, in chain order. -/
def readAllSegmented : DataPath → Result (List AuditEntry)
  | .missing => .ok []
  | .file _ => .error (.io "Not a directory (os error 20)")
  | .directory dir => readSegments crates (listSegments dir)

/-! ## The segmented store -/

namespace Dir

def find (dir : Dir) (name : String) : Option FileNode :=
  (List.find? (fun file => file.1 = name) dir).map Prod.snd

/-- Create an empty file unless the name is taken. -/
def create (dir : Dir) (name : String) : Dir :=
  match dir.find name with
  | some _ => dir
  | none => dir ++ [(name, .readable [])]

/-- Replace the content of a file. -/
def setContent (dir : Dir) (name : String) (content : Bytes) : Dir :=
  dir.map fun file =>
    if file.1 = name then (name, .readable content) else file

/-- `std::fs::remove_file` on a file of the directory. -/
def remove (dir : Dir) (name : String) : Dir :=
  List.filter (fun file => file.1 ≠ name) dir

def content (dir : Dir) (name : String) : Bytes :=
  match dir.find name with
  | some (.readable content) => content
  | _ => []

end Dir

/-- Append-only store that rotates into a new segment file every
`max_entries` records. -/
structure SegmentedStore where
  dir : Dir
  maxEntries : ℕ
  /-- The name of the open segment file. -/
  file : String
  curFirst : UInt64
  curCount : ℕ
  cachedTail : Option (UInt64 × String)
  deriving DecidableEq, Repr

namespace SegmentedStore

/-- The tail of the newest segment that is readable and not empty. -/
def scanTail (segments : List SegmentFile) : Option (UInt64 × String) :=
  segments.reverse.findSome? fun segment =>
    match readFile crates segment.node with
    | .ok entries => entries.getLast?.map fun e => (e.seq, e.entryHash)
    | .error _ => none

/-- The current segment's first seq and entry count, and the chain's tail. -/
def resume (segments : List SegmentFile) :
    Result (UInt64 × ℕ × Option (UInt64 × String)) :=
  match segments.getLast? with
  | some segment => do
      let entries ← readFile crates segment.node
      let tail := entries.getLast?.map fun e => (e.seq, e.entryHash)
      return (segment.first, entries.length,
        tail.or (scanTail crates segments))
  | none => .ok (1, 0, none)

/-- Open (creating if needed) a segmented store. -/
def openPath (maxEntries : ℕ) (path : DataPath) : Result SegmentedStore :=
  if maxEntries = 0 then .error (.config "max_entries must be >= 1")
  else do
    let dir : Dir ← match path with
      | .missing => .ok []
      | .file _ => .error (.io "File exists (os error 17)")
      | .directory dir => .ok dir
    let (curFirst, curCount, tail) ← resume crates (listSegments dir)
    let file := segmentName curFirst
    let _ ← openAppend (dir.find file)
    return { dir := dir.create file, maxEntries, file, curFirst, curCount,
             cachedTail := tail }

/-- Open the segment file that starts at `firstSeq`. -/
def rotateTo (store : SegmentedStore) (firstSeq : UInt64)
    (create : Option String) : SegmentedStore × Result Unit :=
  let file := segmentName firstSeq
  match create with
  | some reason => (store, .error (.io reason))
  | none =>
      match openAppend (store.dir.find file) with
      | .error err => (store, .error err)
      | .ok _ =>
          ({ store with
              dir := store.dir.create file
              file
              curFirst := firstSeq
              curCount := 0 }, .ok ())

def appendLine (store : SegmentedStore) (entry : AuditEntry)
    (write : WriteOutcome) : SegmentedStore × Result Unit :=
  match writeLine (store.dir.content store.file) (entryLine crates entry) write with
  | (content, .error err) =>
      ({ store with dir := store.dir.setContent store.file content }, .error err)
  | (content, .ok ()) =>
      ({ store with
          dir := store.dir.setContent store.file content
          curCount := store.curCount + 1
          cachedTail := some (entry.seq, entry.entryHash) }, .ok ())

def append (store : SegmentedStore) (entry : AuditEntry) (io : IoOutcome) :
    SegmentedStore × Result Unit :=
  if store.maxEntries ≤ store.curCount then
    match store.rotateTo entry.seq io.create with
    | (store, .error err) => (store, .error err)
    | (store, .ok ()) => store.appendLine crates entry io.write
  else store.appendLine crates entry io.write

end SegmentedStore

instance : Store SegmentedStore where
  tail store := .ok store.cachedTail
  append := SegmentedStore.append

end Chainlog
