import Chainlog.Foundation.Decimal
import Chainlog.ChainGrowth

/-!
# Segment files

A name carries its first sequence number: it parses back to that number, so
distinct numbers have distinct names and a directory of segments in increasing
order is listed as it is.  Readable segments read as the concatenation of
their entries, and the tail scan of `open` finds the last of them.
-/

namespace Chainlog

theorem zeroPadded_eq_pad (n : UInt64) :
    zeroPadded n = Decimal.pad 20 n.toNat := rfl

theorem toList_segmentName (n : UInt64) :
    (segmentName n).toList = segPrefix ++ (zeroPadded n ++ segSuffix) := by
  rw [segmentName, String.toList_ofList, List.append_assoc]

theorem parseU64_zeroPadded (n : UInt64) :
    parseU64 (zeroPadded n) = some n := by
  have hnumeral : Decimal.Numeral (zeroPadded n) :=
    Decimal.numeral_pad 20 n.toNat
  have hsign : ∀ rest, zeroPadded n ≠ '+' :: rest := by
    intro rest h
    have hdigit := hnumeral '+' (by simp [h])
    exact absurd hdigit (by decide)
  have hne : zeroPadded n ≠ [] := by
    simp [zeroPadded, Nat.toDigits_ne_nil]
  have hall : (zeroPadded n).all Char.isDigit = true := by
    rw [List.all_eq_true]
    exact hnumeral
  have hvalue : Nat.ofDigitChars 10 (zeroPadded n) 0 = n.toNat :=
    Decimal.value_pad 20 n.toNat
  simp only [parseU64, hvalue]
  rw [if_pos ⟨hne, hall, n.toNat_lt⟩, UInt64.ofNat_toNat]

@[simp] theorem parseSegmentFirstSeq_segmentName (n : UInt64) :
    parseSegmentFirstSeq (segmentName n) = some n := by
  rw [parseSegmentFirstSeq, toList_segmentName, stripPrefix_append]
  simp only [Option.bind_eq_bind, Option.bind_some, stripSuffix_append,
    parseU64_zeroPadded]

theorem segmentName_injective : Function.Injective segmentName := by
  intro m n h
  have hparse := congrArg parseSegmentFirstSeq h
  simpa using hparse

/-! ## Directories of segments -/

/-- A directory that holds one readable segment file for each first sequence
number of the list. -/
def segmentDir (files : List (UInt64 × Bytes)) : Dir :=
  files.map fun file => (segmentName file.1, .readable file.2)

@[simp] theorem segmentDir_append (left right : List (UInt64 × Bytes)) :
    segmentDir (left ++ right) = segmentDir left ++ segmentDir right := by
  simp [segmentDir]

theorem listSegments_segmentDir {files : List (UInt64 × Bytes)}
    (hsorted : (files.map Prod.fst).Pairwise (· < ·)) :
    listSegments (segmentDir files) =
      files.map fun file =>
        { first := file.1, name := segmentName file.1, node := .readable file.2 } := by
  have hlisted : ∀ listed : List SegmentFile,
      listed = files.map (fun file =>
        { first := file.1, name := segmentName file.1
          node := .readable file.2 }) →
      listed.insertionSort (fun s t => s.first ≤ t.first) =
        files.map fun file =>
          { first := file.1, name := segmentName file.1
            node := .readable file.2 } := by
    rintro _ rfl
    apply List.Pairwise.insertionSort_eq
    rw [List.pairwise_map] at hsorted ⊢
    exact hsorted.imp fun h => UInt64.le_of_lt h
  rw [listSegments]
  exact hlisted _ (by simp [segmentDir, List.filterMap_map])

theorem find_segmentDir_eq_none {files : List (UInt64 × Bytes)} {first : UInt64}
    (hnew : first ∉ files.map Prod.fst) :
    (segmentDir files).find (segmentName first) = none := by
  have hnone : List.find? (fun file => file.1 = segmentName first)
      (segmentDir files) = none := by
    rw [List.find?_eq_none]
    intro file hfile heq
    obtain ⟨⟨n, content⟩, hmem, rfl⟩ := List.mem_map.mp hfile
    have hn : n = first := segmentName_injective (by simpa using heq)
    exact hnew (List.mem_map.mpr ⟨(n, content), hmem, hn⟩)
  rw [Dir.find, hnone]
  rfl

/-- The newest file of a directory whose other files have other names. -/
theorem find_segmentDir_snoc {files : List (UInt64 × Bytes)} {first : UInt64}
    (hnew : first ∉ files.map Prod.fst) (content : Bytes) :
    (segmentDir (files ++ [(first, content)])).find (segmentName first) =
      some (.readable content) := by
  have hnone : List.find? (fun file => file.1 = segmentName first)
      (segmentDir files) = none := by
    have hfind := find_segmentDir_eq_none hnew
    simpa [Dir.find] using hfind
  rw [Dir.find, segmentDir_append, List.find?_append, hnone]
  simp [segmentDir]

theorem setContent_segmentDir_snoc {files : List (UInt64 × Bytes)}
    {first : UInt64} (hnew : first ∉ files.map Prod.fst)
    (content content' : Bytes) :
    (segmentDir (files ++ [(first, content)])).setContent (segmentName first)
        content' =
      segmentDir (files ++ [(first, content')]) := by
  have hold : (segmentDir files).setContent (segmentName first) content' =
      segmentDir files := by
    rw [Dir.setContent]
    conv_rhs => rw [← List.map_id (segmentDir files)]
    apply List.map_congr_left
    intro file hfile
    obtain ⟨⟨n, c⟩, hmem, rfl⟩ := List.mem_map.mp hfile
    have hne : segmentName n ≠ segmentName first := fun heq =>
      hnew (List.mem_map.mpr ⟨(n, c), hmem, segmentName_injective heq⟩)
    simp [hne]
  rw [segmentDir_append, segmentDir_append, Dir.setContent, List.map_append,
    ← Dir.setContent, hold]
  simp [segmentDir]

/-! ## Reading segments -/

variable (crates : Crates)

def readNodes : List FileNode → Result (List AuditEntry)
  | [] => .ok []
  | node :: rest =>
      match readFile crates node with
      | .error err => .error err
      | .ok entries => (readNodes rest).map (entries ++ ·)

theorem readSegments_eq (segments : List SegmentFile) :
    readSegments crates segments =
      readNodes crates (segments.map SegmentFile.node) := by
  induction segments with
  | nil => rfl
  | cons segment rest ih =>
      rw [readSegments, ih]
      rfl

theorem readNodes_cons_ok {node : FileNode} {rest : List FileNode}
    {entries : List AuditEntry} :
    readNodes crates (node :: rest) = .ok entries ↔
      ∃ first others, readFile crates node = .ok first ∧
        readNodes crates rest = .ok others ∧ first ++ others = entries := by
  rw [readNodes]
  cases readFile crates node with
  | error err => simp
  | ok first =>
      cases readNodes crates rest with
      | error err => simp [Except.map]
      | ok others => simp [Except.map]

theorem readNodes_append_ok {left right : List FileNode}
    {entries : List AuditEntry} :
    readNodes crates (left ++ right) = .ok entries ↔
      ∃ before after, readNodes crates left = .ok before ∧
        readNodes crates right = .ok after ∧ before ++ after = entries := by
  induction left generalizing entries with
  | nil =>
      constructor
      · intro h
        exact ⟨[], entries, rfl, h, rfl⟩
      · rintro ⟨before, after, hbefore, hafter, rfl⟩
        obtain rfl := Except.ok.inj hbefore
        exact hafter
  | cons node rest ih =>
      rw [List.cons_append, readNodes_cons_ok]
      constructor
      · rintro ⟨first, others, hfirst, hothers, rfl⟩
        obtain ⟨before, after, hbefore, hafter, rfl⟩ := ih.mp hothers
        exact ⟨first ++ before, after,
          (readNodes_cons_ok crates).mpr ⟨first, before, hfirst, hbefore, rfl⟩,
          hafter, List.append_assoc first before after⟩
      · rintro ⟨before, after, hbefore, hafter, rfl⟩
        obtain ⟨first, others, hfirst, hothers, rfl⟩ :=
          (readNodes_cons_ok crates).mp hbefore
        exact ⟨first, others ++ after, hfirst,
          ih.mpr ⟨others, after, hothers, hafter, rfl⟩,
          (List.append_assoc first others after).symm⟩

theorem readNodes_singleton_ok {node : FileNode} {entries : List AuditEntry} :
    readNodes crates [node] = .ok entries ↔
      readFile crates node = .ok entries := by
  rw [readNodes_cons_ok]
  constructor
  · rintro ⟨first, others, hfirst, hothers, rfl⟩
    obtain rfl := Except.ok.inj hothers
    simpa using hfirst
  · intro h
    exact ⟨entries, [], h, rfl, List.append_nil entries⟩

theorem readSegments_cons_ok {segment : SegmentFile} {rest : List SegmentFile}
    {entries : List AuditEntry} :
    readSegments crates (segment :: rest) = .ok entries ↔
      ∃ front back, readFile crates segment.node = .ok front ∧
        readSegments crates rest = .ok back ∧ front ++ back = entries := by
  simp only [readSegments_eq, List.map_cons]
  exact readNodes_cons_ok crates

theorem readSegments_append_ok {before after : List SegmentFile}
    {entries : List AuditEntry} :
    readSegments crates (before ++ after) = .ok entries ↔
      ∃ front back, readSegments crates before = .ok front ∧
        readSegments crates after = .ok back ∧ front ++ back = entries := by
  simp only [readSegments_eq, List.map_append]
  exact readNodes_append_ok crates

theorem readSegments_concat_ok {segments : List SegmentFile}
    {last : SegmentFile} {entries : List AuditEntry} :
    readSegments crates (segments ++ [last]) = .ok entries ↔
      ∃ before after, readSegments crates segments = .ok before ∧
        readFile crates last.node = .ok after ∧ before ++ after = entries := by
  simp only [readSegments_eq, List.map_append, List.map_singleton,
    readNodes_append_ok, readNodes_singleton_ok]

theorem lastHead_append (left right : List AuditEntry) :
    lastHead (left ++ right) = (lastHead right).or (lastHead left) := by
  cases right using List.reverseRecOn with
  | nil => simp [lastHead]
  | append_singleton right e => simp [← List.append_assoc]

theorem lastHead_or_of_ne_nil {entries : List AuditEntry}
    (hne : entries ≠ []) (head : Option (UInt64 × String)) :
    (lastHead entries).or head = lastHead entries := by
  rw [lastHead, List.getLast?_eq_some_getLast hne]
  rfl

/-- The tail scan goes from the newest segment down. -/
theorem scanTail_snoc_ok (segments : List SegmentFile) {last : SegmentFile}
    {entries : List AuditEntry}
    (hlast : readFile crates last.node = .ok entries) :
    SegmentedStore.scanTail crates (segments ++ [last]) =
      (lastHead entries).or (SegmentedStore.scanTail crates segments) := by
  rw [SegmentedStore.scanTail, List.reverse_append, List.reverse_singleton,
    List.singleton_append, List.findSome?_cons, hlast]
  cases hhead : entries.getLast? with
  | none => simp only [lastHead, hhead]; rfl
  | some e => simp only [lastHead, hhead]; rfl

theorem scanTail_snoc_error (segments : List SegmentFile) {last : SegmentFile}
    {err : Error} (hlast : readFile crates last.node = .error err) :
    SegmentedStore.scanTail crates (segments ++ [last]) =
      SegmentedStore.scanTail crates segments := by
  rw [SegmentedStore.scanTail, List.reverse_append, List.reverse_singleton,
    List.singleton_append, List.findSome?_cons, hlast]
  rfl

/-- The tail scan finds the last entry of readable segments. -/
theorem scanTail_eq (segments : List SegmentFile) {entries : List AuditEntry}
    (hread : readSegments crates segments = .ok entries) :
    SegmentedStore.scanTail crates segments = lastHead entries := by
  induction segments using List.reverseRecOn generalizing entries with
  | nil =>
      obtain rfl := Except.ok.inj hread
      rfl
  | append_singleton segments last ih =>
      obtain ⟨before, after, hbefore, hlast, rfl⟩ :=
        (readSegments_concat_ok crates).mp hread
      rw [scanTail_snoc_ok crates segments hlast, ih hbefore, lastHead_append]

theorem resume_snoc (segments : List SegmentFile) {last : SegmentFile}
    {after : List AuditEntry} (hlast : readFile crates last.node = .ok after) :
    SegmentedStore.resume crates (segments ++ [last]) =
      .ok (last.first, after.length, (lastHead after).or
        (SegmentedStore.scanTail crates (segments ++ [last]))) := by
  simp only [SegmentedStore.resume, List.getLast?_concat, hlast, bind,
    Except.bind, pure, Except.pure]
  rfl

/-- Where every segment is readable, the tail is the last entry of all. -/
theorem resume_tail_eq {segments : List SegmentFile} {last : SegmentFile}
    {before after : List AuditEntry}
    (hbefore : readSegments crates segments = .ok before)
    (hlast : readFile crates last.node = .ok after) :
    (lastHead after).or (SegmentedStore.scanTail crates (segments ++ [last])) =
      lastHead (before ++ after) := by
  have hall : readSegments crates (segments ++ [last]) =
      .ok (before ++ after) :=
    (readSegments_concat_ok crates).mpr ⟨before, after, hbefore, hlast, rfl⟩
  rw [scanTail_eq crates _ hall, lastHead_append]
  cases lastHead after <;> rfl

/-! ## Opening a readable log -/

/-- The path holds the entries; a path that does not exist yet holds none. -/
def OnDisk (segmented : Bool) (path : DataPath) (entries : List AuditEntry) :
    Prop :=
  readStored crates segmented path = .ok entries ∨
    path = .missing ∧ entries = []

theorem FileStore.openPath_tail {path : DataPath} {entries : List AuditEntry}
    {store : FileStore} (hdisk : OnDisk crates false path entries)
    (hopen : FileStore.openPath crates path = .ok store) :
    Store.tail store = .ok (lastHead entries) := by
  cases path with
  | missing =>
      obtain rfl : entries = [] := by
        rcases hdisk with hread | ⟨_, hnil⟩
        · simp [readStored, readAll] at hread
        · exact hnil
      obtain rfl := Except.ok.inj hopen
      rfl
  | directory dir =>
      rcases hdisk with hread | ⟨hmissing, _⟩
      · simp [readStored, readAll] at hread
      · cases hmissing
  | file node =>
      rcases hdisk with hread | ⟨hmissing, _⟩
      · have hread' : readAll crates (.file node) = .ok entries := hread
        cases hnode : openAppend (some node) with
        | error err =>
            simp [FileStore.openPath, FileStore.readTail, hread', hnode, bind,
              Except.bind, pure, Except.pure] at hopen
        | ok content =>
            simp only [FileStore.openPath, FileStore.readTail, hread', hnode,
              bind, Except.bind, pure, Except.pure, Except.ok.injEq] at hopen
            rw [← hopen]
            rfl
      · cases hmissing

theorem SegmentedStore.resume_of_read {segments : List SegmentFile}
    {entries : List AuditEntry}
    (hread : readSegments crates segments = .ok entries) :
    ∃ first count, SegmentedStore.resume crates segments =
      .ok (first, count, lastHead entries) := by
  cases segments using List.reverseRecOn with
  | nil =>
      obtain rfl := Except.ok.inj hread
      exact ⟨1, 0, rfl⟩
  | append_singleton segments last =>
      obtain ⟨before, after, hbefore, hlast, rfl⟩ :=
        (readSegments_concat_ok crates).mp hread
      rw [resume_snoc crates segments hlast,
        resume_tail_eq crates hbefore hlast]
      exact ⟨_, _, rfl⟩

/-- What `open` takes from a directory that it accepts. -/
theorem SegmentedStore.openPath_directory_eq_ok {dir : Dir} {maxEntries : ℕ}
    {store : SegmentedStore}
    (hopen : openPath crates maxEntries (.directory dir) = .ok store) :
    0 < maxEntries ∧ store.maxEntries = maxEntries ∧
      store.file = segmentName store.curFirst ∧
      store.dir = dir.create store.file ∧
      resume crates (listSegments dir) =
        .ok (store.curFirst, store.curCount, store.cachedTail) := by
  by_cases hmax : maxEntries = 0
  · simp [openPath, hmax] at hopen
  rw [openPath, if_neg hmax] at hopen
  obtain ⟨_, hdir, hopen⟩ := bind_eq_ok.mp hopen
  obtain rfl := Except.ok.inj hdir
  obtain ⟨⟨first, count, tail⟩, hresume, hopen⟩ := bind_eq_ok.mp hopen
  obtain ⟨_, _, hopen⟩ := bind_eq_ok.mp hopen
  obtain rfl := Except.ok.inj hopen
  exact ⟨Nat.pos_of_ne_zero hmax, rfl, rfl, rfl, hresume⟩

theorem SegmentedStore.openPath_tail {path : DataPath}
    {entries : List AuditEntry} {maxEntries : ℕ} {store : SegmentedStore}
    (hdisk : OnDisk crates true path entries)
    (hopen : SegmentedStore.openPath crates maxEntries path = .ok store) :
    Store.tail store = .ok (lastHead entries) := by
  have hfrom : ∀ dir : Dir,
      readSegments crates (listSegments dir) = .ok entries →
      openPath crates maxEntries (.directory dir) = .ok store →
      Store.tail store = .ok (lastHead entries) := by
    intro dir hread hdir
    obtain ⟨_, _, _, _, hresume⟩ := openPath_directory_eq_ok crates hdir
    obtain ⟨first, count, hfound⟩ := resume_of_read crates hread
    rw [hresume] at hfound
    have htail := congrArg (fun found => found.2.2) (Except.ok.inj hfound)
    exact congrArg Except.ok htail
  cases path with
  | missing =>
      obtain rfl : entries = [] := by
        rcases hdisk with hread | ⟨_, hnil⟩
        · exact (Except.ok.inj hread).symm
        · exact hnil
      exact hfrom [] rfl hopen
  | file node =>
      rcases hdisk with hread | ⟨hmissing, _⟩
      · simp [readStored, readAllSegmented] at hread
      · cases hmissing
  | directory dir =>
      rcases hdisk with hread | ⟨hmissing, _⟩
      · exact hfrom dir hread hopen
      · cases hmissing

theorem LogStore.openPath_tail {mode : Mode} {path : DataPath}
    {entries : List AuditEntry} {store : LogStore}
    (hdisk : OnDisk crates mode.isSome path entries)
    (hopen : LogStore.openPath crates mode path = .ok store) :
    Store.tail store = .ok (lastHead entries) := by
  cases mode with
  | none =>
      cases hfile : FileStore.openPath crates path with
      | error err => simp [LogStore.openPath, hfile, Except.map] at hopen
      | ok file =>
          simp only [LogStore.openPath, hfile, Except.map,
            Except.ok.injEq] at hopen
          rw [← hopen]
          exact FileStore.openPath_tail crates hdisk hfile
  | some maxEntries =>
      cases hdir : SegmentedStore.openPath crates maxEntries path with
      | error err => simp [LogStore.openPath, hdir, Except.map] at hopen
      | ok segments =>
          simp only [LogStore.openPath, hdir, Except.map,
            Except.ok.injEq] at hopen
          rw [← hopen]
          exact SegmentedStore.openPath_tail crates hdisk hdir

end Chainlog
