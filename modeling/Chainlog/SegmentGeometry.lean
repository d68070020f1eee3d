import Chainlog.Foundation.Chunks
import Chainlog.WrittenLogs

/-!
# Segment geometry

Sessions that open a directory with one limit fill it like one long session:
the entries are cut at the multiples of the limit, each segment is named after
the number of its first entry, and none is empty.
-/

namespace Chainlog

open Chunks

variable (crates : Crates)

/-! ## Journals in chunks -/

/-- The closed files hold full chunks of lines and the open file the last one,
each named after the number of its first entry. -/
structure Journal.Chunked (size : ℕ) (j : Journal)
    (groups : List (List AuditEntry)) (current : List AuditEntry) : Prop where
  closed : j.closed = groups.mapIdx fun i group =>
    (UInt64.ofNat (i * size + 1), linesOf crates group)
  first : j.first = UInt64.ofNat (groups.length * size + 1)
  content : j.content = linesOf crates current
  count : j.count = current.length
  limit : j.limit = some size
  filled : Filled size groups current

variable {crates}

namespace Journal.Chunked

variable {size : ℕ} {j : Journal} {groups : List (List AuditEntry)}
  {current : List AuditEntry}

theorem fresh (size : ℕ) :
    (Journal.fresh (some size)).Chunked crates size [] [] where
  closed := rfl
  first := by
    rw [List.length_nil, Nat.zero_mul]
    rfl
  content := rfl
  count := rfl
  limit := rfl
  filled := .nil size

theorem files (h : j.Chunked crates size groups current) :
    j.files = (groups ++ [current]).mapIdx fun i group =>
      (UInt64.ofNat (i * size + 1), linesOf crates group) := by
  rw [List.mapIdx_concat, Journal.files, h.closed, h.first, h.content]

theorem resume (h : j.Chunked crates size groups current) :
    (j.resume (some size) current.length).Chunked crates size groups current where
  closed := h.closed
  first := h.first
  content := h.content
  count := rfl
  limit := rfl
  filled := h.filled

theorem append (h : j.Chunked crates size groups current) (hsize : 1 ≤ size)
    {entry : AuditEntry}
    (hseq : entry.seq =
      UInt64.ofNat ((groups.flatten ++ current).length + 1)) :
    ∃ groups' current',
      ((j.opened entry).extend (entryLine crates entry) 1).Chunked crates size
          groups' current' ∧
        groups'.flatten ++ current' = groups.flatten ++ current ++ [entry] := by
  have hroom := h.filled.room
  have hfull : j.full = true ↔ size ≤ current.length := by
    simp [Journal.full, h.limit, h.count]
  by_cases hopen : size ≤ current.length
  · -- the open file is full: the entry begins a file that is named after it
    have hlength : current.length = size := by omega
    have hnumber : entry.seq =
        UInt64.ofNat ((groups ++ [current]).length * size + 1) := by
      rw [hseq, h.filled.length_row, hlength, List.length_append,
        List.length_singleton, Nat.add_mul, Nat.one_mul]
    have hopened : j.opened entry = j.rotate entry.seq := by
      rw [Journal.opened, if_pos (hfull.mpr hopen)]
    refine ⟨groups ++ [current], [entry], ?_, by simp⟩
    rw [hopened]
    exact {
      closed := h.files
      first := hnumber
      content := by simp [Journal.extend, Journal.rotate, linesOf]
      count := rfl
      limit := h.limit
      filled := h.filled.roll hsize hlength entry }
  · have hopened : j.opened entry = j := by
      rw [Journal.opened, if_neg fun hyes => hopen (hfull.mp hyes)]
    refine ⟨groups, current ++ [entry], ?_, by simp⟩
    rw [hopened]
    exact {
      closed := h.closed
      first := h.first
      content := by
        rw [linesOf_snoc, ← h.content]
        rfl
      count := by
        rw [List.length_append, List.length_singleton, ← h.count]
        rfl
      limit := h.limit
      filled := h.filled.push (by omega) entry }

end Journal.Chunked

/-! ## Runs -/

namespace Engine

/-- Successful appends, in sessions that open the log with one limit. -/
def SessionsOf (size : ℕ) (_ : Engine) : Op → Prop
  | .record _ call => call.io = .ok
  | .reopen mode => mode = some size

variable (crates) in
/-- The files hold the acknowledged entries in chunks, and the writer is at
their head. -/
structure InChunks (s : Engine) (size : ℕ) (j : Journal)
    (groups : List (List AuditEntry)) (current : List AuditEntry) : Prop where
  represents : s.writer.store.Represents j
  chunked : j.Chunked crates size groups current
  acked : s.acked = groups.flatten ++ current
  chain : (entryChain crates).Follows (chainStart none) s.acked
  head : s.writer.head = logHead s.acked

namespace InChunks

variable {s : Engine} {size : ℕ} {j : Journal}
  {groups : List (List AuditEntry)} {current : List AuditEntry}

theorem seq_eq (h : s.InChunks crates size j groups current)
    (hlength : s.acked.length < 2 ^ 64) {record : Record} {call : Call}
    {entry : AuditEntry}
    (hnext : s.writer.nextEntry crates call record = .ok entry) :
    entry.seq = UInt64.ofNat ((groups.flatten ++ current).length + 1) := by
  have hwriter : s.writer.seq = (logHead s.acked).1 := by
    rw [← h.head]
    rfl
  have hhead := toNat_logHead crates h.chain hlength
  rw [(s.writer.nextEntry_spec crates hnext).1, hwriter, UInt64.ofNat_add,
    ← h.acked, ← hhead, UInt64.ofNat_toNat]
  rfl

theorem exists_segmented (h : s.InChunks crates size j groups current) :
    ∃ store, s.writer.store = .segmented store ∧
      store.dir = segmentDir j.files ∧
      (j.files.map Prod.fst).Pairwise (· < ·) := by
  have hlimit := h.chunked.limit
  have hrep := h.represents
  generalize s.writer.store = store at hrep
  cases hrep with
  | file store count => cases hlimit
  | segmented store j dir file first count limit pos sorted =>
      exact ⟨store, rfl, dir, sorted⟩

theorem first_lt (h : s.InChunks crates size j groups current)
    (hsize : 1 ≤ size) (hlength : s.acked.length + 1 < 2 ^ 64)
    {entry : AuditEntry}
    (hseq : entry.seq =
      UInt64.ofNat ((groups.flatten ++ current).length + 1))
    (hfull : j.full = true) : j.first < entry.seq := by
  have hcount : size ≤ current.length := by
    simpa [Journal.full, h.chunked.limit, h.chunked.count] using hfull
  rw [h.acked] at hlength
  rw [h.chunked.filled.length_row] at hlength hseq
  have hbelow : groups.length * size + 1 < 2 ^ 64 := by omega
  rw [h.chunked.first, hseq, UInt64.lt_iff_toNat_lt,
    UInt64.toNat_ofNat_of_lt' hbelow, UInt64.toNat_ofNat_of_lt' hlength]
  omega

theorem record (h : s.InChunks crates size j groups current)
    (hsize : 1 ≤ size) {record : Record} {call : Call} (hio : call.io = .ok)
    (hlength : (s.record crates record call).acked.length + 1 < 2 ^ 64) :
    ∃ j' groups' current',
      (s.record crates record call).InChunks crates size j' groups' current' := by
  have hinit := (s.acked_prefix_record crates record call).length_le
  cases hnext : s.writer.nextEntry crates call record with
  | error err =>
      rw [record_of_error crates hnext]
      exact ⟨j, groups, current, { h with }⟩
  | ok entry =>
      have hseq := h.seq_eq (by omega) hnext
      obtain ⟨hstore, hrecorded⟩ := recorded crates h.represents hnext
        (h.first_lt hsize (by omega) hseq)
      have hjournal := j.append_ok crates entry
      rw [← hio] at hjournal
      rw [hjournal] at hstore
      obtain ⟨groups', current', hchunked, hentries⟩ :=
        h.chunked.append hsize hseq
      cases hrecorded with
      | failed err reported => simp [hjournal] at reported
      | done reported head replies acked stale =>
          refine ⟨(j.opened entry).extend (entryLine crates entry) 1, groups',
            current', ?_⟩
          exact {
            represents := hstore
            chunked := hchunked
            acked := by rw [acked, h.acked, hentries]
            chain := by
              rw [acked]
              exact follows_snoc_nextEntry crates h.chain h.head hnext
            head := by rw [head, acked, logHead_snoc] }

variable {limit : ℕ} {round : FloatBits → FloatBits}

/-- A session that opens the log goes on where the last one ended. -/
theorem reopen (h : s.InChunks crates size j groups current)
    (hserde : crates.serde.InvertsUpToFloats limit round) (hsize : 1 ≤ size)
    {t : Engine} (hstep : s.reopen crates (some size) = .ok t) :
    ∃ j', t.InChunks crates size j' groups current := by
  obtain ⟨store, hstore, _⟩ := h.exists_segmented
  have hadmits : s.writer.store.Admits (some size) := by
    rw [hstore]
    exact hsize
  have hstarted : j.closed = [] ∨ current ≠ [] :=
    h.chunked.filled.started.imp_left fun hnil => by
      rw [h.chunked.closed, hnil, List.mapIdx_nil]
  obtain ⟨hrep, _, hhead, hacked⟩ := reopen_linesOf hserde h.represents hadmits
    h.chunked.content hstarted hstep
  refine ⟨j.resume (some size) current.length, ?_⟩
  exact {
    represents := hrep
    chunked := h.chunked.resume
    acked := hacked.trans h.acked
    chain := hacked ▸ h.chain
    head := by
      rw [hhead, hacked, h.acked]
      rcases h.chunked.filled.started with rfl | hne
      · rfl
      · exact (logHead_append hne).symm }

theorem runs (h : s.InChunks crates size j groups current)
    (hserde : crates.serde.InvertsUpToFloats limit round) (hsize : 1 ≤ size)
    {t : Engine} (hrun : Runs crates (SessionsOf size) s t)
    (hlength : t.acked.length + 1 < 2 ^ 64) :
    ∃ j' groups' current', t.InChunks crates size j' groups' current' := by
  induction hrun with
  | refl => exact ⟨j, groups, current, h⟩
  | @tail u v _ hstep ih =>
      obtain ⟨op, hop, hstep⟩ := hstep
      have hinit := (acked_prefix_step crates hstep).length_le
      obtain ⟨j', groups', current', hchunks⟩ := ih (by omega)
      cases op with
      | record record call =>
          obtain rfl := Except.ok.inj hstep
          exact hchunks.record hsize hop hlength
      | reopen mode =>
          obtain rfl : mode = some size := hop
          obtain ⟨j₂, hnext⟩ := hchunks.reopen hserde hsize hstep
          exact ⟨j₂, groups', current', hnext⟩

theorem listSegments_eq (h : s.InChunks crates size j groups current)
    {store : SegmentedStore} (hstore : s.writer.store = .segmented store) :
    listSegments store.dir = (groups ++ [current]).mapIdx fun i group =>
      { first := UInt64.ofNat (i * size + 1)
        name := segmentName (UInt64.ofNat (i * size + 1))
        node := .readable (linesOf crates group) } := by
  obtain ⟨store', hstore', hdir, hsorted⟩ := h.exists_segmented
  rw [hstore] at hstore'
  cases hstore'
  rw [hdir, listSegments_segmentDir hsorted, h.chunked.files]
  apply List.ext_getElem (by simp)
  intro i _ _
  simp only [List.getElem_map, List.getElem_mapIdx]

end InChunks

theorem inChunks_of_start {size : ℕ} {s : Engine}
    (hstart : start crates (some size) .missing = .ok s) :
    1 ≤ size ∧ s.InChunks crates size (Journal.fresh (some size)) [] [] := by
  obtain ⟨hsound, _, hacked, _, hhead⟩ := start_missing crates hstart
  have hsize : 1 ≤ size := by
    rw [Nat.one_le_iff_ne_zero]
    rintro rfl
    exact mode_ne_of_start crates hstart rfl
  refine ⟨hsize, ?_⟩
  exact {
    represents := hsound.represents
    chunked := .fresh size
    acked := hacked
    chain := by
      rw [hacked]
      exact trivial
    head := by rw [hhead, hacked] }

end Engine

/-- In a chain from genesis the numbers are `1, 2, …`. -/
theorem map_seq_eq_range {entries : List AuditEntry}
    (hchain : (entryChain crates).Follows (chainStart none) entries)
    (hlength : entries.length < 2 ^ 64) :
    entries.map (fun e => e.seq.toNat) = List.range' 1 entries.length := by
  apply List.ext_getElem (by simp)
  intro i hi _
  rw [List.length_map] at hi
  rw [List.getElem_map, toNat_seq_getElem crates hchain hlength i hi,
    List.getElem_range']
  omega

theorem map_seq_piece_eq_range {entries : List AuditEntry}
    (hchain : (entryChain crates).Follows (chainStart none) entries)
    (hlength : entries.length < 2 ^ 64) {size k : ℕ}
    (hbegun : k * size < entries.length) :
    ((entries.drop (k * size)).take size).map (fun e => e.seq.toNat) =
      List.range' (k * size + 1)
        (min ((k + 1) * size) entries.length + 1 - (k * size + 1)) := by
  rw [List.map_take, List.map_drop, map_seq_eq_range hchain hlength,
    List.drop_range', Nat.mul_one, Nat.add_comm 1 (k * size), Nat.add_mul,
    Nat.one_mul]
  rcases le_total (entries.length - k * size) size with hlast | hfull
  · rw [List.take_range'_of_length_le hlast]
    congr 1
    omega
  · rw [List.take_range'_of_length_ge hfull]
    congr 1
    omega

/-- The segment is named after `first` and holds the entries, one line each,
whose numbers go from there up to `last`. -/
structure SegmentFile.HoldsFromTo (crates : Crates) (segment : SegmentFile)
    (entries : List AuditEntry) (first last : ℕ) : Prop where
  number : segment.first.toNat = first
  name : segment.name = segmentName segment.first
  content : segment.node = .readable (linesOf crates entries)
  seqs : entries.map (fun e => e.seq.toNat) =
    List.range' first (last + 1 - first)
  nonempty : entries ≠ []

/-- For every limit and every way of cutting successful appends into sessions
that open the directory with it: the segments are the entries cut at the
multiples of the limit. -/
theorem segment_geometry (crates : Crates) {limit : ℕ}
    {round : FloatBits → FloatBits}
    (hserde : crates.serde.InvertsUpToFloats limit round) {size : ℕ}
    {s t : Engine} (hstart : Engine.start crates (some size) .missing = .ok s)
    (hrun : Engine.Runs crates (Engine.SessionsOf size) s t)
    (hlength : t.acked.length + 1 < 2 ^ 64) (hpos : 1 ≤ t.acked.length) :
    ∃ store, t.writer.store = .segmented store ∧
      (listSegments store.dir).length = t.acked.length ⌈/⌉ size ∧
      ∀ k (hk : k < (listSegments store.dir).length),
        (listSegments store.dir)[k].HoldsFromTo crates
          ((t.acked.drop (k * size)).take size) (k * size + 1)
          (min ((k + 1) * size) t.acked.length) := by
  obtain ⟨hsize, hinit⟩ := Engine.inChunks_of_start hstart
  obtain ⟨j, groups, current, hchunks⟩ := hinit.runs hserde hsize hrun hlength
  obtain ⟨store, hstore, _⟩ := hchunks.exists_segmented
  have hlist := hchunks.listSegments_eq hstore
  have hfilled := hchunks.chunked.filled
  have hrow : groups.flatten ++ current ≠ [] := by
    rw [← hchunks.acked]
    exact List.length_pos_iff.mp hpos
  have hcount : (listSegments store.dir).length = groups.length + 1 := by
    simp [hlist]
  refine ⟨store, hstore, ?_, fun k hk => ?_⟩
  · rw [hcount, hchunks.acked]
    exact hfilled.length_chunks hrow
  · have hk' : k < (groups ++ [current]).length := by
      rw [List.length_append, List.length_singleton, ← hcount]
      exact hk
    have hchunk := hfilled.getElem_chunks hk'
    have hne := hfilled.chunk_ne_nil hsize hrow _ (List.getElem_mem hk')
    rw [← hchunks.acked] at hchunk
    have hbegun : k * size < t.acked.length := by
      rw [hchunk] at hne
      by_contra hbeyond
      exact hne (by rw [List.drop_of_length_le (by omega), List.take_nil])
    have hsegment : (listSegments store.dir)[k] =
        { first := UInt64.ofNat (k * size + 1)
          name := segmentName (UInt64.ofNat (k * size + 1))
          node := .readable (linesOf crates
            ((t.acked.drop (k * size)).take size)) } := by
      rw [List.getElem_of_eq hlist hk, List.getElem_mapIdx, hchunk]
    rw [hsegment]
    exact {
      number := UInt64.toNat_ofNat_of_lt' (show k * size + 1 < 2 ^ 64 by omega)
      name := rfl
      content := rfl
      seqs := map_seq_piece_eq_range hchunks.chain (by omega) hbegun
      nonempty := hchunk ▸ hne }

theorem Engine.Holds.login {s : Engine} {entries : List AuditEntry}
    (h : s.Holds referenceCrates entries)
    (hlength : entries.length + 1 < 2 ^ 64) :
    ∃ entry, (s.record referenceCrates alice (loginCall .synced)).Holds
        referenceCrates (entries ++ [entry]) ∧
      (s.record referenceCrates alice (loginCall .synced)).acked =
        s.acked ++ [entry] := by
  have hnext : s.writer.nextEntry referenceCrates (loginCall .synced) alice =
      .ok (sealEntry referenceCrates s.writer.seq s.writer.prevHash
        (loginCall .synced) alice none) := rfl
  obtain ⟨hholds, hacked, _⟩ := h.record_ok hnext rfl hlength
    (parsesBack_of_alice hnext)
  exact ⟨_, hholds, hacked⟩

theorem Engine.allowed_login (size : ℕ) (s : Engine) :
    Engine.Allowed referenceCrates (Engine.SessionsOf size) s
      (s.record referenceCrates alice (loginCall .synced)) :=
  ⟨.record alice (loginCall .synced), rfl, rfl⟩

/-- A session that ends at a full segment, and one that goes on behind it. -/
theorem segment_geometry_logins :
    ∃ s t store, Engine.start referenceCrates (some 2) .missing = .ok s ∧
      Engine.Runs referenceCrates (Engine.SessionsOf 2) s t ∧
      t.acked.length = 3 ∧ t.writer.store = .segmented store ∧
      (listSegments store.dir).length = 2 := by
  have hserde := (referenceSerde_invertsUpTo 127).floats
  obtain ⟨store, hopen, _, _, htail⟩ :=
    @openPath_missing referenceCrates (some 2) (by simp)
  obtain ⟨s, hstart⟩ : ∃ s, Engine.start referenceCrates (some 2) .missing =
      .ok s := ⟨_, Engine.start_eq referenceCrates hopen htail⟩
  obtain ⟨hsize, hinit⟩ := Engine.inChunks_of_start hstart
  obtain ⟨_, _, hacked, _⟩ := Engine.start_missing referenceCrates hstart
  obtain ⟨_, hfirst, hacked₁⟩ := (Engine.holds_of_start hstart).login (by simp)
  obtain ⟨_, hsecond, hacked₂⟩ := hfirst.login (by simp)
  have htwo := (Relation.ReflTransGen.single
    (Engine.allowed_login 2 s)).tail (Engine.allowed_login 2 _)
  obtain ⟨_, _, _, hchunks⟩ := hinit.runs hserde hsize htwo (by
    simp [hacked₂, hacked₁, hacked])
  obtain ⟨segments, hsegments, _⟩ := hchunks.exists_segmented
  have hadmits : (LogStore.segmented segments).Admits (some 2) := hsize
  rw [← hsegments] at hadmits
  obtain ⟨u, hreopen, hthird, hacked₃⟩ := hsecond.reopen hadmits
  obtain ⟨_, _, hacked₄⟩ := hthird.login (by simp)
  have hrun := (htwo.tail ⟨.reopen (some 2), rfl, hreopen⟩).tail
    (Engine.allowed_login 2 u)
  have hthree : (u.record referenceCrates alice
      (loginCall .synced)).acked.length = 3 := by
    rw [hacked₄, hacked₃, hacked₂, hacked₁, hacked]
    rfl
  obtain ⟨store', hstore, hcount, _⟩ := segment_geometry referenceCrates hserde
    hstart hrun (by rw [hthree]; decide) (by rw [hthree]; decide)
  refine ⟨_, _, store', hstart, hrun, hthree, hstore, ?_⟩
  rw [hcount, hthree]
  decide

end Chainlog
