import Chainlog.Reloading
import Chainlog.Upkeep

/-!
# Logs as they were written

A log can hold lines that the reader rejects, or reads back with other floats.
The exact reader finds every entry that was written.  It is never run: the
writer does not read, so the files of a run hold the acknowledged entries under
the exact reader whatever the real one makes of them.
-/

namespace Chainlog

open Classical in
/-- The printer, with a parser that inverts it. -/
noncomputable def SerdeJson.exact (serde : SerdeJson) : SerdeJson where
  toText := serde.toText
  fromStr text :=
    if h : ∃ doc, serde.toText doc = text then .ok h.choose
    else .error "expected value"
  toText_printable := serde.toText_printable
  toText_object := serde.toText_object

noncomputable def Crates.exact (crates : Crates) : Crates where
  serde := crates.serde.exact
  blake3 := crates.blake3

variable {crates : Crates}

theorem SerdeJson.exact_fromStr {serde : SerdeJson}
    (hprint : serde.PrintsInjectively) (doc : Document) :
    serde.exact.fromStr (serde.toText doc) = .ok doc := by
  have hprinted : ∃ other, serde.toText other = serde.toText doc := ⟨doc, rfl⟩
  simp only [SerdeJson.exact, dif_pos hprinted]
  rw [hprint hprinted.choose_spec]

theorem parsesBack_exact (hprint : crates.serde.PrintsInjectively)
    (e : AuditEntry) : ParsesBack crates.exact e := by
  have hread : crates.exact.serde.fromStr (entryText crates.exact e) =
      .ok e.toDocument := SerdeJson.exact_fromStr hprint e.toDocument
  simp [ParsesBack, decodeEntry, hread, bind, Except.bind]

theorem readsAs_linesOf (hprint : crates.serde.PrintsInjectively)
    (entries : List AuditEntry) :
    ReadsAs crates.exact (linesOf crates entries) entries := by
  induction entries using List.reverseRecOn with
  | nil => exact readsAs_nil
  | append_singleton entries e ih =>
      rw [linesOf_snoc]
      apply ih.append (terminated_linesOf entries) (parsesBack_exact hprint e)
      · exact List.prefix_append _ _
      · exact List.prefix_rfl

theorem eq_linesOf (hprint : crates.serde.PrintsInjectively) {content : Bytes}
    {entries : List AuditEntry} (hread : ReadsAs crates.exact content entries)
    (hwritten : ∃ written, content = linesOf crates written) :
    content = linesOf crates entries := by
  obtain ⟨written, rfl⟩ := hwritten
  rw [Except.ok.inj (hread.symm.trans (readsAs_linesOf hprint written))]

/-! ## Pruning without reading -/

/-- The reader has no say in what is deleted, nor in anything but the anchor. -/
theorem pruneBefore_exact (dir : Dir) (boundarySeq : UInt64)
    (removals : List (Option String)) :
    (pruneBefore crates.exact dir boundarySeq removals).1 =
        (pruneBefore crates dir boundarySeq removals).1 ∧
      (anchorBefore crates.exact (pruneBefore crates dir boundarySeq removals).1 =
          anchorBefore crates (pruneBefore crates dir boundarySeq removals).1 →
        (pruneBefore crates.exact dir boundarySeq removals).2 =
          (pruneBefore crates dir boundarySeq removals).2) := by
  unfold pruneBefore
  by_cases hshort : (listSegments dir).length ≤ 1
  · simp only [if_pos hshort]
    exact ⟨trivial, fun _ => trivial⟩
  · simp only [if_neg hshort]
    rcases pruneLoop boundarySeq (listSegments dir) removals dir false with
      ⟨left, err | deleted | deleted⟩
    · exact ⟨rfl, fun _ => rfl⟩
    · exact ⟨rfl, fun _ => rfl⟩
    · exact ⟨rfl, fun hanchor => congrArg Except.ok hanchor⟩

/-- Where the first segment can be read, both readers find the same anchor. -/
theorem anchorBefore_exact (hprint : crates.serde.PrintsInjectively) {limit : ℕ}
    {round : FloatBits → FloatBits}
    (hserde : crates.serde.InvertsUpToFloats limit round) {dir : Dir}
    {segment : SegmentFile} {rest : List SegmentFile}
    (hlist : listSegments dir = segment :: rest) {entries : List AuditEntry}
    (hnode : segment.node = .readable (linesOf crates entries))
    (hfits : ∀ e ∈ entries, e.FitsBelow limit) :
    anchorBefore crates.exact dir = anchorBefore crates dir := by
  have hexact : readFile crates.exact segment.node = .ok entries := by
    rw [hnode]
    exact readsAs_linesOf hprint entries
  have hread : readFile crates segment.node =
      .ok (entries.map (AuditEntry.reload round)) := by
    rw [hnode]
    exact (readFile_linesOf hserde entries).1 hfits
  unfold anchorBefore
  simp only [hlist, List.head?_cons, hexact, hread, Except.toOption,
    Option.bind_eq_bind, Option.bind_some]
  cases entries with
  | nil => rfl
  | cons e entries => rfl

namespace Engine

theorem prune_exact (s : Engine) (boundarySeq : UInt64)
    (removals : List (Option String)) :
    s.prune crates.exact boundarySeq removals =
      s.prune crates boundarySeq removals := by
  unfold Engine.prune
  cases hstore : s.writer.store with
  | file store => simp only [LogStore.prune]
  | segmented store =>
      simp only [LogStore.prune,
        (pruneBefore_exact store.dir boundarySeq removals).1]

theorem record_exact (s : Engine) (record : Record) (call : Call) :
    s.record crates.exact record call = s.record crates record call := rfl

variable (crates) in
/-- The log under the exact reader: every file holds lines, and the newest is
not empty behind others. -/
structure Wrote (s : Engine) (j : Journal) (gone : List AuditEntry)
    (groups : List (List AuditEntry)) (current : List AuditEntry) : Prop where
  retains : s.Retains crates.exact j gone groups current
  written : ∀ content ∈ j.files.map Prod.snd,
    ∃ entries, content = linesOf crates entries
  started : groups = [] ∨ current ≠ []
  segmented : s.writer.store.isSegmented = true

end Engine

theorem LogStore.Represents.contents_eq {store : LogStore} {j j' : Journal}
    (h : store.Represents j) (h' : store.Represents j') :
    j.files.map Prod.snd = j'.files.map Prod.snd := by
  have hnodes : ∀ files : List (UInt64 × Bytes),
      (segmentDir files).map Prod.snd =
        (files.map Prod.snd).map FileNode.readable := by
    intro files
    simp [segmentDir]
  have hinjective : Function.Injective (List.map FileNode.readable) :=
    List.map_injective_iff.mpr fun _ _ => FileNode.readable.inj
  cases h with
  | file store count =>
      cases h' with
      | file _ count' => rfl
  | segmented store _ dir =>
      cases h' with
      | segmented _ _ dir' =>
          apply hinjective
          rw [← hnodes, ← hnodes, ← dir, ← dir']

theorem Journal.written_append {j : Journal} (entry : AuditEntry)
    (hwritten : ∀ content ∈ j.files.map Prod.snd,
      ∃ entries, content = linesOf crates entries) :
    ∀ content ∈
        ((j.opened entry).extend (entryLine crates entry) 1).files.map Prod.snd,
      ∃ entries, content = linesOf crates entries := by
  have hopened : ∀ content ∈ (j.opened entry).files.map Prod.snd,
      ∃ entries, content = linesOf crates entries := by
    unfold Journal.opened
    split_ifs
    · intro content hcontent
      rw [Journal.files, List.map_append, List.mem_append] at hcontent
      rcases hcontent with hold | hnew
      · exact hwritten content hold
      · obtain rfl : content = [] := by simpa [Journal.rotate] using hnew
        exact ⟨[], rfl⟩
    · exact hwritten
  intro content hcontent
  rw [Journal.files, List.map_append, List.mem_append] at hcontent
  rcases hcontent with hclosed | hlast
  · exact hopened content (by
      rw [Journal.files, List.map_append]
      exact List.mem_append_left _ hclosed)
  · obtain ⟨entries, hentries⟩ := hopened (j.opened entry).content (by
      simp [Journal.files])
    obtain rfl := List.mem_singleton.mp hlast
    refine ⟨entries ++ [entry], ?_⟩
    rw [linesOf_snoc, ← hentries]
    rfl

/-- A session that opens a log of lines counts the entries of the open file and
goes on behind the last of them. -/
theorem Engine.reopen_linesOf {limit : ℕ} {round : FloatBits → FloatBits}
    (hserde : crates.serde.InvertsUpToFloats limit round) {s t : Engine}
    {j : Journal} (hrep : s.writer.store.Represents j) {mode : Mode}
    (hadmits : s.writer.store.Admits mode) {current : List AuditEntry}
    (hcontent : j.content = linesOf crates current)
    (hstarted : j.closed = [] ∨ current ≠ [])
    (hstep : s.reopen crates mode = .ok t) :
    t.writer.store.Represents (j.resume mode current.length) ∧
      t.writer.store.isSegmented = s.writer.store.isSegmented ∧
      t.writer.head = logHead current ∧ t.acked = s.acked := by
  obtain ⟨hread, hfits⟩ := readFile_linesOf hserde current
  rw [← hcontent] at hread hfits
  cases hcurrent : readFile crates (.readable j.content) with
  | error err =>
      have herror := hrep.openPath_error hadmits hcurrent
      simp [Engine.reopen, start, herror, bind, Except.bind, Except.map] at hstep
  | ok found =>
      have hfound : found = current.map (AuditEntry.reload round) := by
        rw [hread (hfits found hcurrent)] at hcurrent
        exact (Except.ok.inj hcurrent).symm
      subst hfound
      obtain ⟨next, tail, hopen, hnext, hkind, htail, hlast, hall⟩ :=
        hrep.openPath_ok hadmits hcurrent
      have htail' : tail = lastHead current := by
        rw [← lastHead_map_reload]
        rcases hstarted with hclosed | hne
        · exact hall [] (by rw [hclosed]; rfl)
        · exact hlast (by simpa using hne)
      rw [Engine.reopen, start_eq crates hopen htail] at hstep
      simp only [Except.map, Except.ok.injEq] at hstep
      subst hstep
      rw [List.length_map] at hnext
      refine ⟨hnext, hkind, ?_, rfl⟩
      rw [htail']
      rfl

namespace Engine.Wrote

variable {s : Engine} {j : Journal} {gone current : List AuditEntry}
  {groups : List (List AuditEntry)}

theorem content_eq (h : s.Wrote crates j gone groups current)
    (hprint : crates.serde.PrintsInjectively) :
    j.content = linesOf crates current :=
  eq_linesOf hprint h.retains.divides.current
    (h.written _ (by simp [Journal.files]))

theorem record (h : s.Wrote crates j gone groups current)
    (hprint : crates.serde.PrintsInjectively) {record : Record} {call : Call}
    (hio : call.io = .ok)
    (hlength : (s.record crates record call).acked.length + 1 < 2 ^ 64) :
    ∃ j' groups' current',
      (s.record crates record call).Wrote crates j' gone groups' current' := by
  obtain ⟨j', groups', current', _, hretains, _, hstarted⟩ :=
    h.retains.record (Or.inl hio) (fun e _ => parsesBack_exact hprint e) hlength
  have hkind := s.writer.isSegmented_process crates call record
  refine ⟨j', groups', current', hretains, ?_, hstarted hio h.started,
    hkind.trans h.segmented⟩
  cases hnext : s.writer.nextEntry crates call record with
  | error err =>
      have hstore := hretains.represents
      rw [record_exact, record_of_error crates hnext] at hstore
      rw [hstore.contents_eq h.retains.represents]
      exact h.written
  | ok entry =>
      have hstore := (recorded crates h.retains.represents hnext
        (h.retains.first_lt hnext)).1
      rw [hio, j.append_ok crates entry] at hstore
      rw [hretains.represents.contents_eq hstore]
      exact Journal.written_append entry h.written

theorem reopen (h : s.Wrote crates j gone groups current)
    (hprint : crates.serde.PrintsInjectively) {limit : ℕ}
    {round : FloatBits → FloatBits}
    (hserde : crates.serde.InvertsUpToFloats limit round) {mode : Mode}
    (hadmits : s.writer.store.Admits mode) {t : Engine}
    (hstep : s.reopen crates mode = .ok t) :
    t.Wrote crates (j.resume mode current.length) gone groups current := by
  have hstarted : j.closed = [] ∨ current ≠ [] :=
    h.started.imp_left fun hnil => by
      rw [← List.length_eq_zero_iff, h.retains.divides.length_closed, hnil]
      rfl
  obtain ⟨hrep, hkind, hhead, hacked⟩ := reopen_linesOf hserde
    h.retains.represents hadmits (h.content_eq hprint) hstarted hstep
  exact {
    retains := {
      represents := hrep
      divides := h.retains.divides.resume mode
      acked := hacked.trans h.retains.acked
      head := by
        rw [hhead, hacked, h.retains.acked]
        rcases h.started with rfl | hne
        · rcases h.retains.kept with rfl | hkept
          · rfl
          · exact (logHead_append hkept).symm
        · rw [logHead_append (by simp [hne]), logHead_append hne]
      length := hacked ▸ h.retains.length
      kept := h.retains.kept }
    written := h.written
    started := h.started
    segmented := hkind.trans h.segmented }

theorem exists_segmented (h : s.Wrote crates j gone groups current) :
    ∃ store, s.writer.store = .segmented store := by
  have hkind := h.segmented
  cases hstore : s.writer.store with
  | file store =>
      rw [hstore] at hkind
      cases hkind
  | segmented store => exact ⟨store, rfl⟩

/-- Pruning takes the first files, whose entries are below the boundary, and
where it succeeds all of these but the newest.  The anchor is what the exact
reader finds. -/
theorem prune (h : s.Wrote crates j gone groups current)
    {store : SegmentedStore} (hstore : s.writer.store = .segmented store)
    (boundarySeq : UInt64) (removals : List (Option String)) :
    ∃ k, k ≤ groups.length ∧
      (s.prune crates boundarySeq removals).Wrote crates (j.drop k)
        (gone ++ (groups.take k).flatten) (groups.drop k) current ∧
      (∀ e ∈ (groups.take k).flatten, e.seq < boundarySeq) ∧
      (∀ result,
        (pruneBefore crates.exact store.dir boundarySeq removals).2 =
            .ok result →
          (∀ group ∈ groups.drop k, ∃ e ∈ group, boundarySeq ≤ e.seq) ∧
            result = anchorAfter (groups.take k).flatten) ∧
      ((∀ removal ∈ removals, removal = none) → ∃ result,
        (pruneBefore crates.exact store.dir boundarySeq removals).2 =
          .ok result) := by
  have hretains := h.retains
  obtain ⟨hdir, hsorted⟩ := hretains.sorted hstore
  obtain ⟨k, hk, hpruned, hbelow, hall, hok, htotal⟩ :=
    hretains.divides.pruneBefore hsorted (hretains.acked ▸ hretains.length)
      boundarySeq removals
  rw [← hdir] at hpruned hok htotal
  have hleft := hretains.divides.left_of_spare hk hall
    (h.started.imp_right Or.inr)
  have hkept := hretains.pruned hstore hk hpruned (hretains.kept_of_left hleft)
  rw [prune_exact] at hkept
  refine ⟨k, hk, ?_, hbelow, fun result hresult => ?_, htotal⟩
  · exact {
      retains := hkept
      written := by
        intro content hcontent
        rw [Journal.files_drop (hretains.divides.length_closed ▸ hk),
          List.map_drop] at hcontent
        exact h.written content (List.mem_of_mem_drop hcontent)
      started := h.started.imp_left fun hnil => by rw [hnil, List.drop_nil]
      segmented := by
        unfold Engine.prune
        rw [hstore]
        rfl }
  · obtain ⟨hreach, hanchor⟩ := hok result hresult
    rw [hanchor, hretains.divides.pruned_anchor hk hleft]
    exact ⟨hreach, rfl⟩

end Engine.Wrote

namespace Engine

theorem wrote_of_start {size : ℕ} {s : Engine}
    (hstart : start crates (some size) .missing = .ok s) :
    s.Wrote crates (Journal.fresh (some size)) [] [] [] where
  retains := retains_of_start hstart
  written := by
    intro content hcontent
    obtain rfl : content = [] := by
      simpa [Journal.fresh, Journal.files] using hcontent
    exact ⟨[], rfl⟩
  started := Or.inl rfl
  segmented := by
    obtain ⟨store, hopen, _, hkind, htail⟩ :=
      openPath_missing crates (mode_ne_of_start crates hstart)
    rw [start_eq crates hopen htail] at hstart
    obtain rfl := Except.ok.inj hstart
    exact hkind

/-- What a run without faults has written, whether or not it can be read. -/
theorem wrote_of_steady (hprint : crates.serde.PrintsInjectively) {limit : ℕ}
    {round : FloatBits → FloatBits}
    (hserde : crates.serde.InvertsUpToFloats limit round) {size : ℕ}
    {s t : Engine} (hstart : start crates (some size) .missing = .ok s)
    (hrun : Maintained crates Steady s t)
    (hlength : t.acked.length + 1 < 2 ^ 64) :
    ∃ j gone groups current, t.Wrote crates j gone groups current := by
  induction hrun with
  | refl => exact ⟨_, _, _, _, wrote_of_start hstart⟩
  | @tail u v _ hstep ih =>
      obtain ⟨step, hsteady, hstep⟩ := hstep
      have hinit := acked_prefix_upkeep hstep
      obtain ⟨j, gone, groups, current, hwrote⟩ :=
        ih (lt_of_le_of_lt (Nat.succ_le_succ hinit.length_le) hlength)
      cases step with
      | log op =>
          cases op with
          | record record call =>
              obtain rfl := Except.ok.inj hstep
              obtain ⟨_, _, _, hnext⟩ := hwrote.record hprint hsteady hlength
              exact ⟨_, _, _, _, hnext⟩
          | reopen mode =>
              exact ⟨_, _, _, _, hwrote.reopen hprint hserde hsteady hstep⟩
      | prune boundarySeq removals =>
          obtain rfl := Except.ok.inj hstep
          obtain ⟨store, hstore⟩ := hwrote.exists_segmented
          obtain ⟨_, _, hnext, _⟩ := hwrote.prune hstore boundarySeq removals
          exact ⟨_, _, _, _, hnext⟩

end Engine

end Chainlog
