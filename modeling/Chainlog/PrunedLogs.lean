import Chainlog.CrashPoints
import Chainlog.Nesting
import Chainlog.Upkeep

/-!
# What pruning keeps

In a run without faults, pruning takes exactly the old segments, returns the
last deleted entry as the anchor and leaves a log that verifies from it and can
be continued.  Where a failed append has left an empty newest segment, pruning
can take every entry: it then returns no anchor, and the log starts anew.
-/

namespace Chainlog

variable (crates : Crates)

/-- What pruning a directory of a log has to do: delete exactly the segments
other than the newest whose entries are all below the boundary, return the last
deleted entry as the anchor, and leave a log that verifies from the anchor, that
is reopened at the same tail and that goes on from there. -/
structure Engine.PrunesVerifiably (t : Engine) (store : SegmentedStore)
    (boundarySeq : UInt64) (deleted survivors : List AuditEntry) : Prop where
  before : readSegments crates (listSegments store.dir) =
    .ok (deleted ++ survivors)
  after : readSegments crates
    (listSegments (pruneBefore crates store.dir boundarySeq []).1) =
      .ok survivors
  below : ∀ e ∈ deleted, e.seq < boundarySeq
  segments : ∃ old,
    listSegments store.dir =
        old ++ listSegments (pruneBefore crates store.dir boundarySeq []).1 ∧
      listSegments (pruneBefore crates store.dir boundarySeq []).1 ≠ [] ∧
      (∀ segment ∈ old, ∃ entries, readFile crates segment.node = .ok entries ∧
        ∀ e ∈ entries, e.seq < boundarySeq) ∧
      ∀ front segment next back,
        listSegments (pruneBefore crates store.dir boundarySeq []).1 =
            front ++ segment :: next :: back →
          ∃ entries, readFile crates segment.node = .ok entries ∧
            ∃ e ∈ entries, boundarySeq ≤ e.seq
  anchor : (pruneBefore crates store.dir boundarySeq []).2 =
    .ok (anchorAfter deleted)
  deletes : deleted = [] ↔
    listSegments (pruneBefore crates store.dir boundarySeq []).1 =
      listSegments store.dir
  valid : ∀ anchor,
    (pruneBefore crates store.dir boundarySeq []).2 = .ok (some anchor) →
      (verifyEntriesFrom crates (some anchor) survivors).isValid = true
  tail : ∀ maxEntries, 1 ≤ maxEntries → ∃ opened pruned tail,
    SegmentedStore.openPath crates maxEntries (.directory store.dir) =
        .ok opened ∧
      SegmentedStore.openPath crates maxEntries
          (.directory (pruneBefore crates store.dir boundarySeq []).1) =
        .ok pruned ∧
      Store.tail opened = .ok tail ∧ Store.tail pruned = .ok tail
  continued : ∀ u,
    Engine.Runs crates Engine.FaultFree (t.prune crates boundarySeq []) u →
      (∀ e ∈ u.acked, ParsesBack crates e) → u.acked.length + 1 < 2 ^ 64 →
        ∃ new, u.acked = t.acked ++ new ∧
          readStored crates u.writer.store.isSegmented u.writer.store.disk =
              .ok (survivors ++ new) ∧
          ∀ anchor, (pruneBefore crates store.dir boundarySeq []).2 =
              .ok (some anchor) →
            (verifyEntriesFrom crates (some anchor)
              (survivors ++ new)).isValid = true
  interrupted : ∀ removals, ∃ left,
    readSegments crates
        (listSegments (pruneBefore crates store.dir boundarySeq removals).1) =
          .ok left ∧
      left <:+ deleted ++ survivors ∧
      ∀ first ∈ left.head?,
        (verifyEntriesFrom crates
          (some { seq := first.seq - 1, hash := first.prevHash })
          left).isValid = true

/-- Where pruning deletes entries it returns the last of them as the anchor, and
a writer on what is left goes on behind the old head. -/
def Dir.KeepsHead (dir : Dir) (boundarySeq : UInt64) : Prop :=
  ∃ deleted survivors,
    readSegments crates (listSegments dir) = .ok (deleted ++ survivors) ∧
      readSegments crates
          (listSegments (pruneBefore crates dir boundarySeq []).1) =
        .ok survivors ∧
      (deleted ≠ [] →
        (pruneBefore crates dir boundarySeq []).2 = .ok (anchorAfter deleted) ∧
          ∀ maxEntries, 1 ≤ maxEntries → ∃ u,
            Engine.start crates (some maxEntries)
                (.directory (pruneBefore crates dir boundarySeq []).1) =
              .ok u ∧
            u.writer.head = logHead (deleted ++ survivors))

variable {crates}

theorem anchorAfter_eq_none {entries : List AuditEntry} :
    anchorAfter entries = none ↔ entries = [] := by
  cases entries using List.reverseRecOn with
  | nil => simp
  | append_singleton entries e => simp [anchorAfter_snoc]

theorem follows_named_anchor {start : UInt64 × String}
    {first : AuditEntry} {entries : List AuditEntry}
    (h : (entryChain crates).Follows start entries)
    (hfirst : first ∈ entries.head?) :
    (entryChain crates).Follows
      (chainStart (some { seq := first.seq - 1, hash := first.prevHash }))
      entries := by
  cases entries with
  | nil => simp at hfirst
  | cons e entries =>
      obtain rfl : e = first := by simpa using hfirst
      obtain ⟨⟨_, _, hsealed⟩, hrest⟩ := h
      refine ⟨⟨?_, rfl, hsealed⟩, hrest⟩
      exact (UInt64.sub_add_cancel e.seq 1).symm

namespace Journal.Divides

variable {j : Journal} {gone current : List AuditEntry}
  {groups : List (List AuditEntry)}

theorem exists_group {files : List (UInt64 × Bytes)}
    (hread : List.Forall₂ (ReadsAs crates) (files.map Prod.snd) groups)
    {file : UInt64 × Bytes} (hfile : file ∈ files) :
    ∃ group ∈ groups, ReadsAs crates file.2 group := by
  induction files generalizing groups with
  | nil => simp at hfile
  | cons first files ih =>
      rw [List.map_cons, List.forall₂_cons_left_iff] at hread
      obtain ⟨group, others, hfirst, hrest, rfl⟩ := hread
      rcases List.mem_cons.mp hfile with rfl | hmem
      · exact ⟨group, List.mem_cons_self, hfirst⟩
      · obtain ⟨other, hother, hreads⟩ := ih hrest hmem
        exact ⟨other, List.mem_cons_of_mem _ hother, hreads⟩

/-- A cut listing of a divided journal: the files below the boundary, then
files that reach it, then the newest. -/
theorem listSegments_cut (h : j.Divides crates gone groups current)
    (hsorted : (j.files.map Prod.fst).Pairwise (· < ·)) {k : ℕ}
    (hk : k ≤ groups.length) {boundarySeq : UInt64}
    (hbelow : ∀ e ∈ (groups.take k).flatten, e.seq < boundarySeq)
    (hreach : ∀ group ∈ groups.drop k, ∃ e ∈ group, boundarySeq ≤ e.seq) :
    ∃ old, listSegments (segmentDir j.files) =
        old ++ listSegments (segmentDir (j.drop k).files) ∧
      listSegments (segmentDir (j.drop k).files) ≠ [] ∧
      (∀ segment ∈ old, ∃ entries, readFile crates segment.node = .ok entries ∧
        ∀ e ∈ entries, e.seq < boundarySeq) ∧
      ∀ front segment next back,
        listSegments (segmentDir (j.drop k).files) =
            front ++ segment :: next :: back →
          ∃ entries, readFile crates segment.node = .ok entries ∧
            ∃ e ∈ entries, boundarySeq ≤ e.seq := by
  have hclosed : k ≤ j.closed.length := h.length_closed ▸ hk
  rw [listSegments_segmentDir hsorted,
    listSegments_segmentDir (Journal.sorted_drop hclosed hsorted)]
  have hold := List.forall₂_take k h.closed
  rw [← List.map_take] at hold
  refine ⟨(j.closed.take k).map fun file =>
    { first := file.1, name := segmentName file.1
      node := .readable file.2 }, ?_, ?_, ?_, ?_⟩
  · have hfiles : j.files = j.closed.take k ++ (j.drop k).files := by
      unfold Journal.files Journal.drop
      rw [← List.append_assoc, List.take_append_drop]
    conv_lhs => rw [hfiles, List.map_append]
  · simp [Journal.files]
  · intro segment hsegment
    obtain ⟨file, hfile, rfl⟩ := List.mem_map.mp hsegment
    obtain ⟨group, hgroup, hread⟩ := exists_group hold hfile
    exact ⟨group, hread, fun e he =>
      hbelow e (List.mem_flatten.mpr ⟨group, hgroup, he⟩)⟩
  · intro front segment next back heq
    have hmem : segment ∈ ((j.drop k).closed.map fun file : UInt64 × Bytes =>
        ({ first := file.1, name := segmentName file.1
           node := .readable file.2 } : SegmentFile)) := by
      unfold Journal.files at heq
      rw [List.map_append] at heq
      have hdropLast := congrArg List.dropLast heq
      rw [List.map_singleton, List.dropLast_concat, List.dropLast_append_cons,
        List.dropLast_cons_of_ne_nil (List.cons_ne_nil _ _)] at hdropLast
      rw [hdropLast]
      simp
    obtain ⟨file, hfile, rfl⟩ := List.mem_map.mp hmem
    obtain ⟨group, hgroup, hread⟩ := exists_group (h.drop hk).closed hfile
    exact ⟨group, hread, hreach group hgroup⟩

end Journal.Divides

namespace Engine

variable {s t : Engine} {j : Journal} {gone current : List AuditEntry}
  {groups : List (List AuditEntry)} {store : SegmentedStore}

namespace Retains

theorem represents_drop (h : t.Retains crates j gone groups current)
    (hstore : t.writer.store = .segmented store) {k : ℕ}
    (hk : k ≤ groups.length) :
    (LogStore.segmented
      { store with dir := segmentDir (j.drop k).files }).Represents
        (j.drop k) :=
  (hstore ▸ h.represents).drop (h.divides.length_closed ▸ hk)

/-- What is left after files are taken from the front is a suffix that verifies
from the anchor its first entry names. -/
theorem left_verifies (h : t.Retains crates j gone groups current)
    (hstore : t.writer.store = .segmented store) {k : ℕ}
    (hk : k ≤ groups.length) :
    ∃ left, readSegments crates
          (listSegments (segmentDir (j.drop k).files)) = .ok left ∧
      left <:+ groups.flatten ++ current ∧
      ∀ first ∈ left.head?,
        (verifyEntriesFrom crates
          (some { seq := first.seq - 1, hash := first.prevHash })
          left).isValid = true := by
  have hcut := h.divides.drop hk
  have hsorted := Journal.sorted_drop (h.divides.length_closed ▸ hk)
    (h.sorted hstore).2
  refine ⟨_, hcut.readSegments hsorted, ?_, ?_⟩
  · refine ⟨(groups.take k).flatten, ?_⟩
    rw [← List.append_assoc, ← List.flatten_append, List.take_append_drop]
  · intro first hfirst
    rw [verifyEntriesFrom_isValid]
    exact follows_named_anchor hcut.kept_chain hfirst

/-- Reopening finds the same tail with and without the first files, where an
entry is left. -/
theorem same_tail (h : t.Retains crates j gone groups current)
    (hstore : t.writer.store = .segmented store) {boundarySeq : UInt64}
    (hpruned : ∃ j' gone' groups', (t.prune crates boundarySeq []).Retains
      crates j' gone' groups' current ∧
        gone' ++ (groups'.flatten ++ current) =
          gone ++ (groups.flatten ++ current)) {maxEntries : ℕ}
    (hmax : 1 ≤ maxEntries) :
    ∃ opened pruned tail,
      SegmentedStore.openPath crates maxEntries (.directory store.dir) =
          .ok opened ∧
        SegmentedStore.openPath crates maxEntries
            (.directory (pruneBefore crates store.dir boundarySeq []).1) =
          .ok pruned ∧
        Store.tail opened = .ok tail ∧ Store.tail pruned = .ok tail := by
  have hopens : ∀ (u : Engine) (dir : Dir) {j gone groups},
      u.Retains crates j gone groups current →
        (∃ other : SegmentedStore, u.writer.store = .segmented other ∧
          other.dir = dir) →
        ∃ opened : SegmentedStore,
          SegmentedStore.openPath crates maxEntries (.directory dir) =
              .ok opened ∧
            Store.tail opened = .ok (lastHead (groups.flatten ++ current)) := by
    rintro u dir j gone groups hretains ⟨other, hother, rfl⟩
    have hadmits : u.writer.store.Admits (some maxEntries) := by
      rw [hother]
      exact hmax
    obtain ⟨opened, hopen, _, htail, _⟩ := hretains.restart hadmits
    rw [hother] at hopen
    cases hpath : SegmentedStore.openPath crates maxEntries
        (.directory other.dir) with
    | error err =>
        simp [LogStore.openPath, LogStore.disk, hpath, Except.map] at hopen
    | ok opened' =>
        simp only [LogStore.openPath, LogStore.disk, hpath, Except.map,
          Except.ok.injEq] at hopen
        subst opened
        exact ⟨opened', rfl, htail⟩
  obtain ⟨j', gone', groups', hretains, hsame⟩ := hpruned
  obtain ⟨opened, hopened, htail⟩ := hopens t _ h ⟨store, hstore, rfl⟩
  obtain ⟨pruned, hpruned, htail'⟩ := hopens _
    (pruneBefore crates store.dir boundarySeq []).1 hretains
      ⟨_, by unfold Engine.prune; rw [hstore]; rfl, rfl⟩
  refine ⟨opened, pruned, _, hopened, hpruned, htail, ?_⟩
  rw [htail']
  have hhead : ∀ {gone kept : List AuditEntry}, gone = [] ∨ kept ≠ [] →
      lastHead kept = lastHead (gone ++ kept) := by
    intro gone kept hkept
    rcases hkept with rfl | hne
    · rfl
    · exact (lastHead_append_of_ne_nil hne).symm
  rw [hhead hretains.kept, hsame, ← hhead h.kept]

theorem continued (h : s.Retains crates j gone groups current)
    (hrun : Runs crates FaultFree s t)
    (hparse : ∀ e ∈ t.acked, ParsesBack crates e)
    (hlength : t.acked.length + 1 < 2 ^ 64) :
    ∃ new, t.acked = s.acked ++ new ∧
      Chainlog.readStored crates t.writer.store.isSegmented
          t.writer.store.disk = .ok (groups.flatten ++ current ++ new) ∧
      (entryChain crates).Follows (chainStart (anchorAfter gone))
        (groups.flatten ++ current ++ new) := by
  obtain ⟨j', groups', current', new, hretains, hacked⟩ :=
    h.runs hrun hparse hlength
  have hentries : groups'.flatten ++ current' =
      groups.flatten ++ current ++ new := by
    have hall := hacked
    rw [hretains.acked, h.acked, List.append_assoc] at hall
    exact List.append_cancel_left hall
  refine ⟨new, hacked, ?_, hentries ▸ hretains.divides.kept_chain⟩
  rw [hretains.represents.read_eq, ← hentries,
    LogStore.Represents.read_eq_ok]
  exact ⟨_, _, readNodes_of_forall₂ hretains.divides.closed,
    hretains.divides.current, rfl⟩

/-- Where the newest file is not empty behind others, pruning keeps the log
verifiable. -/
theorem prunesVerifiably (h : t.Retains crates j gone groups current)
    (hstore : t.writer.store = .segmented store)
    (hcurrent : groups = [] ∨ current ≠ []) (boundarySeq : UInt64) :
    ∃ deleted survivors,
      t.PrunesVerifiably crates store boundarySeq deleted survivors := by
  obtain ⟨hdir, hsorted⟩ := h.sorted hstore
  have hlength : (gone ++ (groups.flatten ++ current)).length + 1 < 2 ^ 64 :=
    h.acked ▸ h.length
  obtain ⟨k, hk, hpruned, hbelow, hall, hok, htotal⟩ :=
    h.divides.pruneBefore hsorted hlength boundarySeq []
  obtain ⟨result, hresult⟩ := htotal (by simp)
  obtain ⟨hreach, hanchor⟩ := hok result hresult
  rw [← hdir] at hpruned hresult
  have hclosed : k ≤ j.closed.length := h.divides.length_closed ▸ hk
  have hleft := h.divides.left_of_spare hk hall (hcurrent.imp_right Or.inr)
  have hretains := h.pruned hstore hk hpruned (h.kept_of_left hleft)
  have hvalue : result = anchorAfter (groups.take k).flatten := by
    rw [hanchor, h.divides.pruned_anchor hk hleft]
  have hstart : ∀ anchor,
      (Chainlog.pruneBefore crates store.dir boundarySeq []).2 =
          .ok (some anchor) →
        some anchor = anchorAfter (gone ++ (groups.take k).flatten) := by
    intro anchor hsome
    have hvalue' : some anchor = anchorAfter (groups.take k).flatten :=
      (Except.ok.inj (hsome.symm.trans hresult)).trans hvalue
    rw [hvalue', anchorAfter_append]
    intro hnil
    rw [hnil] at hvalue'
    cases hvalue'
  refine ⟨(groups.take k).flatten, (groups.drop k).flatten ++ current, ?_⟩
  exact {
    before := by
      rw [h.readStored hstore, ← List.append_assoc, ← List.flatten_append,
        List.take_append_drop]
    after := by
      rw [hpruned]
      exact hretains.divides.readSegments (Journal.sorted_drop hclosed hsorted)
    below := hbelow
    segments := by
      rw [hpruned, hdir]
      exact h.divides.listSegments_cut hsorted hk hbelow hreach
    anchor := by rw [hresult, hvalue]
    deletes := by
      rw [h.divides.flatten_take_eq_nil hk, hpruned, hdir]
      exact h.divides.listSegments_drop_iff hsorted hk
    valid := by
      intro anchor hsome
      rw [verifyEntriesFrom_isValid, hstart anchor hsome]
      exact hretains.divides.kept_chain
    tail := by
      intro maxEntries hmax
      refine h.same_tail hstore ⟨_, _, _, hretains, ?_⟩ hmax
      rw [← hretains.acked, ← h.acked]
      rfl
    continued := by
      intro u hrun hparse hroom
      obtain ⟨new, hacked, hread, hfollows⟩ :=
        hretains.continued hrun hparse hroom
      refine ⟨new, hacked, hread, ?_⟩
      intro anchor hsome
      rw [verifyEntriesFrom_isValid, hstart anchor hsome]
      exact hfollows
    interrupted := by
      intro removals
      obtain ⟨m, hm, hcut, _⟩ :=
        h.divides.pruneBefore hsorted hlength boundarySeq removals
      obtain ⟨left, hread, hsuffix, hvalid⟩ := h.left_verifies hstore hm
      refine ⟨left, ?_, ?_, hvalid⟩
      · rw [hdir, hcut]
        exact hread
      · rw [← List.append_assoc, ← List.flatten_append, List.take_append_drop]
        exact hsuffix }

/-- Where pruning leaves an entry, it keeps the head of the chain. -/
theorem keepsHead (h : t.Retains crates j gone groups current)
    (hstore : t.writer.store = .segmented store) {boundarySeq : UInt64}
    (hspares : store.dir.Spares crates boundarySeq) :
    store.dir.KeepsHead crates boundarySeq := by
  obtain ⟨hdir, hsorted⟩ := h.sorted hstore
  obtain ⟨k, hk, hpruned, _, hall, hok, htotal⟩ :=
    h.divides.pruneBefore hsorted (h.acked ▸ h.length) boundarySeq []
  obtain ⟨result, hresult⟩ := htotal (by simp)
  have hanchor := (hok result hresult).2
  rw [← hdir] at hpruned hresult
  have hleft := h.divides.left_of_spare hk hall
    ((h.spares_iff hstore).mp hspares)
  have hretains := h.pruned hstore hk hpruned (h.kept_of_left hleft)
  refine ⟨(groups.take k).flatten, (groups.drop k).flatten ++ current, ?_, ?_, ?_⟩
  · rw [h.readStored hstore, ← List.append_assoc, ← List.flatten_append,
      List.take_append_drop]
  · rw [hpruned]
    exact hretains.divides.readSegments
      (Journal.sorted_drop (h.divides.length_closed ▸ hk) hsorted)
  · intro hdeleted
    refine ⟨by rw [hresult, hanchor, h.divides.pruned_anchor hk hleft], ?_⟩
    intro maxEntries hmax
    have hkind : (t.prune crates boundarySeq []).writer.store =
        .segmented { store with
          dir := (pruneBefore crates store.dir boundarySeq []).1 } := by
      unfold Engine.prune
      rw [hstore]
      rfl
    have hadmits : (t.prune crates boundarySeq []).writer.store.Admits
        (some maxEntries) := by
      rw [hkind]
      exact hmax
    obtain ⟨opened, _, _, _, hstart⟩ := hretains.restart hadmits
    rw [hkind] at hstart
    refine ⟨_, hstart, ?_⟩
    have hacked := hretains.acked
    rw [List.append_assoc] at hacked
    show logHead (t.prune crates boundarySeq []).acked = _
    rw [hacked, logHead_append (by simp [hdeleted])]

/-- Where pruning leaves no entry, it returns no anchor, and the log starts
anew. -/
theorem loses_all (h : t.Retains crates j gone groups current)
    (hstore : t.writer.store = .segmented store) {boundarySeq : UInt64}
    (hspares : ¬store.dir.Spares crates boundarySeq) :
    groups.flatten ++ current ≠ [] ∧
      readSegments crates
          (listSegments (pruneBefore crates store.dir boundarySeq []).1) =
        .ok [] ∧
      (pruneBefore crates store.dir boundarySeq []).2 = .ok none ∧
      ∀ maxEntries, 1 ≤ maxEntries → ∃ u,
        start crates (some maxEntries)
            (.directory (pruneBefore crates store.dir boundarySeq []).1) =
          .ok u ∧
        u.writer.head = (0, genesisPrevHash) := by
  rw [h.spares_iff hstore, not_or, not_or, not_not, UInt64.not_lt] at hspares
  obtain ⟨hgroups, hfirst, rfl⟩ := hspares
  obtain ⟨hdir, hsorted⟩ := h.sorted hstore
  have hlength : (gone ++ (groups.flatten ++ [])).length + 1 < 2 ^ 64 :=
    h.acked ▸ h.length
  obtain ⟨k, hk, hpruned, _, _, hok, htotal⟩ :=
    h.divides.pruneBefore hsorted hlength boundarySeq []
  obtain ⟨result, hresult⟩ := htotal (by simp)
  obtain ⟨hreach, hanchor⟩ := hok result hresult
  have hall : groups.drop k = [] := by
    rw [List.eq_nil_iff_forall_not_mem]
    intro group hgroup
    obtain ⟨e, he, hbehind⟩ := hreach group hgroup
    have hbelow := h.divides.seq_lt_first hlength
      (List.mem_flatten.mpr ⟨group, List.mem_of_mem_drop hgroup, he⟩)
    exact absurd (UInt64.lt_of_lt_of_le hbelow
      (UInt64.le_trans hfirst hbehind)) (UInt64.lt_irrefl _)
  rw [← hdir] at hpruned hresult
  have hcut := h.divides.drop hk
  rw [hall] at hcut
  refine ⟨?_, ?_, ?_, ?_⟩
  · intro hnil
    rw [List.append_nil, List.flatten_eq_nil_iff] at hnil
    obtain ⟨group, hgroup⟩ := List.exists_mem_of_ne_nil _ hgroups
    exact h.divides.filled group hgroup (hnil group hgroup)
  · rw [hpruned]
    exact hcut.readSegments
      (Journal.sorted_drop (h.divides.length_closed ▸ hk) hsorted)
  · rw [hresult, hanchor, hall, if_neg (by simp)]
  · intro maxEntries hmax
    have hrep := h.represents_drop hstore hk
    have hadmits : (LogStore.segmented
        { store with dir := segmentDir (j.drop k).files }).Admits
          (some maxEntries) := hmax
    obtain ⟨opened, tail, hopen, _, _, htail, _, hlast⟩ :=
      hrep.openPath_ok hadmits hcut.current
    obtain rfl := hlast _ (readNodes_of_forall₂ hcut.closed)
    rw [hpruned]
    exact ⟨_, start_eq crates hopen htail, rfl⟩

theorem keepsHead_iff (h : t.Retains crates j gone groups current)
    (hstore : t.writer.store = .segmented store) {boundarySeq : UInt64} :
    store.dir.KeepsHead crates boundarySeq ↔
      store.dir.Spares crates boundarySeq := by
  constructor
  · rintro ⟨deleted, survivors, hbefore, hafter, hhead⟩
    by_contra hspares
    obtain ⟨hne, hnothing, hnone, _⟩ := h.loses_all hstore hspares
    obtain rfl : survivors = [] := Except.ok.inj (hafter.symm.trans hnothing)
    rw [h.readStored hstore, List.append_nil, Except.ok.injEq] at hbefore
    rw [hbefore] at hne
    have hanchor := Except.ok.inj (hnone.symm.trans (hhead hne).1)
    exact hne (anchorAfter_eq_none.mp hanchor.symm)
  · exact h.keepsHead hstore

end Retains

/-- In every run of appends, restarts and prunes without faults whose entries
parse back, pruning keeps the log verifiable, at every boundary. -/
theorem prune_keeps_verifiable (crates : Crates) {limit : ℕ} {s t : Engine}
    {store : SegmentedStore} (hstart : start crates (some limit) .missing = .ok s)
    (hrun : Maintained crates Steady s t)
    (hstore : t.writer.store = .segmented store)
    (hparse : ∀ e ∈ t.acked, ParsesBack crates e)
    (hlength : t.acked.length + 1 < 2 ^ 64) (boundarySeq : UInt64) :
    ∃ deleted survivors,
      t.PrunesVerifiably crates store boundarySeq deleted survivors := by
  obtain ⟨j, gone, groups, current, hretains, hcurrent⟩ :=
    retains_of_steady hstart hrun hparse hlength
  exact hretains.prunesVerifiably hstore hcurrent boundarySeq

/-! ## Two records over segments of one entry -/

/-- The engine over a missing directory, with segments of one entry. -/
def onSegments : Engine where
  writer := {
    store := .segmented {
      dir := segmentDir [(1, [])], maxEntries := 1, file := segmentName 1
      curFirst := 1, curCount := 0, cachedTail := none }
    seq := 0
    prevHash := genesisPrevHash }
  replies := []
  acked := []
  stale := false

theorem start_onSegments :
    start referenceCrates (some 1) .missing = .ok onSegments := by
  have hmode : (some 1 : Mode) ≠ some 0 := by simp
  obtain ⟨store, hopen, hrep, _, htail⟩ := openPath_missing referenceCrates hmode
  have hstore : LogStore.openPath referenceCrates (some 1) .missing =
      .ok onSegments.writer.store := by
    simp [LogStore.openPath, SegmentedStore.openPath, bind, Except.bind,
      listSegments, SegmentedStore.resume, Dir.find, openAppend, Dir.create,
      segmentDir, pure, Except.pure, Except.map, onSegments]
  obtain rfl := Except.ok.inj (hstore.symm.trans hopen)
  exact start_eq referenceCrates hopen htail

/-- The engine after the first login. -/
noncomputable def firstStored : Engine :=
  onSegments.record referenceCrates alice (loginCall .synced)

noncomputable def firstSegment : Journal where
  closed := []
  first := 1
  content := entryLine referenceCrates firstLogin
  count := 1
  limit := some 1

theorem firstStored_spec :
    firstStored.writer.store.Represents firstSegment ∧
      firstStored.acked = [firstLogin] ∧
      firstStored.writer.head = (firstLogin.seq, firstLogin.entryHash) := by
  have hfresh := (retains_of_start start_onSegments).represents
  have hnext : onSegments.writer.nextEntry referenceCrates (loginCall .synced)
      alice = .ok firstLogin := rfl
  obtain ⟨hstore, hrecorded⟩ := recorded referenceCrates hfresh hnext
    (fun hfull => absurd hfull (by decide))
  have hopened : (Journal.fresh (some 1)).opened firstLogin =
      Journal.fresh (some 1) := by
    simp [Journal.opened, Journal.full, Journal.fresh]
  have hextended : ∀ bytes, (Journal.fresh (some 1)).extend bytes 1 =
      { closed := [], first := 1, content := bytes, count := 1
        limit := some 1 } := fun _ => rfl
  have hjournal : (Journal.fresh (some 1)).append referenceCrates firstLogin
      .ok = (firstSegment, .ok ()) := by
    rw [Journal.append_ok, hopened, hextended]
    rfl
  have hio : (loginCall .synced).io = IoOutcome.ok := rfl
  rw [hio, hjournal] at hstore
  rw [hio] at hrecorded
  cases hrecorded with
  | failed err reported => simp [hjournal] at reported
  | done reported head replies acked stale => exact ⟨hstore, acked, head⟩

theorem maintained_firstStored :
    Maintained referenceCrates Steady onSegments firstStored :=
  .single ⟨.log (.record alice (loginCall .synced)), rfl, rfl⟩

theorem record_firstStored (record : Record) (hpii : record.pii = none)
    (call : Call) :
    ∃ entry, firstStored.writer.nextEntry referenceCrates call record =
        .ok entry ∧
      entry.seq = 2 ∧ entry.payload.data = record.data ∧
      entry.payload.pii = none ∧
      (firstStored.record referenceCrates record call).writer.store.Represents
        (firstSegment.append referenceCrates entry call.io).1 ∧
      firstStored.Recorded referenceCrates firstSegment entry call.io
        (firstStored.record referenceCrates record call) := by
  obtain ⟨hrep, _, hhead⟩ := firstStored_spec
  have hseq : firstStored.writer.seq = 1 := congrArg Prod.fst hhead
  have hnext : firstStored.writer.nextEntry referenceCrates call record =
      .ok (sealEntry referenceCrates firstStored.writer.seq
        firstStored.writer.prevHash call record none) := by
    unfold WriterState.nextEntry sealPii
    rw [hpii]
    rfl
  have hnumber : (sealEntry referenceCrates firstStored.writer.seq
      firstStored.writer.prevHash call record none).seq = 2 := by
    show firstStored.writer.seq + 1 = 2
    rw [hseq]
    rfl
  have hrecorded := recorded referenceCrates hrep hnext
    (fun _ => by rw [hnumber]; decide)
  exact ⟨_, hnext, hnumber, rfl, rfl, hrecorded⟩

theorem exists_segmented {store : LogStore} {j : Journal}
    (h : store.Represents j) (hlimit : j.limit.isSome) :
    ∃ segments : SegmentedStore, store = .segmented segments := by
  cases h with
  | file store count => simp at hlimit
  | segmented store _ => exact ⟨store, rfl⟩

theorem prune_keeps_verifiable_logins :
    ∃ t store, Maintained referenceCrates Steady onSegments t ∧
      t.writer.store = .segmented store ∧ t.acked.length = 2 ∧
      ∃ deleted survivors,
        t.PrunesVerifiably referenceCrates store 2 deleted survivors := by
  obtain ⟨entry, hnext, _, hdata, hpii, hrep, hrecorded⟩ :=
    record_firstStored alice rfl (loginCall .synced)
  have hjournal := firstSegment.append_ok referenceCrates entry
  have hio : (loginCall .synced).io = IoOutcome.ok := rfl
  rw [hio] at hrep hrecorded
  obtain ⟨store, hstore⟩ := exists_segmented hrep (by rw [hjournal]; rfl)
  cases hrecorded with
  | failed err reported => simp [hjournal] at reported
  | done reported head replies acked stale =>
      rw [firstStored_spec.2.1] at acked
      have hrun : Maintained referenceCrates Steady onSegments
          (firstStored.record referenceCrates alice (loginCall .synced)) :=
        maintained_firstStored.tail
          ⟨.log (.record alice (loginCall .synced)), rfl, rfl⟩
      refine ⟨_, store, hrun, hstore, by rw [acked]; rfl, ?_⟩
      apply prune_keeps_verifiable referenceCrates start_onSegments hrun hstore
      · intro e he
        rw [acked] at he
        rcases List.mem_cons.mp he with rfl | he
        · exact parsesBack_of_plain rfl rfl
        · obtain rfl := List.mem_singleton.mp he
          exact parsesBack_of_plain hdata hpii
      · rw [acked]
        show 2 + 1 < 2 ^ 64
        decide

theorem files_second (entry : AuditEntry) (bytes : Bytes) (entries : ℕ) :
    ((firstSegment.opened entry).extend bytes entries).files =
      [(1, entryLine referenceCrates firstLogin), (entry.seq, bytes)] := by
  simp [Journal.opened, Journal.full, Journal.rotate, Journal.extend,
    Journal.files, firstSegment]

/-- The second entry is nested too deep to be read back: pruning deletes the
first segment and returns no anchor. -/
theorem prune_hides_deletion :
    ∃ t store, start referenceCrates (some 1) .missing = .ok onSegments ∧
      Maintained referenceCrates Steady onSegments t ∧
      t.writer.store = .segmented store ∧ t.acked.length = 2 ∧
      (listSegments store.dir).length = 2 ∧
      (listSegments (pruneBefore referenceCrates store.dir 2 []).1).length = 1 ∧
      (pruneBefore referenceCrates store.dir 2 []).2 = .ok none ∧
      ¬∃ deleted survivors,
        t.PrunesVerifiably referenceCrates store 2 deleted survivors := by
  let deep : Record := alice.withData (Value.ofDocument (nest 126))
  obtain ⟨entry, hnext, hseq, hdata, _, hrep, hrecorded⟩ :=
    record_firstStored deep rfl (loginCall .synced)
  have hjournal := firstSegment.append_ok referenceCrates entry
  have hio : (loginCall .synced).io = IoOutcome.ok := rfl
  rw [hio] at hrep hrecorded
  rw [hjournal] at hrep
  have hdata : entry.payload.data = Value.ofDocument (nest 126) := hdata
  have hdeep : ¬entry.FitsBelow 127 := by
    intro hfits
    have hdepth := hfits.1
    rw [hdata, depth_ofDocument_nest] at hdepth
    omega
  have hserde : referenceCrates.serde.InvertsUpTo 127 :=
    referenceSerde_invertsUpTo 127
  rw [← parsesBack_iff_fitsBelow hserde,
    parsesBack_iff_of_invertsUpTo referenceCrates hserde] at hdeep
  obtain ⟨reason, hreject⟩ := (hserde entry.toDocument).2 (by omega)
  have hdecode : decodeEntry referenceCrates (entryText referenceCrates entry) =
      .error reason := by
    have hparse : referenceCrates.serde.fromStr
        (entryText referenceCrates entry) = .error reason := hreject
    simp [decodeEntry, hparse, bind, Except.bind]
  obtain ⟨store, hstore⟩ := exists_segmented hrep rfl
  rw [hstore] at hrep
  cases hrep with
  | segmented _ _ dir file first count limit pos sorted =>
      rw [files_second, hseq] at dir sorted
      have hsmaller : (1 : UInt64) < 2 := by decide
      have hprune : pruneBefore referenceCrates store.dir 2 [] =
          (segmentDir [(2, entryLine referenceCrates entry)], .ok none) := by
        rw [dir, pruneBefore_pair hsmaller (UInt64.le_refl 2)]
        unfold anchorBefore
        rw [listSegments_segmentDir (by simp)]
        simp [readFile_entryLine, hdecode, Except.toOption]
      have hbefore : (listSegments store.dir).length = 2 := by
        rw [dir, listSegments_segmentDir sorted]
        rfl
      have hafter : (listSegments
          (pruneBefore referenceCrates store.dir 2 []).1).length = 1 := by
        rw [hprune, listSegments_segmentDir (by simp)]
        rfl
      cases hrecorded with
      | failed err reported => simp [hjournal] at reported
      | done reported head replies acked stale =>
          refine ⟨_, store, start_onSegments,
            maintained_firstStored.tail
              ⟨.log (.record deep (loginCall .synced)), rfl, rfl⟩,
            hstore, ?_, hbefore, hafter, by rw [hprune], ?_⟩
          · rw [acked, firstStored_spec.2.1]
            rfl
          · rintro ⟨deleted, survivors, hprunes⟩
            have hanchor := hprunes.anchor
            rw [hprune] at hanchor
            have hnone := anchorAfter_eq_none.mp (Except.ok.inj hanchor).symm
            have hsame := congrArg List.length (hprunes.deletes.mp hnone)
            rw [hafter, hbefore] at hsame
            omega

/-- In every orderly run whose entries parse back, pruning keeps the head of the
chain exactly if it leaves an entry. -/
theorem prune_keepsHead_iff (crates : Crates) {limit : ℕ} {s t : Engine}
    {store : SegmentedStore} (hstart : start crates (some limit) .missing = .ok s)
    (hrun : Maintained crates (Orderly crates) s t)
    (hstore : t.writer.store = .segmented store)
    (hparse : ∀ e ∈ t.acked, ParsesBack crates e)
    (hlength : t.acked.length + 1 < 2 ^ 64) (boundarySeq : UInt64) :
    store.dir.KeepsHead crates boundarySeq ↔
      store.dir.Spares crates boundarySeq := by
  obtain ⟨j, gone, groups, current, hretains⟩ :=
    retains_of_orderly hstart hrun hparse hlength
  exact hretains.keepsHead_iff hstore

theorem record_emptySegment :
    ∃ t store, Maintained referenceCrates (Orderly referenceCrates) onSegments
        t ∧
      t.writer.store = .segmented store ∧ t.acked = [firstLogin] ∧
      store.dir = segmentDir
        [(1, entryLine referenceCrates firstLogin), (2, [])] := by
  let call := loginCall (.writeFailed 0 "disk full")
  obtain ⟨entry, hnext, hseq, _, _, hrep, hrecorded⟩ :=
    record_firstStored alice rfl call
  have hjournal : firstSegment.append referenceCrates entry call.io =
      ((firstSegment.opened entry).extend [] 0, .error (.io "disk full")) := by
    simp [Journal.append, call, loginCall, WriteOutcome.written,
      WriteOutcome.counted, WriteOutcome.result, firstSegment, Journal.full]
  rw [hjournal] at hrep
  obtain ⟨store, hstore⟩ := exists_segmented hrep rfl
  rw [hstore] at hrep
  cases hrep with
  | segmented _ _ dir file first count limit pos sorted =>
      rw [files_second, hseq] at dir
      cases hrecorded with
      | done reported => simp [hjournal] at reported
      | failed err reported head replies acked stale =>
          have hfirst : Maintained referenceCrates (Orderly referenceCrates)
              onSegments firstStored :=
            .single ⟨.log (.record alice (loginCall .synced)), Or.inl rfl, rfl⟩
          have hwritten : ∀ e, firstStored.writer.nextEntry referenceCrates call
              alice = .ok e →
                firstStored.writer.store.written referenceCrates e call.io =
                  [] := by
            intro e _
            rw [firstStored_spec.1.written_eq]
            simp [Journal.written, call, loginCall, WriteOutcome.written]
          exact ⟨_, store,
            hfirst.tail ⟨.log (.record alice call), Or.inr hwritten, rfl⟩,
            hstore, acked.trans firstStored_spec.2.1, dir⟩

theorem prune_keepsHead_iff_emptySegment :
    ∃ t store, Maintained referenceCrates (Orderly referenceCrates) onSegments
        t ∧
      t.writer.store = .segmented store ∧ t.acked = [firstLogin] ∧
      (store.dir.KeepsHead referenceCrates 1 ↔
        store.dir.Spares referenceCrates 1) := by
  obtain ⟨t, store, hrun, hstore, hacked, _⟩ := record_emptySegment
  refine ⟨t, store, hrun, hstore, hacked, prune_keepsHead_iff referenceCrates
    start_onSegments hrun hstore ?_ ?_ 1⟩
  · rw [hacked]
    intro e he
    obtain rfl := List.mem_singleton.mp he
    exact parsesBack_of_plain rfl rfl
  · rw [hacked]
    show 1 + 1 < 2 ^ 64
    decide

/-- Behind an empty newest segment pruning deletes the only entry, returns no
anchor, and a store opened on what is left starts at genesis. -/
theorem prune_loses_head :
    ∃ t store, start referenceCrates (some 1) .missing = .ok onSegments ∧
      Maintained referenceCrates (Orderly referenceCrates) onSegments t ∧
      t.writer.store = .segmented store ∧ t.acked = [firstLogin] ∧
      readSegments referenceCrates (listSegments store.dir) =
        .ok [firstLogin] ∧
      readSegments referenceCrates
          (listSegments (pruneBefore referenceCrates store.dir 2 []).1) =
        .ok [] ∧
      (pruneBefore referenceCrates store.dir 2 []).2 = .ok none ∧
      (∃ u, start referenceCrates (some 1)
          (.directory (pruneBefore referenceCrates store.dir 2 []).1) = .ok u ∧
        u.writer.head = (0, genesisPrevHash)) ∧
      ¬store.dir.KeepsHead referenceCrates 2 := by
  obtain ⟨t, store, hrun, hstore, hacked, hdir⟩ := record_emptySegment
  have hparse : ParsesBack referenceCrates firstLogin :=
    parsesBack_of_plain rfl rfl
  have hsorted : ([((1 : UInt64), entryLine referenceCrates firstLogin),
      (2, [])].map Prod.fst).Pairwise (· < ·) := by
    simp only [List.map_cons, List.map_nil]
    decide
  have hlist := listSegments_segmentDir hsorted
  have hread : ReadsAs referenceCrates (entryLine referenceCrates firstLogin)
      [firstLogin] := by
    have hdecode : decodeEntry referenceCrates
        (entryText referenceCrates firstLogin) = .ok firstLogin := hparse
    rw [ReadsAs, readFile_entryLine, hdecode]
  have hspares : ¬store.dir.Spares referenceCrates 2 := by
    intro hspares
    rw [hdir] at hspares
    rcases hspares [_] _ hlist with hnil | hbehind | hne
    · cases hnil
    · exact absurd hbehind (UInt64.lt_irrefl 2)
    · exact hne rfl
  obtain ⟨j, gone, groups, current, hretains⟩ :=
    retains_of_orderly start_onSegments hrun
      (by
        rw [hacked]
        intro e he
        obtain rfl := List.mem_singleton.mp he
        exact hparse)
      (by
        rw [hacked]
        show 1 + 1 < 2 ^ 64
        decide)
  obtain ⟨_, hafter, hnone, hstarts⟩ := hretains.loses_all hstore hspares
  refine ⟨t, store, start_onSegments, hrun, hstore, hacked, ?_, hafter, hnone,
    hstarts 1 (Nat.le_refl 1), ?_⟩
  · rw [hdir]
    exact readSegments_segmentDir hsorted
      (.cons hread (.cons readsAs_nil .nil))
  · rw [hretains.keepsHead_iff hstore]
    exact hspares

end Engine

end Chainlog
