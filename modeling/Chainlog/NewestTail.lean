import Chainlog.Agreement
import Chainlog.CrashPoints

/-!
# The tail that a segmented store resumes from

`open` reads the last segment, and where that holds no entry it takes the last
entry of the newest segment that it can read.  A segment that it cannot read is
passed over like an empty one, so the tail is that of the newest segment with
an entry exactly if every unreadable segment has a newer one with an entry.
-/

namespace Chainlog

variable (crates : Crates)

theorem readLines_of_blank {pieces : List Bytes}
    (h : ∀ piece ∈ pieces,
      ∃ text, fromUtf8 piece = some text ∧ isBlank (stripLineEnd text)) :
    readLines crates pieces = .ok [] := by
  induction pieces with
  | nil => rfl
  | cons piece rest ih =>
      obtain ⟨⟨text, hutf, hblank⟩, hrest⟩ := List.forall_mem_cons.mp h
      simp [readLines, readLine, hutf, hblank, ih hrest]

theorem readFile_eq_nil_iff (node : FileNode) :
    readFile crates node = .ok [] ↔ BlankFile node := by
  constructor
  · exact readFile_eq_nil crates
  · intro h
    cases node with
    | readable content => exact readLines_of_blank crates h
    | unreadable reason => exact absurd h id

namespace SegmentFile

/-- The segment cannot be read, or not parsed. -/
def Damaged (segment : SegmentFile) : Prop :=
  ∃ err, readFile crates segment.node = .error err

def HoldsEntry (segment : SegmentFile) : Prop :=
  ∃ entries, readFile crates segment.node = .ok entries ∧ entries ≠ []

end SegmentFile

/-- The tail is that of the newest segment with a line that is not blank, and
none if there is no such segment. -/
inductive NewestTail : List SegmentFile → Option (UInt64 × String) → Prop where
  | none {segments : List SegmentFile}
      (blank : ∀ segment ∈ segments, BlankFile segment.node) :
      NewestTail segments none
  | found {before after : List SegmentFile} {segment : SegmentFile}
      {entries : List AuditEntry}
      (read : readFile crates segment.node = .ok entries)
      (nonempty : entries ≠ [])
      (blank : ∀ later ∈ after, BlankFile later.node) :
      NewestTail (before ++ segment :: after) (lastHead entries)

/-- Every damaged segment is followed by one that holds an entry. -/
def DamageCovered (segments : List SegmentFile) : Prop :=
  ∀ before damaged after, segments = before ++ damaged :: after →
    damaged.Damaged crates → ∃ later ∈ after, later.HoldsEntry crates

/-! ## The scan, from the newest segment down -/

theorem append_cons_eq_concat {α : Type} {before after items : List α}
    {x last : α} (h : before ++ x :: after = items ++ [last]) :
    (after = [] ∧ before = items ∧ x = last) ∨
      ∃ inner, after = inner ++ [last] ∧ items = before ++ x :: inner := by
  cases after using List.reverseRecOn with
  | nil =>
      obtain ⟨hitems, hlast⟩ := List.append_inj' h rfl
      exact Or.inl ⟨rfl, hitems, List.cons.inj hlast |>.1⟩
  | append_singleton inner y =>
      have hsplit : (before ++ x :: inner) ++ [y] = items ++ [last] := by
        simpa using h
      obtain ⟨hitems, hlast⟩ := List.append_inj' hsplit rfl
      exact Or.inr ⟨inner, by rw [hlast], hitems.symm⟩

section Snoc

variable {crates} {segments : List SegmentFile} {last : SegmentFile}
  {tail : Option (UInt64 × String)}

theorem not_newestTail_of_damaged (hlast : last.Damaged crates) :
    ¬NewestTail crates (segments ++ [last]) tail := by
  obtain ⟨err, herr⟩ := hlast
  have hnotBlank : ¬BlankFile last.node := by
    rw [← readFile_eq_nil_iff crates, herr]
    simp
  generalize hall : segments ++ [last] = all
  intro h
  cases h with
  | none blank => exact hnotBlank (blank last (by simp [← hall]))
  | found read nonempty blank =>
      rcases append_cons_eq_concat hall.symm with
        ⟨_, _, rfl⟩ | ⟨inner, rfl, _⟩
      · rw [herr] at read
        cases read
      · exact hnotBlank (blank last (by simp))

theorem newestTail_snoc_blank (hlast : BlankFile last.node) :
    NewestTail crates (segments ++ [last]) tail ↔
      NewestTail crates segments tail := by
  constructor
  · generalize hall : segments ++ [last] = all
    intro h
    cases h with
    | none blank =>
        exact .none fun segment hmem => blank segment (by
          rw [← hall]
          exact List.mem_append_left _ hmem)
    | found read nonempty blank =>
        rcases append_cons_eq_concat hall.symm with
          ⟨_, _, rfl⟩ | ⟨inner, rfl, rfl⟩
        · rw [(readFile_eq_nil_iff crates _).mpr hlast] at read
          exact absurd (Except.ok.inj read).symm nonempty
        · exact .found read nonempty fun later hmem =>
            blank later (List.mem_append_left _ hmem)
  · intro h
    cases h with
    | none blank =>
        refine .none fun segment hmem => ?_
        rcases List.mem_append.mp hmem with hold | hnew
        · exact blank segment hold
        · rw [List.mem_singleton.mp hnew]
          exact hlast
    | @found before after segment entries read nonempty blank =>
        rw [List.append_assoc, List.cons_append]
        refine .found read nonempty fun later hmem => ?_
        rcases List.mem_append.mp hmem with hold | hnew
        · exact blank later hold
        · rw [List.mem_singleton.mp hnew]
          exact hlast

theorem damageCovered_snoc_blank (hlast : BlankFile last.node) :
    DamageCovered crates (segments ++ [last]) ↔
      DamageCovered crates segments := by
  have hread := (readFile_eq_nil_iff crates _).mpr hlast
  constructor
  · rintro h before damaged after rfl hdamaged
    obtain ⟨later, hmem, hholds⟩ := h before damaged (after ++ [last])
      (by simp) hdamaged
    rcases List.mem_append.mp hmem with hold | hnew
    · exact ⟨later, hold, hholds⟩
    · obtain rfl := List.mem_singleton.mp hnew
      obtain ⟨entries, hentries, hne⟩ := hholds
      rw [hread] at hentries
      exact absurd (Except.ok.inj hentries).symm hne
  · intro h before damaged after hsplit hdamaged
    rcases append_cons_eq_concat hsplit.symm with
      ⟨_, _, rfl⟩ | ⟨inner, rfl, rfl⟩
    · obtain ⟨err, herr⟩ := hdamaged
      rw [hread] at herr
      cases herr
    · obtain ⟨later, hmem, hholds⟩ := h before damaged inner rfl hdamaged
      exact ⟨later, List.mem_append_left _ hmem, hholds⟩

end Snoc

/-- The scan is right about the newest entry exactly if all damage is
covered. -/
theorem newestTail_scanTail_iff (segments : List SegmentFile) :
    NewestTail crates segments (SegmentedStore.scanTail crates segments) ↔
      DamageCovered crates segments := by
  induction segments using List.reverseRecOn with
  | nil =>
      constructor
      · intro _ before damaged after hsplit
        simp at hsplit
      · intro _
        exact .none (by simp)
  | append_singleton segments last ih =>
      cases hread : readFile crates last.node with
      | error err =>
          rw [scanTail_snoc_error crates segments hread]
          have hdamaged : last.Damaged crates := ⟨err, hread⟩
          constructor
          · intro h
            exact absurd h (not_newestTail_of_damaged hdamaged)
          · intro h
            obtain ⟨later, hmem, _⟩ := h segments last [] rfl hdamaged
            cases hmem
      | ok entries =>
          rw [scanTail_snoc_ok crates segments hread]
          by_cases hnil : entries = []
          · subst hnil
            have hblank := readFile_eq_nil crates hread
            rw [newestTail_snoc_blank hblank, damageCovered_snoc_blank hblank]
            exact ih
          · have hholds : last.HoldsEntry crates := ⟨entries, hread, hnil⟩
            constructor
            · intro _ before damaged after hsplit hdamaged
              rcases append_cons_eq_concat hsplit.symm with
                ⟨_, _, rfl⟩ | ⟨inner, rfl, _⟩
              · obtain ⟨err, herr⟩ := hdamaged
                rw [hread] at herr
                cases herr
              · exact ⟨last, by simp, hholds⟩
            · intro _
              rw [lastHead_or_of_ne_nil hnil]
              exact .found hread hnil (by simp)

/-! ## Opening -/

namespace SegmentedStore

theorem cachedTail_of_openPath {dir : Dir} {maxEntries : ℕ}
    {store : SegmentedStore}
    (hopen : openPath crates maxEntries (.directory dir) = .ok store) :
    store.cachedTail = scanTail crates (listSegments dir) := by
  obtain ⟨_, _, _, _, hresume⟩ := openPath_directory_eq_ok crates hopen
  cases hsegments : listSegments dir using List.reverseRecOn with
  | nil =>
      rw [hsegments] at hresume
      have hnone := congrArg (fun found => found.2.2) (Except.ok.inj hresume)
      exact hnone.symm
  | append_singleton segments last =>
      rw [hsegments] at hresume
      cases hlast : readFile crates last.node with
      | error err => simp [resume, hlast, bind, Except.bind] at hresume
      | ok after =>
          rw [resume_snoc crates segments hlast] at hresume
          have htail : (lastHead after).or
              (scanTail crates (segments ++ [last])) = store.cachedTail :=
            congrArg (fun found => found.2.2) (Except.ok.inj hresume)
          rw [← htail, scanTail_snoc_ok crates segments hlast,
            ← Option.or_assoc, Option.or_self]

/-- For every directory that `open` accepts: the tail is that of the newest
segment with a line that is not blank exactly if every segment that cannot be
read or parsed has a newer one with an entry. -/
theorem openPath_tail_newest_iff {dir : Dir} {maxEntries : ℕ}
    {store : SegmentedStore}
    (hopen : openPath crates maxEntries (.directory dir) = .ok store) :
    NewestTail crates (listSegments dir) store.cachedTail ↔
      DamageCovered crates (listSegments dir) := by
  rw [cachedTail_of_openPath crates hopen]
  exact newestTail_scanTail_iff crates (listSegments dir)

theorem readFile_cons_ff (rest : Bytes) :
    ∃ err, readFile crates (.readable (0xFF :: rest)) = .error err := by
  obtain ⟨piece, others, hpieces, tail, rfl⟩ :=
    Lines.pieces_cons newline 0xFF rest
  exact ⟨.io "stream did not contain valid UTF-8", by
    rw [readFile, hpieces, readLines, readLine, fromUtf8_cons_ff]⟩

/-- Three segments; the first byte of the second is overwritten. -/
noncomputable def damagedJournal (last : Bytes) : Journal where
  closed := [
    (1, entryLine referenceCrates (referenceEntry 1 none genesisPrevHash)),
    (2, 0xFF :: (entryLine referenceCrates (referenceEntry 2 none
      (referenceEntry 1 none genesisPrevHash).entryHash)).tail)]
  first := 3
  content := last
  count := 1
  limit := some 1

theorem listSegments_damagedJournal (last : Bytes) :
    listSegments (segmentDir (damagedJournal last).files) =
      (damagedJournal last).closedSegments ++
        [(damagedJournal last).openSegment] :=
  Journal.listSegments_files (by simp [damagedJournal, Journal.files])

theorem closedSegments_damagedJournal (last : Bytes) :
    ∃ first second : SegmentFile,
      (damagedJournal last).closedSegments = [first] ++ [second] ∧
      readFile referenceCrates first.node =
        .ok [referenceEntry 1 none genesisPrevHash] ∧
      second.Damaged referenceCrates := by
  have hfirst : readFile referenceCrates (.readable (entryLine referenceCrates
      (referenceEntry 1 none genesisPrevHash))) =
        .ok [referenceEntry 1 none genesisPrevHash] := by
    rw [readFile_entryLine, Engine.parsesBack_of_plain rfl rfl]
  exact ⟨⟨1, segmentName 1, _⟩, ⟨2, segmentName 2, _⟩, rfl, hfirst,
    readFile_cons_ff referenceCrates _⟩

theorem openPath_damagedJournal (last : Bytes) {entries : List AuditEntry}
    (hlast : readFile referenceCrates (.readable last) = .ok entries) :
    ∃ store, openPath referenceCrates 1
      (.directory (segmentDir (damagedJournal last).files)) = .ok store := by
  have hfind : (segmentDir (damagedJournal last).files).find (segmentName 3) =
      some (.readable last) :=
    find_segmentDir_snoc (by simp [damagedJournal]) last
  have hopenSegment : readFile referenceCrates
      (damagedJournal last).openSegment.node = .ok entries := hlast
  have hresume := resume_snoc referenceCrates
    (damagedJournal last).closedSegments hopenSegment
  have hfirst : (damagedJournal last).openSegment.first = 3 := rfl
  simp only [openPath, listSegments_damagedJournal, hresume, hfirst, hfind,
    openAppend, bind, Except.bind, pure, Except.pure]
  exact ⟨_, rfl⟩

/-- The last segment holds an entry: the damage behind it does no harm. -/
theorem openPath_tail_newest_iff_covered :
    let last := entryLine referenceCrates (referenceEntry 3 none genesisPrevHash)
    ∃ store, openPath referenceCrates 1
        (.directory (segmentDir (damagedJournal last).files)) = .ok store ∧
      NewestTail referenceCrates
        (listSegments (segmentDir (damagedJournal last).files))
        store.cachedTail := by
  intro last
  have hline : readFile referenceCrates (.readable last) =
      .ok [referenceEntry 3 none genesisPrevHash] := by
    rw [readFile_entryLine, Engine.parsesBack_of_plain rfl rfl]
  obtain ⟨store, hopen⟩ := openPath_damagedJournal last hline
  refine ⟨store, hopen, (openPath_tail_newest_iff referenceCrates hopen).mpr ?_⟩
  rw [listSegments_damagedJournal]
  intro before damaged after hsplit hdamaged
  rcases append_cons_eq_concat hsplit.symm with
    ⟨_, _, rfl⟩ | ⟨inner, rfl, _⟩
  · obtain ⟨err, herr⟩ := hdamaged
    exact absurd (hline.symm.trans herr) (by simp)
  · exact ⟨(damagedJournal last).openSegment,
      List.mem_append_right _ List.mem_cons_self, _, hline, by simp⟩

/-- With an empty last segment the store resumes after entry 1, although the
second segment holds a line. -/
theorem open_resumes_stale_tail :
    ∃ store, openPath referenceCrates 1
        (.directory (segmentDir (damagedJournal []).files)) = .ok store ∧
      store.cachedTail =
        some (1, (referenceEntry 1 none genesisPrevHash).entryHash) ∧
      ¬NewestTail referenceCrates
        (listSegments (segmentDir (damagedJournal []).files))
        store.cachedTail := by
  have hempty : readFile referenceCrates
      (damagedJournal []).openSegment.node = .ok [] := rfl
  obtain ⟨first, second, hclosed, hfirst, hdamaged⟩ :=
    closedSegments_damagedJournal []
  obtain ⟨store, hopen⟩ := openPath_damagedJournal [] hempty
  have htail := cachedTail_of_openPath referenceCrates hopen
  rw [listSegments_damagedJournal, hclosed] at htail ⊢
  refine ⟨store, hopen, ?_, ?_⟩
  · obtain ⟨err, herr⟩ := hdamaged
    rw [htail, scanTail_snoc_ok referenceCrates _ hempty,
      scanTail_snoc_error referenceCrates _ herr, ← List.nil_append [first],
      scanTail_snoc_ok referenceCrates _ hfirst]
    rfl
  · rw [htail, newestTail_scanTail_iff]
    intro hcovered
    obtain ⟨later, hmem, entries, hread, hne⟩ :=
      hcovered [first] second [_] (List.append_assoc _ _ _) hdamaged
    obtain rfl := List.mem_singleton.mp hmem
    exact hne (Except.ok.inj (hread.symm.trans hempty))

end SegmentedStore

end Chainlog
