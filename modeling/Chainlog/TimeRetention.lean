import Chainlog.PrunedLogs
import Chainlog.WrittenLogs

/-!
# Retention by age

`prune_before_timestamp` looks for the first entry that is young enough and
prunes before its number.  No entry at or behind it is deleted, in whatever
order the timestamps are.  Where no entry is young it deletes nothing, however
many old segments there are.
-/

namespace Chainlog

variable (crates : Crates)

/-- Convenience: prune everything strictly older than `cutoffMs` (Unix millis),
based on entry timestamps. -/
def pruneBeforeTimestamp (dir : Dir) (cutoffMs : Int64)
    (removals : List (Option String)) : Dir × Result (Option Anchor) :=
  match readAllSegmented crates (.directory dir) with
  | .error err => (dir, .error err)
  | .ok entries =>
      let boundary := (entries.find? fun e => cutoffMs ≤ e.timestamp).map
        AuditEntry.seq
      match boundary with
      | some seq => pruneBefore crates dir seq removals
      | none => (dir, .ok none)

/-! ## Entries as they are stored -/

/-- The segment holds the entries, one line each. -/
def SegmentFile.Holds (segment : SegmentFile) (entries : List AuditEntry) :
    Prop :=
  segment.node = .readable (linesOf crates entries)

/-- The segments hold the groups, one after the other. -/
def Dir.HoldsGroups (dir : Dir) (groups : List (List AuditEntry)) : Prop :=
  List.Forall₂ (SegmentFile.Holds crates) (listSegments dir) groups

/-- The segments hold the entries. -/
def Dir.Stores (dir : Dir) (entries : List AuditEntry) : Prop :=
  ∃ groups, dir.HoldsGroups crates groups ∧ groups.flatten = entries

/-- The segment holds an entry that is young. -/
def SegmentFile.Young (cutoffMs : Int64) (segment : SegmentFile) : Prop :=
  ∃ entries, segment.Holds crates entries ∧
    ∃ e ∈ entries, cutoffMs ≤ e.timestamp

variable {crates} {limit : ℕ} {round : FloatBits → FloatBits}

theorem SegmentFile.Holds.unique (hprint : crates.serde.PrintsInjectively)
    {segment : SegmentFile} {entries others : List AuditEntry}
    (h : segment.Holds crates entries) (h' : segment.Holds crates others) :
    entries = others := by
  have hsame : linesOf crates entries = linesOf crates others :=
    FileNode.readable.inj (h.symm.trans h')
  have hread := readsAs_linesOf hprint entries
  rw [hsame] at hread
  exact Except.ok.inj (hread.symm.trans (readsAs_linesOf hprint others))

theorem young_iff_of_holds (hprint : crates.serde.PrintsInjectively)
    {segs : List SegmentFile} {groups : List (List AuditEntry)}
    (h : List.Forall₂ (SegmentFile.Holds crates) segs groups)
    (cutoffMs : Int64) :
    (∃ segment ∈ segs, segment.Young crates cutoffMs) ↔
      ∃ e ∈ groups.flatten, cutoffMs ≤ e.timestamp := by
  induction h with
  | nil => simp
  | @cons segment group segs groups hfirst _ ih =>
      have hyoung : segment.Young crates cutoffMs ↔
          ∃ e ∈ group, cutoffMs ≤ e.timestamp := by
        constructor
        · rintro ⟨entries, hholds, hsome⟩
          rwa [hholds.unique hprint hfirst] at hsome
        · exact fun hsome => ⟨group, hfirst, hsome⟩
      simp only [List.mem_cons, List.flatten_cons, List.mem_append, or_and_right,
        exists_or, exists_eq_left]
      rw [ih, hyoung]

theorem readSegments_of_holds
    (hserde : crates.serde.InvertsUpToFloats limit round)
    {segs : List SegmentFile} {groups : List (List AuditEntry)}
    (hholds : List.Forall₂ (SegmentFile.Holds crates) segs groups) :
    ((∀ e ∈ groups.flatten, e.FitsBelow limit) →
      readSegments crates segs =
        .ok (groups.flatten.map (AuditEntry.reload round))) ∧
    (∀ read, readSegments crates segs = .ok read →
      ∀ e ∈ groups.flatten, e.FitsBelow limit) := by
  induction hholds with
  | nil => exact ⟨fun _ => rfl, fun _ _ e he => absurd he List.not_mem_nil⟩
  | @cons segment group segs groups hfirst _ ih =>
      obtain ⟨hall, hfitAll⟩ := ih
      obtain ⟨hread, hfit⟩ := readFile_linesOf hserde group
      have hnode : segment.node = .readable (linesOf crates group) := hfirst
      rw [readSegments, hnode, List.flatten_cons]
      constructor
      · intro hfits
        rw [hread fun e he => hfits e (List.mem_append_left _ he),
          hall fun e he => hfits e (List.mem_append_right _ he)]
        simp [Except.map]
      · intro read hok e he
        cases hfound : readFile crates (.readable (linesOf crates group)) with
        | error err => simp [hfound] at hok
        | ok found =>
            cases hrest : readSegments crates segs with
            | error err => simp [hfound, hrest, Except.map] at hok
            | ok rest =>
                rcases List.mem_append.mp he with hin | hin
                · exact hfit found hfound e hin
                · exact hfitAll rest hrest e hin

theorem contents_eq_linesOf (hprint : crates.serde.PrintsInjectively)
    {contents : List Bytes} {groups : List (List AuditEntry)}
    (hread : List.Forall₂ (ReadsAs crates.exact) contents groups)
    (hwritten : ∀ content ∈ contents,
      ∃ entries, content = linesOf crates entries) :
    contents = groups.map (linesOf crates) := by
  induction hread with
  | nil => rfl
  | cons hfirst _ ih =>
      rw [List.map_cons,
        eq_linesOf hprint hfirst (hwritten _ List.mem_cons_self),
        ih fun content hcontent =>
          hwritten content (List.mem_cons_of_mem _ hcontent)]

/-- The first part of a row holds an item of it or ends before the item. -/
theorem mem_or_prefix_of_split {α : Type} {part others front rest : List α}
    {item : α} (h : part ++ others = front ++ item :: rest) :
    item ∈ part ∨ part <+: front := by
  rcases List.append_eq_append_iff.mp h with
    ⟨left, hleft, _⟩ | ⟨right, hright, hrest⟩
  · exact Or.inr ⟨left, hleft.symm⟩
  · cases right with
    | nil => exact Or.inr ⟨[], by rw [hright]; simp⟩
    | cons first right =>
        obtain rfl : item = first := by simpa using congrArg List.head? hrest
        exact Or.inl (by rw [hright]; simp)

namespace Engine.Wrote

variable {s : Engine} {j : Journal} {gone current : List AuditEntry}
  {groups : List (List AuditEntry)} {store : SegmentedStore}

theorem holdsGroups (h : s.Wrote crates j gone groups current)
    (hprint : crates.serde.PrintsInjectively)
    (hstore : s.writer.store = .segmented store) :
    store.dir.HoldsGroups crates (groups ++ [current]) := by
  obtain ⟨hdir, hsorted⟩ := h.retains.sorted hstore
  have hread : List.Forall₂ (ReadsAs crates.exact) (j.files.map Prod.snd)
      (groups ++ [current]) := by
    rw [Journal.files, List.map_append]
    exact List.rel_append h.retains.divides.closed
      (.cons h.retains.divides.current .nil)
  have hcontents := contents_eq_linesOf hprint hread h.written
  rw [Dir.HoldsGroups, hdir, listSegments_segmentDir hsorted]
  apply List.forall₂_map_left_iff.mpr
  have hfiles : List.Forall₂ (fun (file : UInt64 × Bytes) group =>
      file.2 = linesOf crates group) j.files (groups ++ [current]) := by
    rw [← List.forall₂_map_left_iff (f := Prod.snd)
      (R := fun content group => content = linesOf crates group), hcontents,
      List.forall₂_map_left_iff, List.forall₂_same]
    exact fun group _ => rfl
  exact hfiles.imp fun file group hcontent => congrArg FileNode.readable hcontent

theorem prune_store (hstore : s.writer.store = .segmented store)
    (boundarySeq : UInt64) (removals : List (Option String)) :
    (s.prune crates boundarySeq removals).writer.store = .segmented
      { store with
        dir := (pruneBefore crates store.dir boundarySeq removals).1 } := by
  unfold Engine.prune
  rw [hstore]
  rfl

theorem result_exact {boundarySeq : UInt64} {removals : List (Option String)}
    {k : ℕ} (hpruned : (s.prune crates boundarySeq removals).Wrote crates
      (j.drop k) (gone ++ (groups.take k).flatten) (groups.drop k) current)
    (hprint : crates.serde.PrintsInjectively)
    (hserde : crates.serde.InvertsUpToFloats limit round)
    (hstore : s.writer.store = .segmented store)
    (hfits : ∀ e ∈ groups.flatten ++ current, e.FitsBelow limit) :
    (pruneBefore crates.exact store.dir boundarySeq removals).2 =
      (pruneBefore crates store.dir boundarySeq removals).2 := by
  apply (pruneBefore_exact store.dir boundarySeq removals).2
  have hholds := hpruned.holdsGroups hprint
    (prune_store hstore boundarySeq removals)
  obtain ⟨first, others, hgroups⟩ := List.exists_cons_of_ne_nil
    (show groups.drop k ++ [current] ≠ [] by simp)
  rw [Dir.HoldsGroups, hgroups, List.forall₂_cons_right_iff] at hholds
  obtain ⟨segment, segs, hfirst, _, hlist⟩ := hholds
  apply anchorBefore_exact hprint hserde hlist hfirst
  intro e he
  have hkept : e ∈ (groups.drop k ++ [current]).flatten := by
    rw [hgroups, List.flatten_cons]
    exact List.mem_append_left _ he
  rw [List.flatten_append, List.flatten_singleton, List.mem_append] at hkept
  apply hfits
  rcases hkept with hin | hin
  · rw [← List.take_append_drop k groups, List.flatten_append, List.append_assoc]
    exact List.mem_append_right _ (List.mem_append_left _ hin)
  · exact List.mem_append_right _ hin

theorem seq_lt_of_front (h : s.Wrote crates j gone groups current)
    {front rest : List AuditEntry} {young : AuditEntry}
    (hsplit : groups.flatten ++ current = front ++ young :: rest) :
    ∀ e ∈ front, e.seq < young.seq := by
  intro e he
  have hchain := h.retains.chain
  have hlength := h.retains.length
  rw [h.retains.acked, hsplit, ← List.append_assoc] at hchain hlength
  have hyoung := toNat_seq_of_mem hchain (by omega)
    (List.mem_cons_self (a := young) (l := rest))
  have hfront := (follows_append_anchorAfter.mp hchain).1
  rw [List.length_append] at hlength
  have hle := @toNat_seq_of_mem crates.exact [] (gone ++ front) hfront
    (by rw [List.nil_append]; omega) e (List.mem_append_right gone he)
  rw [List.nil_append] at hle
  rw [UInt64.lt_iff_toNat_lt]
  omega

/-- Pruning before the number of an entry takes entries in front of it only.
Where it succeeds, the first file that is left holds the entry or is the
newest. -/
theorem prune_at (h : s.Wrote crates j gone groups current)
    (hprint : crates.serde.PrintsInjectively)
    (hserde : crates.serde.InvertsUpToFloats limit round)
    (hstore : s.writer.store = .segmented store)
    (hfits : ∀ e ∈ groups.flatten ++ current, e.FitsBelow limit)
    {front rest : List AuditEntry} {young : AuditEntry}
    (hsplit : groups.flatten ++ current = front ++ young :: rest)
    (removals : List (Option String)) :
    ∃ k, k ≤ groups.length ∧
      (s.prune crates young.seq removals).Wrote crates (j.drop k)
        (gone ++ (groups.take k).flatten) (groups.drop k) current ∧
      (groups.take k).flatten <+: front ∧
      (∀ result, (pruneBefore crates store.dir young.seq removals).2 =
          .ok result →
        (∀ group others, groups.drop k = group :: others → young ∈ group) ∧
          result = anchorAfter (groups.take k).flatten) ∧
      ((∀ removal ∈ removals, removal = none) → ∃ result,
        (pruneBefore crates store.dir young.seq removals).2 = .ok result) := by
  obtain ⟨k, hk, hpruned, hbelow, hok, htotal⟩ :=
    h.prune hstore young.seq removals
  rw [hpruned.result_exact hprint hserde hstore hfits] at hok htotal
  have hcut : (groups.take k).flatten ++ ((groups.drop k).flatten ++ current) =
      front ++ young :: rest := by
    rw [← hsplit, ← List.append_assoc, ← List.flatten_append,
      List.take_append_drop]
  have hfront : (groups.take k).flatten <+: front :=
    (mem_or_prefix_of_split hcut).resolve_left fun hin =>
      absurd (hbelow young hin) (UInt64.lt_irrefl _)
  refine ⟨k, hk, hpruned, hfront, fun result hresult => ?_, htotal⟩
  obtain ⟨hreach, hanchor⟩ := hok result hresult
  refine ⟨fun group others hdrop => ?_, hanchor⟩
  obtain ⟨left, hleft⟩ := hfront
  rw [← hleft, List.append_assoc, List.append_right_inj, hdrop,
    List.flatten_cons, List.append_assoc] at hcut
  rcases mem_or_prefix_of_split hcut with hin | hbefore
  · exact hin
  · -- the whole group would be in front of the entry, and not reach it
    obtain ⟨e, he, hle⟩ := hreach group (by rw [hdrop]; exact List.mem_cons_self)
    have hin : e ∈ front := by
      rw [← hleft]
      exact List.mem_append_right _ (hbefore.subset he)
    exact absurd (UInt64.lt_of_lt_of_le (h.seq_lt_of_front hsplit e hin) hle)
      (UInt64.lt_irrefl _)

/-- What is read of the whole log is what was written, up to the floats. -/
theorem readAllSegmented (h : s.Wrote crates j gone groups current)
    (hprint : crates.serde.PrintsInjectively)
    (hserde : crates.serde.InvertsUpToFloats limit round)
    (hstore : s.writer.store = .segmented store) {read : List AuditEntry} :
    Chainlog.readAllSegmented crates (.directory store.dir) = .ok read ↔
      (∀ e ∈ groups.flatten ++ current, e.FitsBelow limit) ∧
        read = (groups.flatten ++ current).map (AuditEntry.reload round) := by
  obtain ⟨hall, hfit⟩ :=
    readSegments_of_holds hserde (h.holdsGroups hprint hstore)
  rw [List.flatten_append, List.flatten_singleton] at hall hfit
  constructor
  · intro hread
    have hfits := hfit read hread
    exact ⟨hfits, Except.ok.inj (hread.symm.trans (hall hfits))⟩
  · rintro ⟨hfits, rfl⟩
    exact hall hfits

/-- The three ways of pruning by age: the log cannot be read, it has no young
entry, or it is pruned at the first one. -/
theorem pruneBeforeTimestamp_cases (h : s.Wrote crates j gone groups current)
    (hprint : crates.serde.PrintsInjectively)
    (hserde : crates.serde.InvertsUpToFloats limit round)
    (hstore : s.writer.store = .segmented store) (cutoffMs : Int64)
    (removals : List (Option String)) :
    ((¬∃ read, Chainlog.readAllSegmented crates (.directory store.dir) =
          .ok read) ∧
        ∃ err, pruneBeforeTimestamp crates store.dir cutoffMs removals =
          (store.dir, .error err)) ∨
      (∀ e ∈ groups.flatten ++ current, e.FitsBelow limit) ∧
        ((∀ e ∈ groups.flatten ++ current, e.timestamp < cutoffMs) ∧
            pruneBeforeTimestamp crates store.dir cutoffMs removals =
              (store.dir, .ok none) ∨
          ∃ front young rest,
            groups.flatten ++ current = front ++ young :: rest ∧
              (∀ e ∈ front, e.timestamp < cutoffMs) ∧
              cutoffMs ≤ young.timestamp ∧
              pruneBeforeTimestamp crates store.dir cutoffMs removals =
                pruneBefore crates store.dir young.seq removals) := by
  unfold pruneBeforeTimestamp
  cases hfound : Chainlog.readAllSegmented crates (.directory store.dir) with
  | error err => exact Or.inl ⟨by simp, err, rfl⟩
  | ok read =>
      obtain ⟨hfits, rfl⟩ :=
        (h.readAllSegmented hprint hserde hstore).mp hfound
      refine Or.inr ⟨hfits, ?_⟩
      have hboundary : ((((groups.flatten ++ current).map
          (AuditEntry.reload round)).find? fun e => cutoffMs ≤ e.timestamp).map
            AuditEntry.seq) =
          ((groups.flatten ++ current).find? fun e =>
            cutoffMs ≤ e.timestamp).map AuditEntry.seq := by
        rw [List.find?_map, Option.map_map]
        rfl
      simp only [hboundary]
      cases hfind : (groups.flatten ++ current).find? fun e =>
          decide (cutoffMs ≤ e.timestamp) with
      | none =>
          refine Or.inl ⟨fun e he => ?_, rfl⟩
          simpa [Int64.not_le] using List.find?_eq_none.mp hfind e he
      | some young =>
          obtain ⟨hyoung, front, rest, hsplit, hfront⟩ :=
            List.find?_eq_some_iff_append.mp hfind
          refine Or.inr ⟨front, young, rest, hsplit, fun e he => ?_,
            of_decide_eq_true hyoung, rfl⟩
          simpa [Int64.not_le] using hfront e he

theorem drop_zero (h : s.Wrote crates j gone groups current) :
    s.Wrote crates (j.drop 0) (gone ++ (groups.take 0).flatten) (groups.drop 0)
      current := by
  simpa [Journal.drop] using h

/-- Pruning by age takes the first files, none of them with a young entry or
behind one.  Where it succeeds and the log can be read, the first file that is
left is young or the newest, unless no entry is young. -/
theorem prune_by_age (h : s.Wrote crates j gone groups current)
    (hprint : crates.serde.PrintsInjectively)
    (hserde : crates.serde.InvertsUpToFloats limit round)
    (hstore : s.writer.store = .segmented store) (cutoffMs : Int64)
    (removals : List (Option String)) :
    ∃ k, k ≤ groups.length ∧
      (∃ t : Engine, t.Wrote crates (j.drop k)
          (gone ++ (groups.take k).flatten) (groups.drop k) current ∧
        t.writer.store = .segmented
          { store with
            dir := (pruneBeforeTimestamp crates store.dir cutoffMs
              removals).1 }) ∧
      (∀ e ∈ (groups.take k).flatten, e.timestamp < cutoffMs) ∧
      (∀ front young rest, groups.flatten ++ current = front ++ young :: rest →
        cutoffMs ≤ young.timestamp → (groups.take k).flatten <+: front) ∧
      (∀ result, (pruneBeforeTimestamp crates store.dir cutoffMs removals).2 =
        .ok result → result = anchorAfter (groups.take k).flatten) ∧
      ((∀ e ∈ groups.flatten ++ current, e.timestamp < cutoffMs) ∨
          (¬∃ read, Chainlog.readAllSegmented crates (.directory store.dir) =
            .ok read) → k = 0) ∧
      ((∀ removal ∈ removals, removal = none) →
        (∀ err, (pruneBeforeTimestamp crates store.dir cutoffMs removals).2 =
          .error err → k = 0) ∧
        ∀ group others, groups.drop k = group :: others →
          (∃ e ∈ group, cutoffMs ≤ e.timestamp) ∨ k = 0 ∧
            ((∀ e ∈ groups.flatten ++ current, e.timestamp < cutoffMs) ∨
              ¬∃ read, Chainlog.readAllSegmented crates
                (.directory store.dir) = .ok read)) := by
  rcases h.pruneBeforeTimestamp_cases hprint hserde hstore cutoffMs removals with
    ⟨hunread, err, heq⟩ | ⟨hfits, ⟨hold, heq⟩ |
      ⟨front, young, rest, hsplit, hfront, hyoung, heq⟩⟩
  · rw [heq]
    exact ⟨0, Nat.zero_le _, ⟨s, h.drop_zero, hstore⟩,
      fun _ he => absurd he List.not_mem_nil,
      fun _ _ _ _ _ => List.nil_prefix, nofun, fun _ => rfl,
      fun _ => ⟨fun _ _ => rfl, fun _ _ _ => Or.inr ⟨rfl, Or.inr hunread⟩⟩⟩
  · rw [heq]
    exact ⟨0, Nat.zero_le _, ⟨s, h.drop_zero, hstore⟩,
      fun _ he => absurd he List.not_mem_nil,
      fun _ _ _ _ _ => List.nil_prefix, fun _ hok => (Except.ok.inj hok).symm,
      fun _ => rfl,
      fun _ => ⟨nofun, fun _ _ _ => Or.inr ⟨rfl, Or.inl hold⟩⟩⟩
  · obtain ⟨k, hk, hpruned, hdeleted, hok, htotal⟩ :=
      h.prune_at hprint hserde hstore hfits hsplit removals
    rw [heq]
    refine ⟨k, hk, ⟨_, hpruned, prune_store hstore _ _⟩,
      fun e he => hfront e (hdeleted.subset he), ?_,
      fun result hresult => (hok result hresult).2, ?_,
      fun hall => ⟨?_, ?_⟩⟩
    · intro front' young' rest' hsplit' hyoung'
      refine hdeleted.trans ((mem_or_prefix_of_split
        (hsplit.symm.trans hsplit')).resolve_left fun hin => ?_)
      exact absurd (hfront young' hin) (Int64.not_lt.mpr hyoung')
    · rintro (hold | hunread)
      · exact absurd (hold young (by rw [hsplit]; simp))
          (Int64.not_lt.mpr hyoung)
      · exact absurd ⟨_, (h.readAllSegmented hprint hserde hstore).mpr
          ⟨hfits, rfl⟩⟩ hunread
    · intro err herr
      obtain ⟨result, hresult⟩ := htotal hall
      rw [hresult] at herr
      cases herr
    · intro group others hdrop
      obtain ⟨result, hresult⟩ := htotal hall
      exact Or.inl ⟨young, (hok result hresult).1 group others hdrop, hyoung⟩

theorem deleted_old (h : s.Wrote crates j gone groups current)
    (hprint : crates.serde.PrintsInjectively)
    (hserde : crates.serde.InvertsUpToFloats limit round)
    (hstore : s.writer.store = .segmented store) (cutoffMs : Int64)
    (removals : List (Option String)) {segment : SegmentFile}
    (hbefore : segment ∈ listSegments store.dir)
    (hafter : segment ∉ listSegments
      (pruneBeforeTimestamp crates store.dir cutoffMs removals).1)
    {entries : List AuditEntry} (hholds : segment.Holds crates entries) :
    ∀ e ∈ entries, e.timestamp < cutoffMs := by
  obtain ⟨k, hk, ⟨t, hkept, ht⟩, hold, _⟩ :=
    h.prune_by_age hprint hserde hstore cutoffMs removals
  obtain ⟨hdir, hsorted⟩ := h.retains.sorted hstore
  obtain ⟨hdir', hsorted'⟩ := hkept.retains.sorted ht
  have hdir' : (pruneBeforeTimestamp crates store.dir cutoffMs removals).1 =
      segmentDir (j.drop k).files := hdir'
  have hleft : listSegments
      (pruneBeforeTimestamp crates store.dir cutoffMs removals).1 =
        (listSegments store.dir).drop k := by
    rw [hdir', hdir, listSegments_segmentDir hsorted,
      listSegments_segmentDir hsorted',
      Journal.files_drop (h.retains.divides.length_closed ▸ hk), List.map_drop]
  rw [← List.take_append_drop k (listSegments store.dir), ← hleft,
    List.mem_append] at hbefore
  have htaken := List.forall₂_take k (h.holdsGroups hprint hstore)
  rw [List.take_append_of_le_length hk] at htaken
  have hyoung := young_iff_of_holds hprint htaken cutoffMs
  intro e he
  rw [← Int64.not_le]
  intro hle
  obtain ⟨other, hother, hle⟩ := hyoung.mp
    ⟨segment, hbefore.resolve_right hafter, entries, hholds, e, he, hle⟩
  exact absurd (hold other hother) (Int64.not_lt.mpr hle)

end Engine.Wrote

theorem readAllSegmented_pair {dir : Dir} {segment next : SegmentFile}
    {first second : AuditEntry} (hlist : listSegments dir = [segment, next])
    (hnode : segment.node = .readable (entryLine crates first))
    (hnext : next.node = .readable (entryLine crates second))
    (hfirst : ParsesBack crates first) (hsecond : ParsesBack crates second) :
    readAllSegmented crates (.directory dir) = .ok [first, second] := by
  unfold ParsesBack at hfirst hsecond
  simp [readAllSegmented, hlist, readSegments, hnode, hnext,
    readFile_entryLine, hfirst, hsecond, Except.map]

/-! ## Two logins, the second at a given time -/

namespace Engine

def loginAt (now : Int64) : Call := { loginCall .synced with now }

theorem record_later (now : Int64) :
    ∃ t store entry, Maintained referenceCrates Steady onSegments t ∧
      t.writer.store = .segmented store ∧ t.acked = [firstLogin, entry] ∧
      entry.seq = 2 ∧ entry.timestamp = now ∧
      ParsesBack referenceCrates entry ∧
      store.dir = segmentDir [(1, entryLine referenceCrates firstLogin),
        (2, entryLine referenceCrates entry)] := by
  obtain ⟨entry, hnext, hseq, hdata, hpii, hrep, hrecorded⟩ :=
    record_firstStored alice rfl (loginAt now)
  have hsealed : firstStored.writer.nextEntry referenceCrates (loginAt now)
      alice = .ok (sealEntry referenceCrates firstStored.writer.seq
        firstStored.writer.prevHash (loginAt now) alice none) := rfl
  have htime : entry.timestamp = now := by
    rw [Except.ok.inj (hnext.symm.trans hsealed)]
    rfl
  have hjournal := firstSegment.append_ok referenceCrates entry
  have hio : (loginAt now).io = IoOutcome.ok := rfl
  rw [hio] at hrep hrecorded
  rw [hjournal] at hrep
  obtain ⟨store, hstore⟩ := exists_segmented hrep rfl
  rw [hstore] at hrep
  cases hrecorded with
  | failed err reported => simp [hjournal] at reported
  | done reported head replies acked stale =>
      rw [firstStored_spec.2.1] at acked
      cases hrep with
      | segmented _ _ dir =>
          rw [files_second, hseq] at dir
          exact ⟨_, store, entry,
            maintained_firstStored.tail
              ⟨.log (.record alice (loginAt now)), rfl, rfl⟩,
            hstore, acked, hseq, htime, parsesBack_of_plain hdata hpii, dir⟩

theorem listSegments_later {dir : Dir} {entry : AuditEntry}
    (hdir : dir = segmentDir [(1, entryLine referenceCrates firstLogin),
      (2, entryLine referenceCrates entry)]) :
    listSegments dir =
      [{ first := 1, name := segmentName 1
         node := .readable (entryLine referenceCrates firstLogin) },
       { first := 2, name := segmentName 2
         node := .readable (entryLine referenceCrates entry) }] := by
  have hsorted : ([((1 : UInt64), entryLine referenceCrates firstLogin),
      (2, entryLine referenceCrates entry)].map Prod.fst).Pairwise (· < ·) := by
    simp only [List.map_cons, List.map_nil]
    decide
  rw [hdir, listSegments_segmentDir hsorted]
  rfl

theorem readAllSegmented_later {dir : Dir} {entry : AuditEntry}
    (hdir : dir = segmentDir [(1, entryLine referenceCrates firstLogin),
      (2, entryLine referenceCrates entry)])
    (hparse : ParsesBack referenceCrates entry) :
    readAllSegmented referenceCrates (.directory dir) =
      .ok [firstLogin, entry] :=
  readAllSegmented_pair (listSegments_later hdir) rfl rfl
    (parsesBack_of_plain rfl rfl) hparse

end Engine

/-! ## No young entry is deleted -/

/-- What pruning by age must not do: the deleted entries are old and in front of
every young one, and what is left verifies from the anchor that is returned, or
from where the log did before. -/
structure Engine.SparesYoung (crates : Crates) (t : Engine) (dir : Dir)
    (cutoffMs : Int64) (removals : List (Option String))
    (gone deleted survivors : List AuditEntry) : Prop where
  acked : t.acked = gone ++ (deleted ++ survivors)
  before : dir.Stores crates (deleted ++ survivors)
  after : (pruneBeforeTimestamp crates dir cutoffMs removals).1.Stores crates
    survivors
  old : ∀ e ∈ deleted, e.timestamp < cutoffMs
  behind : ∀ front young rest, deleted ++ survivors = front ++ young :: rest →
    cutoffMs ≤ young.timestamp → young :: rest <:+ survivors
  anchor : ∀ result,
    (pruneBeforeTimestamp crates dir cutoffMs removals).2 = .ok result →
      result = anchorAfter deleted
  failed : (∀ removal ∈ removals, removal = none) → ∀ err,
    (pruneBeforeTimestamp crates dir cutoffMs removals).2 = .error err →
      deleted = []
  valid : (verifyEntriesFrom crates ((anchorAfter deleted).or (anchorAfter gone))
    survivors).isValid = true
  reread : ∀ start before,
    readAllSegmented crates (.directory dir) = .ok before →
      (verifyEntriesFrom crates start before).isValid = true →
        ∃ after, readAllSegmented crates (.directory
            (pruneBeforeTimestamp crates dir cutoffMs removals).1) =
              .ok after ∧
          (verifyEntriesFrom crates ((anchorAfter deleted).or start)
            after).isValid = true

theorem anchorAfter_map_reload (entries : List AuditEntry) :
    anchorAfter (entries.map (AuditEntry.reload round)) =
      anchorAfter entries := by
  unfold anchorAfter
  rw [lastHead_map_reload]

variable (crates) in
theorem chainStart_anchorAfter_or (start : Option Anchor)
    (entries : List AuditEntry) :
    chainStart ((anchorAfter entries).or start) =
      (entryChain crates).finish (chainStart start) entries := by
  cases entries using List.reverseRecOn with
  | nil => rfl
  | append_singleton entries e =>
      rw [anchorAfter_snoc, HashChain.Shape.finish_append]
      rfl

/-- In every run without faults and for every cutoff, whatever the timestamps
are. -/
theorem pruneBeforeTimestamp_sparesYoung (crates : Crates)
    (hprint : crates.serde.PrintsInjectively) {limit : ℕ}
    {round : FloatBits → FloatBits}
    (hserde : crates.serde.InvertsUpToFloats limit round) {size : ℕ}
    {s t : Engine} {store : SegmentedStore}
    (hstart : Engine.start crates (some size) .missing = .ok s)
    (hrun : Engine.Maintained crates Engine.Steady s t)
    (hstore : t.writer.store = .segmented store)
    (hlength : t.acked.length + 1 < 2 ^ 64) (cutoffMs : Int64)
    (removals : List (Option String)) :
    ∃ gone deleted survivors,
      t.SparesYoung crates store.dir cutoffMs removals gone deleted survivors := by
  obtain ⟨j, gone, groups, current, hwrote⟩ :=
    Engine.wrote_of_steady hprint hserde hstart hrun hlength
  obtain ⟨k, hk, ⟨u, hkept, hafter⟩, hold, hfront, hanchor, _, hall⟩ :=
    hwrote.prune_by_age hprint hserde hstore cutoffMs removals
  have hcut : groups.flatten ++ current =
      (groups.take k).flatten ++ ((groups.drop k).flatten ++ current) := by
    rw [← List.append_assoc, ← List.flatten_append, List.take_append_drop]
  refine ⟨gone, (groups.take k).flatten, (groups.drop k).flatten ++ current, ?_⟩
  exact {
    acked := by rw [hwrote.retains.acked, hcut]
    before := ⟨_, hwrote.holdsGroups hprint hstore, by
      rw [← hcut, List.flatten_append, List.flatten_singleton]⟩
    after := ⟨_, hkept.holdsGroups hprint hafter, by
      rw [List.flatten_append, List.flatten_singleton]⟩
    old := hold
    behind := by
      intro front young rest hsplit hyoung
      obtain ⟨left, hleft⟩ := hfront front young rest (hcut.trans hsplit) hyoung
      rw [← hleft, List.append_assoc, List.append_right_inj] at hsplit
      exact ⟨left, hsplit.symm⟩
    anchor := hanchor
    failed := by
      intro hremovals err herr
      rw [(hall hremovals).1 err herr]
      rfl
    valid := by
      rw [verifyEntriesFrom_isValid, chainStart_anchorAfter_or crates,
        ← chainStart_anchorAfter_append crates]
      exact hkept.retains.divides.kept_chain
    reread := by
      intro start before hread hvalid
      obtain ⟨hfits, rfl⟩ :=
        (hwrote.readAllSegmented hprint hserde hstore).mp hread
      rw [hcut] at hfits hvalid
      refine ⟨_, (hkept.readAllSegmented hprint hserde hafter).mpr
        ⟨fun e he => hfits e (List.mem_append_right _ he), rfl⟩, ?_⟩
      rw [verifyEntriesFrom_isValid, List.map_append,
        HashChain.Shape.follows_append] at hvalid
      rw [verifyEntriesFrom_isValid, ← anchorAfter_map_reload,
        chainStart_anchorAfter_or crates]
      exact hvalid.2 }

theorem pruneBeforeTimestamp_sparesYoung_logins :
    ∃ t store gone deleted survivors,
      Engine.Maintained referenceCrates Engine.Steady Engine.onSegments t ∧
      t.writer.store = .segmented store ∧ t.acked.length = 2 ∧
      t.SparesYoung referenceCrates store.dir 5 [] gone deleted survivors := by
  obtain ⟨t, store, entry, hrun, hstore, hacked, _⟩ := Engine.record_later 5
  obtain ⟨gone, deleted, survivors, hspares⟩ :=
    pruneBeforeTimestamp_sparesYoung referenceCrates
      (referenceSerde_printsInjectively 127)
      (referenceSerde_invertsUpTo 127).floats Engine.start_onSegments hrun hstore
      (by rw [hacked]; simp) 5 []
  exact ⟨t, store, gone, deleted, survivors, hrun, hstore, by rw [hacked]; rfl,
    hspares⟩

/-! ## Old segments -/

/-- The first segment is the newest or holds an entry that is young. -/
def Dir.OldRetired (crates : Crates) (cutoffMs : Int64) (dir : Dir) : Prop :=
  ∀ segment rest, listSegments dir = segment :: rest →
    rest = [] ∨ segment.Young crates cutoffMs

/-- In a log of two segments or more, the old ones are retired exactly if the
first is young already, or some entry is young and the log can be read. -/
theorem pruneBeforeTimestamp_retires_iff (crates : Crates)
    (hprint : crates.serde.PrintsInjectively) {limit : ℕ}
    {round : FloatBits → FloatBits}
    (hserde : crates.serde.InvertsUpToFloats limit round) {size : ℕ}
    {s t : Engine} {store : SegmentedStore}
    (hstart : Engine.start crates (some size) .missing = .ok s)
    (hrun : Engine.Maintained crates Engine.Steady s t)
    (hstore : t.writer.store = .segmented store)
    (hlength : t.acked.length + 1 < 2 ^ 64)
    (htwo : 2 ≤ (listSegments store.dir).length) (cutoffMs : Int64)
    {removals : List (Option String)}
    (hremovals : ∀ removal ∈ removals, removal = none) :
    (pruneBeforeTimestamp crates store.dir cutoffMs removals).1.OldRetired
        crates cutoffMs ↔
      (∃ first ∈ (listSegments store.dir).head?, first.Young crates cutoffMs) ∨
      (∃ segment ∈ listSegments store.dir, segment.Young crates cutoffMs) ∧
        ∃ read, readAllSegmented crates (.directory store.dir) = .ok read := by
  obtain ⟨j, gone, groups, current, hwrote⟩ :=
    Engine.wrote_of_steady hprint hserde hstart hrun hlength
  have hholds := hwrote.holdsGroups hprint hstore
  have hyoung := young_iff_of_holds hprint hholds cutoffMs
  rw [List.flatten_append, List.flatten_singleton] at hyoung
  obtain ⟨k, hk, ⟨u, hkept, hafter⟩, _, _, _, hstays, hall⟩ :=
    hwrote.prune_by_age hprint hserde hstore cutoffMs removals
  have hleft := hkept.holdsGroups hprint hafter
  have hsame : k = 0 → listSegments
      (pruneBeforeTimestamp crates store.dir cutoffMs removals).1 =
        listSegments store.dir := by
    rintro rfl
    have hdir : (pruneBeforeTimestamp crates store.dir cutoffMs removals).1 =
        segmentDir (j.drop 0).files := (hkept.retains.sorted hafter).1
    rw [hdir, (hwrote.retains.sorted hstore).1]
    rfl
  constructor
  · intro hretired
    by_contra hneither
    rw [not_or] at hneither
    obtain ⟨hfirst, hnot⟩ := hneither
    have hnone : k = 0 := by
      apply hstays
      rw [not_and_or, hyoung] at hnot
      refine hnot.imp_left fun hold e he => ?_
      rw [← Int64.not_le]
      exact fun hle => hold ⟨e, he, hle⟩
    obtain ⟨first, rest, hlist⟩ := List.exists_cons_of_length_pos
      (show 0 < (listSegments store.dir).length by omega)
    rcases hretired first rest ((hsame hnone).trans hlist) with rfl | hyes
    · rw [hlist] at htwo
      simp at htwo
    · exact hfirst ⟨first, by rw [hlist]; rfl, hyes⟩
  · intro hcondition segment rest hlist
    unfold Dir.HoldsGroups at hleft
    rw [hlist, List.forall₂_cons_left_iff] at hleft
    obtain ⟨group, others, hsegment, hrest, hgroups⟩ := hleft
    cases hdrop : groups.drop k with
    | nil =>
        left
        rw [hdrop, List.nil_append, List.cons.injEq] at hgroups
        rw [← hgroups.2] at hrest
        exact List.forall₂_nil_right_iff.mp hrest
    | cons next remaining =>
        right
        rw [hdrop, List.cons_append, List.cons.injEq] at hgroups
        obtain ⟨rfl, _⟩ := hgroups
        rcases (hall hremovals).2 _ _ hdrop with hsome | ⟨hnone, hwhy⟩
        · exact ⟨_, hsegment, hsome⟩
        · rw [hsame hnone] at hlist
          rcases hcondition with ⟨first, hfirst, hyes⟩ | ⟨hsome, hread⟩
          · rw [hlist] at hfirst
            obtain rfl := Option.some.inj hfirst
            exact hyes
          · obtain ⟨e, he, hle⟩ := hyoung.mp hsome
            rcases hwhy with hold | hunread
            · exact absurd (hold e he) (Int64.not_lt.mpr hle)
            · exact absurd hread hunread

theorem pruneBeforeTimestamp_retires_iff_logins :
    ∃ t store,
      Engine.Maintained referenceCrates Engine.Steady Engine.onSegments t ∧
      t.writer.store = .segmented store ∧ t.acked.length = 2 ∧
      ((pruneBeforeTimestamp referenceCrates store.dir 5 []).1.OldRetired
          referenceCrates 5 ↔
        (∃ first ∈ (listSegments store.dir).head?,
          first.Young referenceCrates 5) ∨
        (∃ segment ∈ listSegments store.dir, segment.Young referenceCrates 5) ∧
          ∃ read, readAllSegmented referenceCrates (.directory store.dir) =
            .ok read) := by
  obtain ⟨t, store, entry, hrun, hstore, hacked, _, _, _, hdir⟩ :=
    Engine.record_later 5
  refine ⟨t, store, hrun, hstore, by rw [hacked]; rfl, ?_⟩
  apply pruneBeforeTimestamp_retires_iff referenceCrates
    (referenceSerde_printsInjectively 127)
    (referenceSerde_invertsUpTo 127).floats Engine.start_onSegments hrun hstore
  · rw [hacked]
    simp
  · rw [Engine.listSegments_later hdir]
    exact Nat.le_refl 2
  · simp

/-- Both logins are older than the cutoff: nothing is deleted, and the first
segment stays although it is not the newest. -/
theorem pruneBeforeTimestamp_keeps_old :
    ∃ t store,
      Engine.start referenceCrates (some 1) .missing = .ok Engine.onSegments ∧
      Engine.Maintained referenceCrates Engine.Steady Engine.onSegments t ∧
      t.writer.store = .segmented store ∧
      (listSegments store.dir).length = 2 ∧
      (∀ e ∈ t.acked, e.timestamp < 1) ∧
      pruneBeforeTimestamp referenceCrates store.dir 1 [] =
        (store.dir, .ok none) ∧
      ¬(pruneBeforeTimestamp referenceCrates store.dir 1 []).1.OldRetired
        referenceCrates 1 := by
  obtain ⟨t, store, entry, hrun, hstore, hacked, _, htime, hparse, hdir⟩ :=
    Engine.record_later 0
  have hlist := Engine.listSegments_later hdir
  have hfirst : Engine.firstLogin.timestamp = 0 := rfl
  have hold : ∀ e ∈ t.acked, e.timestamp < 1 := by
    rw [hacked]
    simp [hfirst, htime]
  have hprune : pruneBeforeTimestamp referenceCrates store.dir 1 [] =
      (store.dir, .ok none) := by
    unfold pruneBeforeTimestamp
    rw [Engine.readAllSegmented_later hdir hparse]
    simp [hfirst, htime]
  refine ⟨t, store, Engine.start_onSegments, hrun, hstore, by rw [hlist]; rfl,
    hold, hprune, ?_⟩
  rw [hprune]
  intro hretired
  rcases hretired _ _ hlist with hlast | ⟨entries, hholds, e, he, hyoung⟩
  · cases hlast
  · have hline : SegmentFile.Holds referenceCrates
        { first := 1, name := segmentName 1
          node := .readable (entryLine referenceCrates Engine.firstLogin) }
        [Engine.firstLogin] := by
      simp [SegmentFile.Holds, linesOf]
    rw [hholds.unique (referenceSerde_printsInjectively 127) hline,
      List.mem_singleton] at he
    rw [he, hfirst] at hyoung
    exact absurd hyoung (by decide)

end Chainlog
