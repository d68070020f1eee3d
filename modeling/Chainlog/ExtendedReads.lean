import Chainlog.AppendedLines
import Chainlog.Journal
import Chainlog.Listing

/-!
# What a reader sees after an append

A store that was opened on any content it accepts writes the next entry to one
file.  A reader of a directory reads the segments in the order of their
numbers, so the entry comes last exactly where its file ends clean and no other
entry is listed behind it.
-/

namespace Chainlog

namespace Dir

/-- Empty files were created in the directory. -/
def Created (old dir : Dir) : Prop :=
  ∃ new : Dir, dir = old ++ new ∧ ∀ file ∈ new, file.2 = .readable []

theorem Created.refl (dir : Dir) : Created dir dir :=
  ⟨[], (List.append_nil dir).symm, by simp⟩

theorem Created.create {old dir : Dir} (h : Created old dir) (name : String) :
    Created old (dir.create name) := by
  obtain ⟨new, rfl, hnew⟩ := h
  unfold Dir.create
  split
  · exact ⟨new, rfl, hnew⟩
  · refine ⟨new ++ [(name, .readable [])], List.append_assoc _ _ _, ?_⟩
    intro file hfile
    rcases List.mem_append.mp hfile with hfile | hfile
    · exact hnew file hfile
    · rw [List.mem_singleton.mp hfile]

theorem Created.content_eq {old dir : Dir} (h : Created old dir)
    (name : String) : dir.content name = old.content name := by
  obtain ⟨new, rfl, hnew⟩ := h
  unfold content
  rw [find_append]
  cases hold : old.find name with
  | some node => rfl
  | none =>
      cases hfind : find new name with
      | none => rfl
      | some node =>
          have hempty : node = .readable [] := hnew _ (mem_of_find hfind)
          rw [hempty]
          rfl

/-- The files of the old directory are listed in the order they had; where the
files stand that were created since is left open. -/
structure ListedAfter (old dir listed : Dir) : Prop where
  perm : listed.Perm dir
  order : List.filter (fun file => file.1 ∈ old.names) listed =
    List.filter (fun file => file.1 ∈ old.names) dir

end Dir

variable (crates : Crates)

/-- The segment that the next append writes to: the last one, or where that is
full the one that starts with the entry. -/
def appendTarget (maxEntries : ℕ) (dir : Dir) (e : AuditEntry) : UInt64 :=
  match (listSegments dir).getLast? with
  | none => 1
  | some last =>
      match readFile crates last.node with
      | .ok entries => if maxEntries ≤ entries.length then e.seq else last.first
      | .error _ => last.first

/-- The segments that are listed behind a segment file, and where that is new
those that a listing can show behind it. -/
def Dir.behind (dir : Dir) (first : UInt64) : List SegmentFile :=
  if segmentName first ∈ dir.names then
    ((listSegments dir).dropWhile fun s => s.name ≠ segmentName first).tail
  else (listSegments dir).filter fun s => first ≤ s.first

/-- The file that the entry goes to ends clean, and no other entry is listed
behind it. -/
structure AppendsLast (maxEntries : ℕ) (dir : Dir) (e : AuditEntry) : Prop where
  clean : EndsClean (dir.content
    (segmentName (appendTarget crates maxEntries dir e)))
  last : ∀ segment ∈ dir.behind (appendTarget crates maxEntries dir e),
    ∀ entries, readFile crates segment.node = .ok entries → ∀ x ∈ entries, x = e

namespace SegmentedStore

theorem appendTarget_eq {dir : Dir} {maxEntries count : ℕ}
    {tail : Option (UInt64 × String)} {first : UInt64}
    (hmax : 0 < maxEntries)
    (hresume : resume crates (listSegments dir) = .ok (first, count, tail))
    (e : AuditEntry) :
    appendTarget crates maxEntries dir e =
      if maxEntries ≤ count then e.seq else first := by
  unfold resume at hresume
  unfold appendTarget
  cases hlast : (listSegments dir).getLast? with
  | none =>
      simp only [hlast, Except.ok.injEq, Prod.mk.injEq] at hresume
      obtain ⟨rfl, rfl, _⟩ := hresume
      rw [if_neg (by omega)]
  | some last =>
      simp only [hlast] at hresume
      obtain ⟨entries, hread, hfound⟩ := bind_eq_ok.mp hresume
      simp only [pure, Except.pure, Except.ok.injEq, Prod.mk.injEq] at hfound
      obtain ⟨rfl, rfl, _⟩ := hfound
      simp only [hread]

theorem appendLine_eq_ok {store : SegmentedStore} {e : AuditEntry}
    {write : WriteOutcome}
    (h : (store.appendLine crates e write).2 = .ok ()) :
    (store.appendLine crates e write).1.dir =
      store.dir.setContent store.file
        (store.dir.content store.file ++ entryLine crates e) := by
  cases write with
  | synced => rfl
  | _ => cases h

/-- A successful append to an opened store: at most two files are created, and
one is longer by the entry's line. -/
theorem exists_appended {dir : Dir} (hnames : dir.names.Nodup) {maxEntries : ℕ}
    {store : SegmentedStore} {e : AuditEntry} {io : IoOutcome}
    (hopen : openPath crates maxEntries (.directory dir) = .ok store)
    (happend : (store.append crates e io).2 = .ok ()) :
    ∃ grown : Dir, Dir.Created dir grown ∧ grown.names.Nodup ∧
      segmentName (appendTarget crates maxEntries dir e) ∈ grown.names ∧
      (store.append crates e io).1.dir =
        grown.setContent (segmentName (appendTarget crates maxEntries dir e))
          (dir.content (segmentName (appendTarget crates maxEntries dir e)) ++
            entryLine crates e) := by
  obtain ⟨hmax, hlimit, hfile, hdir, hresume⟩ :=
    openPath_directory_eq_ok crates hopen
  have hopened : Dir.Created dir store.dir := by
    rw [hdir]
    exact (Dir.Created.refl dir).create _
  have hnodup : store.dir.names.Nodup := by
    rw [hdir]
    exact Dir.nodup_create hnames _
  rw [appendTarget_eq crates hmax hresume]
  unfold append at happend ⊢
  rw [hlimit] at happend ⊢
  by_cases hfull : maxEntries ≤ store.curCount
  · simp only [if_pos hfull, rotateTo] at happend ⊢
    cases hcreate : io.create with
    | some reason => simp [hcreate] at happend
    | none =>
        cases hnode : openAppend (store.dir.find (segmentName e.seq)) with
        | error err => simp [hcreate, hnode] at happend
        | ok content =>
            simp only [hcreate, hnode] at happend ⊢
            refine ⟨store.dir.create (segmentName e.seq), hopened.create _,
              Dir.nodup_create hnodup _, Dir.mem_names_create _ _, ?_⟩
            rw [appendLine_eq_ok crates happend]
            simp only [(hopened.create (segmentName e.seq)).content_eq]
  · simp only [if_neg hfull] at happend ⊢
    refine ⟨store.dir, hopened, hnodup, ?_, ?_⟩
    · rw [hdir, hfile]
      exact Dir.mem_names_create _ _
    · rw [appendLine_eq_ok crates happend, hopened.content_eq, hfile]

end SegmentedStore

/-! ## Reading around the new line -/

theorem readSegments_filter {q : SegmentFile → Bool}
    {segments : List SegmentFile}
    (h : ∀ s ∈ segments, ¬q s → readFile crates s.node = .ok []) :
    readSegments crates (segments.filter q) = readSegments crates segments := by
  induction segments with
  | nil => rfl
  | cons s rest ih =>
      obtain ⟨hs, hrest⟩ := List.forall_mem_cons.mp h
      by_cases hq : q s
      · rw [List.filter_cons_of_pos hq, readSegments, readSegments, ih hrest]
      · rw [List.filter_cons_of_neg hq, ih hrest, readSegments, hs hq]
        cases readSegments crates rest <;> rfl

theorem mem_of_readSegments {segments : List SegmentFile}
    {entries : List AuditEntry}
    (hread : readSegments crates segments = .ok entries) {x : AuditEntry} :
    x ∈ entries ↔ ∃ segment ∈ segments, ∃ found,
      readFile crates segment.node = .ok found ∧ x ∈ found := by
  induction segments generalizing entries with
  | nil =>
      obtain rfl := Except.ok.inj hread
      simp
  | cons segment rest ih =>
      obtain ⟨front, back, hfront, hback, rfl⟩ :=
        (readSegments_cons_ok crates).mp hread
      rw [List.mem_append, ih hback]
      simp [hfront]

theorem cons_eq_concat_iff {α : Type} {x : α} {row : List α} :
    x :: row = row ++ [x] ↔ ∀ y ∈ row, y = x := by
  induction row with
  | nil => simp
  | cons y row ih =>
      rw [List.cons_append, List.cons.injEq, List.forall_mem_cons]
      constructor
      · rintro ⟨rfl, hrow⟩
        exact ⟨rfl, ih.mp hrow⟩
      · rintro ⟨rfl, hrow⟩
        exact ⟨rfl, ih.mpr hrow⟩

/-- The new line is read last exactly if its file ends clean and the segments
behind repeat its entry. -/
theorem readSegments_extended_iff (hserde : crates.serde.ReadsOneValue)
    {e : AuditEntry} (hparse : ParsesBack crates e) {content : Bytes}
    {before after : List SegmentFile} {segment : SegmentFile}
    {front own back : List AuditEntry}
    (hfront : readSegments crates before = .ok front)
    (hown : readFile crates (.readable content) = .ok own)
    (hback : readSegments crates after = .ok back)
    (hnode : segment.node = .readable (content ++ entryLine crates e)) :
    readSegments crates (before ++ segment :: after) =
        .ok (front ++ own ++ back ++ [e]) ↔
      EndsClean content ∧ ∀ s ∈ after, ∀ found,
        readFile crates s.node = .ok found → ∀ x ∈ found, x = e := by
  have hrepeat : (∀ x ∈ back, x = e) ↔ ∀ s ∈ after, ∀ found,
      readFile crates s.node = .ok found → ∀ x ∈ found, x = e := by
    simp only [mem_of_readSegments crates hback]
    constructor
    · intro h s hs found hfound x hx
      exact h x ⟨s, hs, found, hfound, hx⟩
    · rintro h x ⟨s, hs, found, hfound, hx⟩
      exact h s hs found hfound x hx
  obtain ⟨hclean, hspoiled⟩ := readFile_append_line crates hserde hparse hown
  rw [← hrepeat]
  by_cases hends : EndsClean content
  · have hall : readSegments crates (before ++ segment :: after) =
        .ok (front ++ (own ++ [e] ++ back)) := by
      refine (readSegments_append_ok crates).mpr ⟨front, _, hfront, ?_, rfl⟩
      exact (readSegments_cons_ok crates).mpr
        ⟨own ++ [e], back, by rw [hnode, hclean hends], hback, rfl⟩
    rw [hall, Except.ok.injEq, ← cons_eq_concat_iff, iff_true_intro hends,
      true_and]
    simp only [List.append_assoc, List.append_cancel_left_eq,
      List.singleton_append]
  · refine iff_of_false ?_ fun h => hends h.1
    intro hread
    obtain ⟨_, _, _, hrest, _⟩ := (readSegments_append_ok crates).mp hread
    obtain ⟨_, _, hsegment, _, _⟩ := (readSegments_cons_ok crates).mp hrest
    obtain ⟨err, herr⟩ := hspoiled hends
    rw [hnode, herr] at hsegment
    cases hsegment

/-! ## The old listing inside the new one -/

section Listed

variable {dir grown listed : Dir} {n : UInt64} {content : Bytes}

theorem Dir.Created.filter_setContent (hcreated : Dir.Created dir grown)
    (hnodup : grown.names.Nodup) (name : String) (content : Bytes) :
    List.filter (fun file => decide (file.1 ∈ dir.names))
        (grown.setContent name content) =
      dir.setContent name content := by
  obtain ⟨new, rfl, hnew⟩ := hcreated
  have hsplit : Dir.setContent (dir ++ new) name content =
      dir.setContent name content ++ Dir.setContent new name content :=
    List.map_append
  have hnames : ∀ files : Dir, ∀ file ∈ files.setContent name content,
      file.1 ∈ files.names := by
    intro files file hfile
    rw [← Dir.names_setContent files name content]
    exact List.mem_map_of_mem hfile
  rw [hsplit, List.filter_append, List.filter_eq_self.mpr,
    List.filter_eq_nil_iff.mpr, List.append_nil]
  · intro file hfile hold
    rw [Dir.names, List.map_append, List.nodup_append] at hnodup
    exact hnodup.2.2 _ (of_decide_eq_true hold) _ (hnames new file hfile) rfl
  · intro file hfile
    exact decide_eq_true (hnames dir file hfile)

/-- Among the files of a new listing, those of the old one are listed as they
were. -/
theorem listSegments_listed (hcreated : Dir.Created dir grown)
    (hnodup : grown.names.Nodup)
    (hlisted : Dir.ListedAfter dir (grown.setContent (segmentName n) content)
      listed) :
    (listSegments listed).filter (fun s => decide (s.name ∈ dir.names)) =
      (listSegments dir).map
        (SegmentFile.setContent (segmentName n) content) := by
  rw [← listSegments_filter (fun name => decide (name ∈ dir.names)),
    hlisted.order, hcreated.filter_setContent hnodup,
    listSegments_setContent]

theorem node_of_new (hcreated : Dir.Created dir grown)
    (hlisted : Dir.ListedAfter dir (grown.setContent (segmentName n) content)
      listed)
    {s : SegmentFile} (hs : s ∈ listSegments listed)
    (hnew : s.name ∉ dir.names) (hne : s.name ≠ segmentName n) :
    s.node = .readable [] := by
  obtain ⟨new, rfl, hempty⟩ := hcreated
  have hfile := hlisted.perm.subset (mem_listSegments.mp hs).1
  obtain ⟨⟨name, node⟩, hmem, hset⟩ := List.mem_map.mp hfile
  by_cases hname : name = segmentName n
  · rw [if_pos hname] at hset
    exact absurd (congrArg Prod.fst hset).symm hne
  · rw [if_neg hname] at hset
    obtain ⟨rfl, rfl⟩ := Prod.mk.inj hset
    rcases List.mem_append.mp hmem with hold | hmem
    · exact absurd (List.mem_map_of_mem hold) hnew
    · exact hempty _ hmem

theorem mem_listSegments_target (htarget : segmentName n ∈ grown.names)
    (hlisted : Dir.ListedAfter dir (grown.setContent (segmentName n) content)
      listed) :
    ({ first := n, name := segmentName n, node := .readable content } :
      SegmentFile) ∈ listSegments listed := by
  refine mem_listSegments.mpr ⟨hlisted.perm.mem_iff.mpr ?_,
    parseSegmentFirstSeq_segmentName n⟩
  apply Dir.mem_of_find
  rw [Dir.find_setContent, if_pos rfl]
  cases hfind : grown.find (segmentName n) with
  | none => exact absurd htarget (Dir.find_eq_none.mp hfind)
  | some node => rfl

theorem names_ne_of_split (hnodup : grown.names.Nodup)
    (hlisted : Dir.ListedAfter dir (grown.setContent (segmentName n) content)
      listed)
    {before after : List SegmentFile} {segment : SegmentFile}
    (hsplit : listSegments listed = before ++ segment :: after) :
    ∀ s ∈ before ++ after, s.name ≠ segment.name := by
  have hlistedNames : listed.names.Nodup := by
    rw [Dir.names, (hlisted.perm.map Prod.fst).nodup_iff, ← Dir.names,
      Dir.names_setContent]
    exact hnodup
  have hnames := nodup_listSegments hlistedNames
  rw [hsplit, List.map_append, List.map_cons, List.nodup_middle,
    List.nodup_cons, ← List.map_append] at hnames
  intro s hs heq
  exact hnames.1 (heq ▸ List.mem_map_of_mem hs)

/-- The old listing is the new one without the new files. -/
theorem listSegments_split (hcreated : Dir.Created dir grown)
    (hnodup : grown.names.Nodup)
    (hlisted : Dir.ListedAfter dir (grown.setContent (segmentName n) content)
      listed)
    {before after : List SegmentFile} {segment : SegmentFile}
    (hsplit : listSegments listed = before ++ segment :: after)
    (hname : segment.name = segmentName n) :
    ∃ own, listSegments dir =
        before.filter (fun s => decide (s.name ∈ dir.names)) ++ own ++
          after.filter (fun s => decide (s.name ∈ dir.names)) ∧
      (segmentName n ∉ dir.names ∧ own = [] ∨
        segmentName n ∈ dir.names ∧
          ∃ old, own = [old] ∧ old.name = segmentName n) := by
  have hold := listSegments_listed hcreated hnodup hlisted
  have hothers := names_ne_of_split hnodup hlisted hsplit
  rw [hname] at hothers
  have hsame : ∀ {segments rest : List SegmentFile},
      rest.map (SegmentFile.setContent (segmentName n) content) =
        segments.filter (fun s => decide (s.name ∈ dir.names)) →
      (∀ s ∈ segments, s ∈ before ++ after) →
      rest = segments.filter (fun s => decide (s.name ∈ dir.names)) := by
    intro segments rest hmap hmem
    rw [← hmap]
    refine (List.map_id rest).symm.trans (List.map_congr_left fun s hs => ?_)
    have hin := hmap ▸ List.mem_map_of_mem hs
    have hne := hothers _ (hmem _ (List.mem_of_mem_filter hin))
    rw [SegmentFile.setContent_name] at hne
    exact (SegmentFile.setContent_of_ne hne).symm
  rw [hsplit, List.filter_append] at hold
  by_cases htarget : segmentName n ∈ dir.names
  · rw [List.filter_cons_of_pos (by simpa [hname] using htarget)] at hold
    obtain ⟨front, rest, hdir, hfront, hrest⟩ :=
      List.map_eq_append_iff.mp hold.symm
    obtain ⟨old, back, rfl, hsegment, hback⟩ := List.map_eq_cons_iff.mp hrest
    refine ⟨[old], ?_, Or.inr ⟨htarget, old, rfl, ?_⟩⟩
    · rw [hdir, hsame hfront fun s hs => List.mem_append_left _ hs,
        hsame hback fun s hs => List.mem_append_right _ hs]
      simp
    · rw [← SegmentFile.setContent_name (segmentName n) content old, hsegment,
        hname]
  · rw [List.filter_cons_of_neg (by simpa [hname] using htarget),
      ← List.filter_append] at hold
    refine ⟨[], ?_, Or.inl ⟨htarget, rfl⟩⟩
    rw [List.append_nil, ← List.filter_append]
    exact hsame hold.symm fun s hs => hs

/-- What the old segment of that name holds is the file's content. -/
theorem readFile_content_of_own {own : List SegmentFile}
    (hdir : dir.names.Nodup)
    (hown : segmentName n ∉ dir.names ∧ own = [] ∨
      segmentName n ∈ dir.names ∧
        ∃ old, own = [old] ∧ old.name = segmentName n)
    (hlisted : ∀ s ∈ own, s ∈ listSegments dir) {entries : List AuditEntry}
    (hread : readSegments crates own = .ok entries) :
    readFile crates (.readable (dir.content (segmentName n))) =
      .ok entries := by
  rcases hown with ⟨hnew, rfl⟩ | ⟨_, old, rfl, hname⟩
  · rw [Dir.content, Dir.find_eq_none.mpr hnew]
    exact hread
  · obtain ⟨front, back, hfront, hback, rfl⟩ :=
      (readSegments_cons_ok crates).mp hread
    obtain rfl := Except.ok.inj hback
    have hfile := (mem_listSegments.mp (hlisted old List.mem_cons_self)).1
    rw [hname] at hfile
    have hfind := Dir.find_of_mem hdir hfile
    cases hnode : old.node with
    | unreadable reason =>
        rw [hnode] at hfront
        cases hfront
    | readable content =>
        rw [hnode] at hfind hfront
        rw [Dir.content, hfind, List.append_nil]
        exact hfront

/-- One way of listing the files after an append: the entry is read last
exactly if its file ended clean and the old segments listed behind it repeat
it. -/
theorem readSegments_listed_iff (hserde : crates.serde.ReadsOneValue)
    {e : AuditEntry} (hparse : ParsesBack crates e) (hdir : dir.names.Nodup)
    (hcreated : Dir.Created dir grown) (hnodup : grown.names.Nodup)
    (hlisted : Dir.ListedAfter dir (grown.setContent (segmentName n) content)
      listed)
    {before after : List SegmentFile} {segment : SegmentFile}
    (hsplit : listSegments listed = before ++ segment :: after)
    (hname : segment.name = segmentName n)
    (hnode : segment.node =
      .readable (dir.content (segmentName n) ++ entryLine crates e))
    {entries : List AuditEntry}
    (hread : readSegments crates (listSegments dir) = .ok entries) :
    readSegments crates (listSegments listed) = .ok (entries ++ [e]) ↔
      EndsClean (dir.content (segmentName n)) ∧
        ∀ s ∈ after.filter (fun s => decide (s.name ∈ dir.names)), ∀ found,
          readFile crates s.node = .ok found → ∀ x ∈ found, x = e := by
  have hothers := names_ne_of_split hnodup hlisted hsplit
  have hempty : ∀ s ∈ before ++ after,
      ¬decide (s.name ∈ dir.names) → readFile crates s.node = .ok [] := by
    intro s hs hnew
    have hmem : s ∈ listSegments listed := by
      rw [hsplit]
      rcases List.mem_append.mp hs with h | h
      · exact List.mem_append_left _ h
      · exact List.mem_append_right _ (List.mem_cons_of_mem _ h)
    rw [node_of_new hcreated hlisted hmem (by simpa using hnew)
      (hname ▸ hothers s hs)]
    rfl
  obtain ⟨own, hold, hown⟩ :=
    listSegments_split hcreated hnodup hlisted hsplit hname
  have hsplitRead := hread
  rw [hold] at hsplitRead
  obtain ⟨_, back, hleft, hback, rfl⟩ :=
    (readSegments_append_ok crates).mp hsplitRead
  obtain ⟨front, inner, hfront, hinner, rfl⟩ :=
    (readSegments_append_ok crates).mp hleft
  have hcontent := readFile_content_of_own crates hdir hown
    (fun s hs => by rw [hold]; simp [hs]) hinner
  rw [readSegments_filter crates fun s hs =>
    hempty s (List.mem_append_left _ hs)] at hfront
  rw [readSegments_filter crates fun s hs =>
    hempty s (List.mem_append_right _ hs)] at hback
  rw [hsplit, readSegments_extended_iff crates hserde hparse hfront hcontent
    hback hnode]
  refine and_congr_right fun _ => ⟨fun h s hs => h s (List.mem_of_mem_filter hs),
    fun h s hs found hfound x hx => ?_⟩
  by_cases hin : s.name ∈ dir.names
  · exact h s (List.mem_filter.mpr ⟨hs, decide_eq_true hin⟩) found hfound x hx
  · rw [hempty s (List.mem_append_right _ hs) (by simpa using hin)] at hfound
    obtain rfl := Except.ok.inj hfound
    exact absurd hx List.not_mem_nil

/-- Whatever the listing, the old segments behind the new line are listed
behind its file. -/
theorem behind_of_listed (hcreated : Dir.Created dir grown)
    (hnodup : grown.names.Nodup)
    (hlisted : Dir.ListedAfter dir (grown.setContent (segmentName n) content)
      listed)
    {before after : List SegmentFile} {segment : SegmentFile}
    (hsplit : listSegments listed = before ++ segment :: after)
    (hname : segment.name = segmentName n) (hfirst : segment.first = n) :
    (segmentName n ∈ dir.names →
      after.filter (fun s => decide (s.name ∈ dir.names)) = dir.behind n) ∧
    (segmentName n ∉ dir.names →
      ∀ s ∈ after.filter (fun s => decide (s.name ∈ dir.names)),
        s ∈ dir.behind n) := by
  obtain ⟨own, hold, hown⟩ :=
    listSegments_split hcreated hnodup hlisted hsplit hname
  constructor
  · intro hmem
    rcases hown with ⟨hnew, _⟩ | ⟨_, old, rfl, hownName⟩
    · exact absurd hmem hnew
    · have hbefore : ∀ s ∈ before.filter (fun s => decide (s.name ∈ dir.names)),
          decide (s.name ≠ segmentName n) = true := by
        intro s hs
        have hne := names_ne_of_split hnodup hlisted hsplit s
          (List.mem_append_left _ (List.mem_of_mem_filter hs))
        rw [hname] at hne
        exact decide_eq_true hne
      rw [Dir.behind, if_pos hmem, hold, List.append_assoc,
        List.dropWhile_append_of_pos hbefore, List.singleton_append,
        List.dropWhile_cons_of_neg (by simpa using hownName), List.tail_cons]
  · intro hnew s hs
    rw [Dir.behind, if_neg hnew, List.mem_filter, hold]
    refine ⟨List.mem_append_right _ hs, decide_eq_true ?_⟩
    have hsorted := pairwise_listSegments listed
    rw [hsplit, List.pairwise_append] at hsorted
    rw [← hfirst]
    exact List.rel_of_pairwise_cons hsorted.2.1 (List.mem_of_mem_filter hs)

theorem exists_listed_first (content : Bytes)
    (htarget : segmentName n ∈ grown.names)
    (hnew : segmentName n ∉ dir.names) :
    ∃ listed before after,
      Dir.ListedAfter dir (grown.setContent (segmentName n) content) listed ∧
      listSegments listed = before ++
        { first := n, name := segmentName n, node := .readable content } ::
          after ∧
      ∀ s ∈ before, ¬n ≤ s.first := by
  have hself : Dir.ListedAfter dir
      (grown.setContent (segmentName n) content)
      (grown.setContent (segmentName n) content) := ⟨List.Perm.refl _, rfl⟩
  have hmem := (mem_listSegments.mp (mem_listSegments_target htarget hself)).1
  obtain ⟨front, back, hfiles⟩ := List.append_of_mem hmem
  rw [hfiles]
  refine ⟨(segmentName n, .readable content) :: (front ++ back),
    (listSegments (front ++ back)).takeWhile fun s => ¬n ≤ s.first,
    (listSegments (front ++ back)).dropWhile fun s => ¬n ≤ s.first,
    ⟨List.perm_middle.symm, ?_⟩, ?_, ?_⟩
  · rw [List.filter_cons_of_neg (by simpa using hnew), List.filter_append,
      List.filter_append, List.filter_cons_of_neg (by simpa using hnew)]
  · exact listSegments_cons_segmentName n _ _
  · intro s hs
    simpa using List.mem_takeWhile_imp hs

/-- Every segment that can be listed behind the file is, by one listing. -/
theorem exists_listed_behind (content : Bytes)
    (hcreated : Dir.Created dir grown)
    (hnodup : grown.names.Nodup) (htarget : segmentName n ∈ grown.names) :
    ∃ listed before after,
      Dir.ListedAfter dir (grown.setContent (segmentName n) content) listed ∧
      listSegments listed = before ++
        { first := n, name := segmentName n, node := .readable content } ::
          after ∧
      ∀ s ∈ dir.behind n,
        s ∈ after.filter (fun s => decide (s.name ∈ dir.names)) := by
  by_cases hmem : segmentName n ∈ dir.names
  · have hself : Dir.ListedAfter dir
        (grown.setContent (segmentName n) content)
        (grown.setContent (segmentName n) content) := ⟨List.Perm.refl _, rfl⟩
    obtain ⟨before, after, hsplit⟩ :=
      List.append_of_mem (mem_listSegments_target htarget hself)
    refine ⟨_, before, after, hself, hsplit, fun s hs => ?_⟩
    rwa [(behind_of_listed hcreated hnodup hself hsplit rfl rfl).1 hmem]
  · obtain ⟨listed, before, after, hlisted, hsplit, hbefore⟩ :=
      exists_listed_first content htarget hmem
    refine ⟨listed, before, after, hlisted, hsplit, fun s hs => ?_⟩
    obtain ⟨own, hold, hown⟩ :=
      listSegments_split hcreated hnodup hlisted hsplit rfl
    rw [Dir.behind, if_neg hmem, List.mem_filter, hold, List.mem_append,
      List.mem_append] at hs
    obtain ⟨(hfront | hnew) | hback, hfirst⟩ := hs
    · exact absurd (of_decide_eq_true hfirst)
        (hbefore s (List.mem_of_mem_filter hfront))
    · rcases hown with ⟨_, rfl⟩ | ⟨hold, _⟩
      · cases hnew
      · exact absurd hold hmem
    · exact hback

end Listed

/-! ## After an append -/

theorem FileStore.append_eq_ok {store : FileStore} {e : AuditEntry}
    {io : IoOutcome} (h : (store.append crates e io).2 = .ok ()) :
    (store.append crates e io).1.content =
      store.content ++ entryLine crates e := by
  unfold append at h ⊢
  cases hwrite : io.write with
  | synced => rfl
  | _ => simp [hwrite, writeLine] at h

theorem FileStore.extends_iff (hserde : crates.serde.ReadsOneValue)
    {e : AuditEntry} (hparse : ParsesBack crates e) {content : Bytes}
    {store : FileStore} {io : IoOutcome} {entries : List AuditEntry}
    (hopen : openPath crates (.file (.readable content)) = .ok store)
    (hread : readAll crates (.file (.readable content)) = .ok entries)
    (happend : (store.append crates e io).2 = .ok ()) :
    readAll crates (.file (.readable (store.append crates e io).1.content)) =
        .ok (entries ++ [e]) ↔ EndsClean content := by
  obtain ⟨_, _, hopen⟩ := bind_eq_ok.mp hopen
  obtain rfl := Except.ok.inj hopen
  obtain ⟨hclean, hspoiled⟩ := readFile_append_line crates hserde hparse hread
  rw [append_eq_ok crates happend]
  refine ⟨fun hextended => ?_, hclean⟩
  by_contra hends
  obtain ⟨err, herr⟩ := hspoiled hends
  have hboth := herr.symm.trans hextended
  cases hboth

theorem SegmentedStore.extends_iff (hserde : crates.serde.ReadsOneValue)
    {e : AuditEntry} (hparse : ParsesBack crates e) {dir : Dir}
    (hdir : dir.names.Nodup) {maxEntries : ℕ} {store : SegmentedStore}
    {io : IoOutcome} {entries : List AuditEntry}
    (hopen : openPath crates maxEntries (.directory dir) = .ok store)
    (hread : readAllSegmented crates (.directory dir) = .ok entries)
    (happend : (store.append crates e io).2 = .ok ()) :
    (∀ listed, Dir.ListedAfter dir (store.append crates e io).1.dir listed →
      readAllSegmented crates (.directory listed) = .ok (entries ++ [e])) ↔
        AppendsLast crates maxEntries dir e := by
  obtain ⟨grown, hcreated, hnodup, htarget, hdisk⟩ :=
    exists_appended crates hdir hopen happend
  generalize hn : appendTarget crates maxEntries dir e = n at htarget hdisk
  rw [hdisk]
  constructor
  · intro hall
    obtain ⟨listed, before, after, hlisted, hsplit, hbehind⟩ :=
      exists_listed_behind
        (dir.content (segmentName n) ++ entryLine crates e) hcreated hnodup
        htarget
    obtain ⟨hclean, hlast⟩ := (readSegments_listed_iff crates hserde hparse
      hdir hcreated hnodup hlisted hsplit rfl rfl hread).mp (hall _ hlisted)
    subst hn
    exact ⟨hclean, fun s hs => hlast s (hbehind s hs)⟩
  · intro hlast listed hlisted
    subst hn
    obtain ⟨before, after, hsplit⟩ :=
      List.append_of_mem (mem_listSegments_target htarget hlisted)
    refine (readSegments_listed_iff crates hserde hparse hdir hcreated hnodup
      hlisted hsplit rfl rfl hread).mpr ⟨hlast.clean, fun s hs => ?_⟩
    have hbehind := behind_of_listed hcreated hnodup hlisted hsplit rfl rfl
    apply hlast.last
    by_cases hmem : segmentName (appendTarget crates maxEntries dir e) ∈
        dir.names
    · rw [← hbehind.1 hmem]
      exact hs
    · exact hbehind.2 hmem s hs

/-- For every content that `open` accepts and the reader reads: after one
successful append the reader reads what it read before with the entry at the
end exactly if the entry's file ended clean and, among segments, no other entry
is listed behind that file. -/
theorem append_extends_reading_iff (hserde : crates.serde.ReadsOneValue)
    {e : AuditEntry} (hparse : ParsesBack crates e) :
    (∀ content (store : FileStore) io entries,
      FileStore.openPath crates (.file (.readable content)) = .ok store →
      readAll crates (.file (.readable content)) = .ok entries →
      (store.append crates e io).2 = .ok () →
      (readAll crates
          (.file (.readable (store.append crates e io).1.content)) =
        .ok (entries ++ [e]) ↔ EndsClean content)) ∧
    (∀ (dir : Dir) maxEntries (store : SegmentedStore) io entries,
      dir.names.Nodup →
      SegmentedStore.openPath crates maxEntries (.directory dir) = .ok store →
      readAllSegmented crates (.directory dir) = .ok entries →
      (store.append crates e io).2 = .ok () →
      ((∀ listed, Dir.ListedAfter dir (store.append crates e io).1.dir listed →
          readAllSegmented crates (.directory listed) = .ok (entries ++ [e])) ↔
        AppendsLast crates maxEntries dir e)) :=
  ⟨fun _ _ _ _ hopen hread happend =>
      FileStore.extends_iff crates hserde hparse hopen hread happend,
    fun _ _ _ _ _ hdir hopen hread happend =>
      SegmentedStore.extends_iff crates hserde hparse hdir hopen hread happend⟩

/-! ## A file and a directory -/

theorem parsesBack_skipping :
    ParsesBack skippingCrates (referenceEntry 1 none genesisPrevHash) := by
  rw [parsesBack_iff_of_invertsUpTo skippingCrates
    (skippingSerde_invertsUpTo 127), AuditEntry.depth_toDocument]
  simp [referenceEntry, Value.depth, Value.toDocument, Value.null]

/-- Behind a blank line without its newline, and in an empty directory. -/
theorem append_extends_reading_blank :
    readAll skippingCrates (.file (.readable (asBytes " " ++
        entryLine skippingCrates (referenceEntry 1 none genesisPrevHash)))) =
      .ok [referenceEntry 1 none genesisPrevHash] ∧
    ∃ store : SegmentedStore,
      SegmentedStore.openPath skippingCrates 1 (.directory []) = .ok store ∧
      ∀ listed, Dir.ListedAfter [] (store.append skippingCrates
          (referenceEntry 1 none genesisPrevHash) .ok).1.dir listed →
        readAllSegmented skippingCrates (.directory listed) =
          .ok [referenceEntry 1 none genesisPrevHash] := by
  obtain ⟨hfile, hdir⟩ := append_extends_reading_iff skippingCrates
    (skippingSerde_readsOneValue 127) parsesBack_skipping
  generalize referenceEntry 1 none genesisPrevHash = e at hfile hdir ⊢
  have hblank : readAll skippingCrates (.file (.readable (asBytes " "))) =
      .ok [] := by
    have hpieces : Lines.pieces newline (asBytes " ") = [asBytes " "] := by
      decide
    have hwhite : isBlank (stripLineEnd " ") = true := by decide
    simp [readAll, readFile, hpieces, readLines, readLine, hwhite]
  have hopen : FileStore.openPath skippingCrates
      (.file (.readable (asBytes " "))) =
        .ok { content := asBytes " ", cachedTail := none } := by
    simp [FileStore.openPath, FileStore.readTail, hblank, openAppend, bind,
      Except.bind, pure, Except.pure]
  refine ⟨(hfile _ _ .ok _ hopen hblank rfl).mpr (by decide), _, rfl, ?_⟩
  refine (hdir [] 1 _ .ok [] List.nodup_nil rfl rfl rfl).mpr ⟨?_, ?_⟩
  · exact (by decide : EndsClean [])
  · intro segment hsegment
    cases hsegment

/-- A line without its newline is read, until the next entry joins it. -/
theorem exists_error_of_unterminated {e : AuditEntry}
    (hparse : ParsesBack skippingCrates e) :
    ∃ store : FileStore,
      FileStore.openPath skippingCrates
          (.file (.readable (asBytes (entryText skippingCrates e)))) =
        .ok store ∧
      readAll skippingCrates
          (.file (.readable (asBytes (entryText skippingCrates e)))) =
        .ok [e] ∧
      (store.append skippingCrates e .ok).2 = .ok () ∧
      ∃ err, readAll skippingCrates
          (.file (.readable (store.append skippingCrates e .ok).1.content)) =
        .error err := by
  have hread : readAll skippingCrates
      (.file (.readable (asBytes (entryText skippingCrates e)))) =
        .ok [e] := by
    rw [readAll, readFile_entryText, hparse]
  refine ⟨{ content := asBytes (entryText skippingCrates e)
            cachedTail := lastHead [e] }, ?_, hread, rfl, ?_⟩
  · simp [FileStore.openPath, FileStore.readTail, hread, openAppend, bind,
      Except.bind, pure, Except.pure, lastHead]
  · exact (readFile_append_line skippingCrates
      (skippingSerde_readsOneValue 127) hparse hread).2
      (not_endsClean_entryText skippingCrates e)

theorem append_spoils_unterminated :
    let e := referenceEntry 1 none genesisPrevHash
    ∃ store : FileStore, ParsesBack skippingCrates e ∧
      FileStore.openPath skippingCrates
          (.file (.readable (asBytes (entryText skippingCrates e)))) =
        .ok store ∧
      readAll skippingCrates
          (.file (.readable (asBytes (entryText skippingCrates e)))) =
        .ok [e] ∧
      (store.append skippingCrates e .ok).2 = .ok () ∧
      readAll skippingCrates
          (.file (.readable (store.append skippingCrates e .ok).1.content)) ≠
        .ok [e, e] := by
  intro e
  obtain ⟨store, hopen, hread, happend, err, herr⟩ :=
    exists_error_of_unterminated parsesBack_skipping
  refine ⟨store, parsesBack_skipping, hopen, hread, happend, ?_⟩
  rw [herr]
  intro hboth
  cases hboth

end Chainlog
