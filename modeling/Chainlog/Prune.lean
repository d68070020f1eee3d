import Chainlog.Listing

/-!
# Retention pruning

`prune_before` deletes whole segments from the front of a segment directory and
derives the anchor from what is left.  The answers of `remove_file` are given in
the order of the calls; an error ends the loop, and so does a crash.
-/

namespace Chainlog

/-- The deletion loop, with `deleted_any`.  It never touches the last
segment. -/
def pruneLoop (boundarySeq : UInt64) :
    List SegmentFile → List (Option String) → Dir → Bool → Dir × Result Bool
  | segment :: next :: rest, removals, dir, deletedAny =>
      if next.first ≤ boundarySeq then
        match removals with
        | some reason :: _ => (dir, .error (.io reason))
        | _ =>
            pruneLoop boundarySeq (next :: rest) removals.tail
              (dir.remove segment.name) true
      else (dir, .ok deletedAny)
  | _, _, dir, deletedAny => (dir, .ok deletedAny)

variable (crates : Crates)

/-- The entry just before the new earliest entry, from the latter's fields. -/
def anchorBefore (dir : Dir) : Option Anchor :=
  let firstEntry := do
    let segment ← (listSegments dir).head?
    let entries ← (readFile crates segment.node).toOption
    entries.head?
  match firstEntry with
  | some e =>
      if 1 < e.seq then some { seq := e.seq - 1, hash := e.prevHash } else none
  | none => none

/-- Prune whole segments whose entries are all older than `boundarySeq`. -/
def pruneBefore (dir : Dir) (boundarySeq : UInt64)
    (removals : List (Option String)) : Dir × Result (Option Anchor) :=
  let segs := listSegments dir
  if segs.length ≤ 1 then (dir, .ok none)
  else
    match pruneLoop boundarySeq segs removals dir false with
    | (dir, .error err) => (dir, .error err)
    | (dir, .ok false) => (dir, .ok none)
    | (dir, .ok true) => (dir, .ok (anchorBefore crates dir))

/-! ## What the loop deletes -/

/-- Delete segments by name. -/
def Dir.removeAll (dir : Dir) (segs : List SegmentFile) : Dir :=
  segs.foldl (fun dir segment => dir.remove segment.name) dir

/-- The segments that the loop leaves, where every deletion succeeds. -/
def retainedSegments (boundarySeq : UInt64) (segs : List SegmentFile) :
    List SegmentFile :=
  Retention.retained (fun segment => segment.first ≤ boundarySeq) segs

/-- The loop has deleted `k` segments from the front, never more than retention
asks for; where it succeeds, all of these. -/
structure DeletesFront (boundarySeq : UInt64) (segs : List SegmentFile)
    (dir : Dir) (deletedAny : Bool) (out : Dir × Result Bool) (k : ℕ) :
    Prop where
  dir_eq : out.1 = dir.removeAll (segs.take k)
  spares : retainedSegments boundarySeq segs <:+ segs.drop k
  complete : ∀ result, out.2 = .ok result →
    retainedSegments boundarySeq segs = segs.drop k ∧
      result = (deletedAny || decide (0 < k))

theorem deletesFront_none {boundarySeq : UInt64} {segs : List SegmentFile}
    (hall : retainedSegments boundarySeq segs = segs) (dir : Dir)
    (deletedAny : Bool) :
    DeletesFront boundarySeq segs dir deletedAny (dir, .ok deletedAny) 0 where
  dir_eq := rfl
  spares := by
    rw [hall]
    exact List.suffix_refl _
  complete := by
    intro result hresult
    refine ⟨hall, ?_⟩
    simpa using hresult.symm

theorem retainedSegments_cons {boundarySeq : UInt64}
    {segment next : SegmentFile} (rest : List SegmentFile)
    (hnext : next.first ≤ boundarySeq) :
    retainedSegments boundarySeq (segment :: next :: rest) =
      retainedSegments boundarySeq (next :: rest) := by
  unfold retainedSegments
  rw [Retention.retained, if_pos hnext]

theorem DeletesFront.cons {boundarySeq : UInt64} {segment next : SegmentFile}
    {rest : List SegmentFile} {dir : Dir} {out : Dir × Result Bool} {k : ℕ}
    (h : DeletesFront boundarySeq (next :: rest) (dir.remove segment.name) true
      out k)
    (hnext : next.first ≤ boundarySeq) (deletedAny : Bool) :
    DeletesFront boundarySeq (segment :: next :: rest) dir deletedAny out
      (k + 1) where
  dir_eq := h.dir_eq
  spares := by
    rw [retainedSegments_cons rest hnext]
    exact h.spares
  complete := by
    intro result hresult
    obtain ⟨hretained, hflag⟩ := h.complete result hresult
    rw [retainedSegments_cons rest hnext]
    refine ⟨hretained, ?_⟩
    rw [hflag]
    simp

/-- A deletion that fails ends the loop, with its error. -/
theorem deletesFront_failed {boundarySeq : UInt64} (segs : List SegmentFile)
    (dir : Dir) (deletedAny : Bool) (err : Error) :
    DeletesFront boundarySeq segs dir deletedAny (dir, .error err) 0 where
  dir_eq := rfl
  spares := Retention.retained_suffix _
  complete := by
    intro result hresult
    cases hresult

theorem pruneLoop_spec (boundarySeq : UInt64) (segs : List SegmentFile)
    (removals : List (Option String)) (dir : Dir) (deletedAny : Bool) :
    ∃ k, DeletesFront boundarySeq segs dir deletedAny
      (pruneLoop boundarySeq segs removals dir deletedAny) k := by
  induction segs generalizing removals dir deletedAny with
  | nil => exact ⟨0, deletesFront_none rfl dir deletedAny⟩
  | cons segment rest ih =>
      cases rest with
      | nil => exact ⟨0, deletesFront_none rfl dir deletedAny⟩
      | cons next rest =>
          unfold pruneLoop
          by_cases hnext : next.first ≤ boundarySeq
          · rw [if_pos hnext]
            obtain ⟨k, hdeletes⟩ :=
              ih removals.tail (dir.remove segment.name) true
            have hone := hdeletes.cons hnext deletedAny
            obtain _ | ⟨removal, removals⟩ := removals
            · exact ⟨k + 1, hone⟩
            · cases removal with
              | none => exact ⟨k + 1, hone⟩
              | some reason => exact ⟨0, deletesFront_failed _ dir _ _⟩
          · rw [if_neg hnext]
            refine ⟨0, deletesFront_none ?_ dir deletedAny⟩
            unfold retainedSegments
            rw [Retention.retained, if_neg hnext]

theorem pruneLoop_ok (boundarySeq : UInt64) (segs : List SegmentFile)
    {removals : List (Option String)}
    (hall : ∀ removal ∈ removals, removal = none) (dir : Dir)
    (deletedAny : Bool) :
    ∃ result,
      (pruneLoop boundarySeq segs removals dir deletedAny).2 = .ok result := by
  induction segs generalizing removals dir deletedAny with
  | nil => exact ⟨deletedAny, rfl⟩
  | cons segment rest ih =>
      cases rest with
      | nil => exact ⟨deletedAny, rfl⟩
      | cons next rest =>
          unfold pruneLoop
          by_cases hnext : next.first ≤ boundarySeq
          · rw [if_pos hnext]
            have htail : ∀ removal ∈ removals.tail, removal = none :=
              fun removal hmem => hall removal (List.mem_of_mem_tail hmem)
            have hrest := ih htail (dir.remove segment.name) true
            obtain _ | ⟨removal, removals⟩ := removals
            · exact hrest
            · obtain rfl := hall removal List.mem_cons_self
              exact hrest
          · rw [if_neg hnext]
            exact ⟨deletedAny, rfl⟩

variable {crates}

/-- Pruning deletes segments from the front.  Where it succeeds, these are all
that retention asks for, and the anchor is read from what is left. -/
theorem pruneBefore_spec (dir : Dir) (boundarySeq : UInt64)
    (removals : List (Option String)) :
    ∃ k, (pruneBefore crates dir boundarySeq removals).1 =
        dir.removeAll ((listSegments dir).take k) ∧
      retainedSegments boundarySeq (listSegments dir) <:+
        (listSegments dir).drop k ∧
      (∀ result, (pruneBefore crates dir boundarySeq removals).2 = .ok result →
        retainedSegments boundarySeq (listSegments dir) =
            (listSegments dir).drop k ∧
          result = if 0 < k then
            anchorBefore crates (dir.removeAll ((listSegments dir).take k))
          else none) ∧
      ((∀ removal ∈ removals, removal = none) →
        ∃ result, (pruneBefore crates dir boundarySeq removals).2 =
          .ok result) := by
  unfold pruneBefore
  by_cases hshort : (listSegments dir).length ≤ 1
  · refine ⟨0, ?_, List.drop_zero ▸ Retention.retained_suffix _, ?_, ?_⟩
    · simp only [if_pos hshort]
      rfl
    · intro result hresult
      simp only [if_pos hshort, Except.ok.injEq] at hresult
      refine ⟨?_, hresult.symm⟩
      have hwhole := Retention.retained_suffix
        (p := fun segment : SegmentFile => segment.first ≤ boundarySeq)
        (listSegments dir)
      unfold retainedSegments
      obtain hnil | hone := Nat.le_one_iff_eq_zero_or_eq_one.mp hshort
      · rw [List.length_eq_zero_iff.mp hnil]
        rfl
      · obtain ⟨segment, hsegment⟩ := List.length_eq_one_iff.mp hone
        rw [hsegment]
        rfl
    · intro _
      exact ⟨none, by simp only [if_pos hshort]⟩
  · obtain ⟨k, hdir, hsuffix, hok⟩ := pruneLoop_spec boundarySeq
      (listSegments dir) removals dir false
    have htotal : (∀ removal ∈ removals, removal = none) → ∃ result,
        (pruneLoop boundarySeq (listSegments dir) removals dir false).2 =
          .ok result :=
      fun hall => pruneLoop_ok boundarySeq (listSegments dir) hall dir false
    simp only [if_neg hshort]
    cases hloop : pruneLoop boundarySeq (listSegments dir) removals dir false with
    | mk dir' result =>
        rw [hloop] at hdir hok htotal
        obtain rfl : dir' = dir.removeAll ((listSegments dir).take k) := hdir
        refine ⟨k, ?_, hsuffix, ?_, ?_⟩
        · rcases result with err | deleted | deleted <;> rfl
        · intro anchor hanchor
          cases result with
          | error err => simp at hanchor
          | ok deleted =>
              obtain ⟨hretained, hdeleted⟩ := hok deleted rfl
              refine ⟨hretained, ?_⟩
              by_cases hk : 0 < k
              · obtain rfl : deleted = true := by simpa [hk] using hdeleted
                rw [if_pos hk]
                simpa using hanchor.symm
              · obtain rfl : deleted = false := by simpa [hk] using hdeleted
                rw [if_neg hk]
                simpa using hanchor.symm
        · intro hall
          obtain ⟨deleted, hdeleted⟩ := htotal hall
          obtain rfl : result = .ok deleted := hdeleted
          cases deleted with
          | false => exact ⟨none, rfl⟩
          | true => exact ⟨_, rfl⟩

/-- Pruning cuts the listing in two.  Each deleted segment has a successor that
starts at the boundary at the latest; where pruning succeeds, the first segment
that stays is the last or has one that starts behind it. -/
theorem pruneBefore_cut {dir : Dir} (hne : listSegments dir ≠ [])
    (boundarySeq : UInt64) (removals : List (Option String)) :
    ∃ k, k < (listSegments dir).length ∧
      (pruneBefore crates dir boundarySeq removals).1 =
        dir.removeAll ((listSegments dir).take k) ∧
      (∀ i < k, ∃ h : i + 1 < (listSegments dir).length,
        (listSegments dir)[i + 1].first ≤ boundarySeq) ∧
      (∀ result, (pruneBefore crates dir boundarySeq removals).2 = .ok result →
        (∀ h : k + 1 < (listSegments dir).length,
            ¬(listSegments dir)[k + 1].first ≤ boundarySeq) ∧
          result = if 0 < k then
            anchorBefore crates (dir.removeAll ((listSegments dir).take k))
          else none) ∧
      ((∀ removal ∈ removals, removal = none) →
        ∃ result, (pruneBefore crates dir boundarySeq removals).2 =
          .ok result) := by
  obtain ⟨k, hdir, hsuffix, hok, htotal⟩ :=
    pruneBefore_spec dir boundarySeq removals
  obtain ⟨m, hretained, hbefore, hafter⟩ := Retention.exists_retained_eq_drop
    (p := fun segment : SegmentFile => segment.first ≤ boundarySeq)
    (listSegments dir)
  have hretained : retainedSegments boundarySeq (listSegments dir) =
      (listSegments dir).drop m := hretained
  have hm : m < (listSegments dir).length := by
    have hleft : (listSegments dir).drop m ≠ [] := by
      rw [← hretained]
      exact Retention.retained_ne_nil hne
    rw [Ne, List.drop_eq_nil_iff] at hleft
    omega
  have hk : k ≤ m := by
    have hlength := hsuffix.length_le
    rw [hretained, List.length_drop, List.length_drop] at hlength
    omega
  refine ⟨k, by omega, hdir, fun i hi => hbefore i (by omega), ?_, htotal⟩
  intro result hresult
  obtain ⟨hwhole, hanchor⟩ := hok result hresult
  have hmk : m = k := by
    have hlength := congrArg List.length (hretained.symm.trans hwhole)
    rw [List.length_drop, List.length_drop] at hlength
    omega
  exact ⟨hmk ▸ hafter, hanchor⟩

/-! ## The listing after a deletion -/

theorem listSegments_removeAll (dir : Dir) (segs : List SegmentFile) :
    listSegments (dir.removeAll segs) =
      (listSegments dir).filter fun segment =>
        segment.name ∉ segs.map SegmentFile.name := by
  induction segs generalizing dir with
  | nil => simp [Dir.removeAll]
  | cons first segs ih =>
      have hstep : dir.removeAll (first :: segs) =
          (dir.remove first.name).removeAll segs := rfl
      rw [hstep, ih, listSegments_remove, List.filter_filter]
      apply List.filter_congr
      intro segment _
      rw [List.map_cons, ← Bool.decide_and]
      apply decide_eq_decide.mpr
      rw [List.mem_cons, not_or]
      exact and_comm

theorem listSegments_removeAll_take {dir : Dir}
    (hnames : (dir.map Prod.fst).Nodup) (k : ℕ) :
    listSegments (dir.removeAll ((listSegments dir).take k)) =
      (listSegments dir).drop k := by
  rw [listSegments_removeAll,
    Retention.filter_notMem_take (nodup_listSegments hnames)]

theorem remove_segmentDir_cons {file : UInt64 × Bytes}
    {files : List (UInt64 × Bytes)} (hnew : file.1 ∉ files.map Prod.fst) :
    (segmentDir (file :: files)).remove (segmentName file.1) =
      segmentDir files := by
  unfold Dir.remove segmentDir
  rw [List.map_cons, List.filter_cons_of_neg (by simp), List.filter_eq_self]
  intro other hother
  obtain ⟨⟨first, content⟩, hmem, rfl⟩ := List.mem_map.mp hother
  have hne : segmentName first ≠ segmentName file.1 := fun heq =>
    hnew (List.mem_map.mpr ⟨_, hmem, segmentName_injective heq⟩)
  simpa using hne

theorem removeAll_segmentDir {files : List (UInt64 × Bytes)}
    (hsorted : (files.map Prod.fst).Pairwise (· < ·)) (k : ℕ) :
    (segmentDir files).removeAll ((listSegments (segmentDir files)).take k) =
      segmentDir (files.drop k) := by
  rw [listSegments_segmentDir hsorted]
  induction files generalizing k with
  | nil => simp [Dir.removeAll]
  | cons file files ih =>
      cases k with
      | zero => rfl
      | succ k =>
          rw [List.map_cons, List.pairwise_cons] at hsorted
          have hnew : file.1 ∉ files.map Prod.fst := fun hmem =>
            UInt64.lt_irrefl _ (hsorted.1 file.1 hmem)
          rw [List.map_cons, List.take_succ_cons, List.drop_succ_cons,
            ← ih hsorted.2 k]
          unfold Dir.removeAll
          rw [List.foldl_cons, remove_segmentDir_cons hnew]

theorem pruneBefore_pair {first second : UInt64 × Bytes} {boundarySeq : UInt64}
    (hsorted : first.1 < second.1) (hle : second.1 ≤ boundarySeq) :
    pruneBefore crates (segmentDir [first, second]) boundarySeq [] =
      (segmentDir [second], .ok (anchorBefore crates (segmentDir [second]))) := by
  have hpair : ([first, second].map Prod.fst).Pairwise (· < ·) := by
    simpa using hsorted
  have hnew : first.1 ∉ [second].map Prod.fst := by
    intro hmem
    rw [List.map_singleton, List.mem_singleton] at hmem
    rw [hmem] at hsorted
    exact UInt64.lt_irrefl _ hsorted
  unfold pruneBefore
  rw [listSegments_segmentDir hpair]
  simp only [List.map_cons, List.map_nil, List.length_cons, List.length_nil,
    pruneLoop, if_pos hle, remove_segmentDir_cons hnew]
  rfl

end Chainlog
