import Chainlog.Directory
import Chainlog.Foundation.Retention
import Chainlog.SegmentFiles

/-!
# The listing of a directory

`list_segments` takes the files whose names parse and sorts them by number.
The sort is stable, so the listing of a part of the directory is a part of the
listing.
-/

namespace Chainlog

theorem mem_listSegments {dir : Dir} {segment : SegmentFile} :
    segment ∈ listSegments dir ↔
      (segment.name, segment.node) ∈ dir ∧
        parseSegmentFirstSeq segment.name = some segment.first := by
  unfold listSegments
  rw [List.mem_insertionSort, List.mem_filterMap]
  constructor
  · rintro ⟨⟨name, node⟩, hfile, hsegment⟩
    obtain ⟨first, hfirst, rfl⟩ := Option.map_eq_some_iff.mp hsegment
    exact ⟨hfile, hfirst⟩
  · rintro ⟨hfile, hfirst⟩
    exact ⟨_, hfile, Option.map_eq_some_iff.mpr ⟨_, hfirst, rfl⟩⟩

theorem pairwise_listSegments (dir : Dir) :
    (listSegments dir).Pairwise fun s t => s.first ≤ t.first :=
  Retention.pairwise_insertionSort
    (r := fun s t : SegmentFile => s.first ≤ t.first)
    (fun _ _ _ => UInt64.le_trans)
    (fun s t => UInt64.le_total s.first t.first) _

/-- A file that `read_dir` lists first stands before all segments of its
number. -/
theorem listSegments_cons_segmentName (n : UInt64) (node : FileNode)
    (rest : Dir) :
    listSegments ((segmentName n, node) :: rest) =
      (listSegments rest).takeWhile (fun s => ¬n ≤ s.first) ++
        { first := n, name := segmentName n, node } ::
          (listSegments rest).dropWhile fun s => ¬n ≤ s.first := by
  unfold listSegments
  simp only [List.filterMap_cons, parseSegmentFirstSeq_segmentName,
    Option.map_some]
  exact List.insertionSort_cons_eq_take_drop
    (r := fun s t : SegmentFile => s.first ≤ t.first) _ _

theorem nodup_listSegments {dir : Dir} (hnames : (dir.map Prod.fst).Nodup) :
    ((listSegments dir).map SegmentFile.name).Nodup := by
  unfold listSegments
  rw [((List.perm_insertionSort _ _).map SegmentFile.name).nodup_iff]
  refine List.Nodup.sublist ?_ hnames
  induction dir with
  | nil => exact List.Sublist.refl _
  | cons file dir ih =>
      have ih := ih (List.nodup_cons.mp hnames).2
      cases hparse : parseSegmentFirstSeq file.1 with
      | none => simpa [hparse] using ih.cons file.1
      | some first => simpa [hparse] using ih.cons_cons file.1

/-! ## Changed directories -/

/-- Leaving files out of a directory leaves their segments out of the
listing. -/
theorem listSegments_filter (q : String → Bool) (dir : Dir) :
    listSegments (List.filter (fun file => q file.1) dir) =
      (listSegments dir).filter fun segment => q segment.name := by
  have hsort : ∀ segs : List SegmentFile,
      (segs.insertionSort fun a b => a.first ≤ b.first).filter
          (fun segment => q segment.name) =
        (segs.filter fun segment => q segment.name).insertionSort
          fun a b => a.first ≤ b.first := fun segs =>
    Retention.filter_insertionSort
      (r := fun a b : SegmentFile => a.first ≤ b.first)
      (fun _ _ _ => UInt64.le_trans)
      (fun a b => UInt64.le_total a.first b.first) _ segs
  unfold listSegments
  rw [hsort]
  congr 1
  induction dir with
  | nil => rfl
  | cons file dir ih =>
      cases hparse : parseSegmentFirstSeq file.1 with
      | none => by_cases hname : q file.1 <;> simpa [hname, hparse] using ih
      | some first =>
          by_cases hname : q file.1 <;> simpa [hname, hparse] using ih

theorem listSegments_remove (dir : Dir) (name : String) :
    listSegments (dir.remove name) =
      (listSegments dir).filter fun segment => segment.name ≠ name :=
  listSegments_filter (fun file => decide (file ≠ name)) dir

/-- The segment with a file's new content. -/
def SegmentFile.setContent (name : String) (content : Bytes)
    (segment : SegmentFile) : SegmentFile :=
  if segment.name = name then { segment with node := .readable content }
  else segment

theorem SegmentFile.setContent_of_ne {name : String} {content : Bytes}
    {s : SegmentFile} (h : s.name ≠ name) : s.setContent name content = s :=
  if_neg h

theorem SegmentFile.setContent_name (name : String) (content : Bytes)
    (s : SegmentFile) : (s.setContent name content).name = s.name := by
  unfold SegmentFile.setContent
  split_ifs <;> rfl

theorem listSegments_setContent (dir : Dir) (name : String) (content : Bytes) :
    listSegments (dir.setContent name content) =
      (listSegments dir).map (SegmentFile.setContent name content) := by
  have hfirst : ∀ s : SegmentFile,
      (s.setContent name content).first = s.first := by
    intro s
    unfold SegmentFile.setContent
    split_ifs <;> rfl
  unfold listSegments
  rw [List.map_insertionSort (r := fun s t : SegmentFile => s.first ≤ t.first)
    (s := fun s t : SegmentFile => s.first ≤ t.first)]
  · congr 1
    rw [List.map_filterMap, Dir.setContent, List.filterMap_map]
    apply List.filterMap_congr
    rintro ⟨file, node⟩ _
    by_cases hname : file = name
    · subst hname
      cases hparse : parseSegmentFirstSeq file <;>
        simp [SegmentFile.setContent, hparse]
    · cases hparse : parseSegmentFirstSeq file <;>
        simp [SegmentFile.setContent, hname, hparse]
  · intro s _ t _
    rw [hfirst, hfirst]

end Chainlog
