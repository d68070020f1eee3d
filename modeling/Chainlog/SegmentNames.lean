import Chainlog.Listing
import Chainlog.NewestTail

/-!
# Segment names

Names of segments order as their numbers do.  The parser also takes numbers
that `segment_name` writes otherwise: `open` counts the entries of the file it
has listed and appends to the file of the canonical name, so the two are one
file only where the listed name is the canonical one.
-/

namespace Chainlog

/-- Thirty characters without a sign: of the names with a number, those that
write it with twenty digits. -/
def FullWidth (name : String) : Prop :=
  name.length = 30 ∧ '+' ∉ name.toList

instance : DecidablePred FullWidth := fun _ => inferInstanceAs (Decidable (_ ∧ _))

theorem toNat_lt_twenty_digits (n : UInt64) : n.toNat < 10 ^ 20 := by
  have hbound := n.toNat_lt
  omega

theorem length_zeroPadded (n : UInt64) : (zeroPadded n).length = 20 :=
  Decimal.length_pad (by decide) (toNat_lt_twenty_digits n)

theorem segmentName_lt_iff (m n : UInt64) :
    segmentName m < segmentName n ↔ m < n := by
  have hlength : (zeroPadded m).length = (zeroPadded n).length := by
    rw [length_zeroPadded, length_zeroPadded]
  rw [String.lt_iff, toList_segmentName, toList_segmentName,
    Decimal.append_lt_append_iff segPrefix segSuffix hlength,
    zeroPadded_eq_pad, zeroPadded_eq_pad,
    Decimal.pad_lt_pad_iff (by decide) (toNat_lt_twenty_digits m)
      (toNat_lt_twenty_digits n)]
  exact UInt64.lt_iff_toNat_lt.symm

/-! ## The accepted names -/

theorem parseU64_eq_some {text : List Char} {n : UInt64}
    (h : parseU64 text = some n) :
    ∃ digits, (text = digits ∨ text = '+' :: digits) ∧
      Decimal.Numeral digits ∧ Decimal.value digits = n.toNat := by
  unfold parseU64 at h
  extract_lets digits at h
  have hsign : text = digits ∨ text = '+' :: digits := by
    unfold digits
    split
    · exact Or.inr rfl
    · exact Or.inl rfl
  split_ifs at h with hdigits
  obtain ⟨_, hall, hfits⟩ := hdigits
  obtain rfl := Option.some.inj h
  refine ⟨digits, hsign, List.all_eq_true.mp hall, ?_⟩
  rw [UInt64.toNat_ofNat_of_lt' hfits]
  rfl

theorem parseSegmentFirstSeq_eq_some {name : String} {n : UInt64}
    (h : parseSegmentFirstSeq name = some n) :
    ∃ text, name.toList = segPrefix ++ (text ++ segSuffix) ∧
      parseU64 text = some n := by
  simp only [parseSegmentFirstSeq, Option.bind_eq_bind,
    Option.bind_eq_some_iff] at h
  obtain ⟨rest, hrest, text, htext, hnumber⟩ := h
  refine ⟨text, ?_, hnumber⟩
  rw [stripPrefix_eq_some hrest, stripSuffix_eq_some htext]

theorem plus_notMem_of_numeral {digits : List Char}
    (h : Decimal.Numeral digits) :
    '+' ∉ segPrefix ++ (digits ++ segSuffix) := by
  have hdigits : '+' ∉ digits := fun hmem =>
    absurd (h '+' hmem) (by decide)
  simp [segPrefix, segSuffix, hdigits]

/-- An accepted name is the canonical one of its number exactly if it has the
width of one and no sign. -/
theorem eq_segmentName_iff {name : String} {n : UInt64}
    (hparse : parseSegmentFirstSeq name = some n) :
    name = segmentName n ↔ FullWidth name := by
  obtain ⟨text, hname, hnumber⟩ := parseSegmentFirstSeq_eq_some hparse
  have hcanonical : name = segmentName n ↔ text = zeroPadded n := by
    rw [← String.toList_inj, hname, toList_segmentName,
      List.append_cancel_left_eq, List.append_cancel_right_eq]
  obtain ⟨digits, hsign, hdigits, hvalue⟩ := parseU64_eq_some hnumber
  rcases hsign with rfl | rfl
  · have hlength : name.length = text.length + 10 := by
      rw [← String.length_toList, hname]
      simp only [List.length_append, segPrefix, segSuffix, List.length_cons,
        List.length_nil]
      omega
    have hfits : Decimal.value text < 10 ^ 20 := by
      rw [hvalue]
      exact toNat_lt_twenty_digits n
    have hpad := Decimal.eq_pad_iff (by decide) hdigits hfits
    rw [hvalue] at hpad
    have hplus := plus_notMem_of_numeral hdigits
    rw [← hname] at hplus
    rw [hcanonical, zeroPadded_eq_pad, hpad, FullWidth, hlength]
    constructor
    · intro h
      exact ⟨by omega, hplus⟩
    · rintro ⟨h, _⟩
      omega
  · -- A sign is accepted, but it is never written.
    have hplus : '+' ∈ name.toList := by simp [hname]
    have hnot : name ≠ segmentName n := by
      rintro rfl
      rw [toList_segmentName] at hplus
      exact plus_notMem_of_numeral (Decimal.numeral_pad 20 n.toNat) hplus
    constructor
    · exact fun h => absurd h hnot
    · exact fun h => absurd hplus h.2

/-! ## Opening -/

variable (crates : Crates)

/-- `open` takes the number and the count from the last listed segment and
appends to the file that `segment_name` gives for the number. -/
theorem SegmentedStore.openPath_last {dir : Dir} {maxEntries : ℕ}
    {store : SegmentedStore} {last : SegmentFile}
    (hopen : openPath crates maxEntries (.directory dir) = .ok store)
    (hlast : (listSegments dir).getLast? = some last) :
    store.file = segmentName last.first ∧
      ∃ entries, readFile crates last.node = .ok entries ∧
        store.curCount = entries.length := by
  obtain ⟨_, _, hfile, _, hresume⟩ := openPath_directory_eq_ok crates hopen
  obtain ⟨segments, hsegments⟩ := List.getLast?_eq_some_iff.mp hlast
  rw [hsegments] at hresume
  cases hread : readFile crates last.node with
  | error err => simp [resume, hread, bind, Except.bind] at hresume
  | ok entries =>
      rw [resume_snoc crates segments hread] at hresume
      have hfound := Except.ok.inj hresume
      have hfirst : last.first = store.curFirst :=
        congrArg (fun found => found.1) hfound
      have hcount : entries.length = store.curCount :=
        congrArg (fun found => found.2.1) hfound
      rw [hfile, hfirst]
      exact ⟨rfl, entries, rfl, hcount.symm⟩

/-- Names are read back and order as their numbers.  An accepted name, and
with it the file whose entries `open` counts, is the one that is written
exactly if it has full width. -/
theorem segmentNames_canonical_iff :
    (∀ n, parseSegmentFirstSeq (segmentName n) = some n) ∧
    (∀ m n, m < n ↔ segmentName m < segmentName n) ∧
    (∀ name n, parseSegmentFirstSeq name = some n →
      (name = segmentName n ↔ FullWidth name)) ∧
    ∀ (dir : Dir) maxEntries (store : SegmentedStore) (last : SegmentFile),
      SegmentedStore.openPath crates maxEntries (.directory dir) = .ok store →
      (listSegments dir).getLast? = some last →
      (∃ entries, readFile crates last.node = .ok entries ∧
        store.curCount = entries.length) ∧
      (store.file = last.name ↔ FullWidth last.name) := by
  refine ⟨parseSegmentFirstSeq_segmentName,
    fun m n => (segmentName_lt_iff m n).symm, fun _ _ => eq_segmentName_iff,
    ?_⟩
  intro dir maxEntries store last hopen hlast
  obtain ⟨hfile, hcount⟩ :=
    SegmentedStore.openPath_last crates hopen hlast
  refine ⟨hcount, ?_⟩
  have hparse := (mem_listSegments.mp (List.mem_of_getLast? hlast)).2
  rw [hfile, eq_comm]
  exact eq_segmentName_iff hparse

theorem listSegments_single {name : String} {n : UInt64} (node : FileNode)
    (hparse : parseSegmentFirstSeq name = some n) :
    listSegments [(name, node)] = [{ first := n, name, node }] := by
  simp [listSegments, hparse]

theorem openPath_single {name : String} {n : UInt64} {content : Bytes}
    (hparse : parseSegmentFirstSeq name = some n) {entries : List AuditEntry}
    (hread : readFile crates (.readable content) = .ok entries) :
    ∃ store, SegmentedStore.openPath crates 2
      (.directory [(name, .readable content)]) = .ok store := by
  have hresume : ∃ tail, SegmentedStore.resume crates
      [{ first := n, name, node := .readable content }] =
        .ok (n, entries.length, tail) :=
    ⟨_, resume_snoc crates [] hread⟩
  obtain ⟨tail, hresume⟩ := hresume
  simp only [SegmentedStore.openPath, listSegments_single _ hparse, hresume,
    bind, Except.bind, pure, Except.pure]
  by_cases hname : name = segmentName n
  · simp [Dir.find, hname, openAppend]
  · simp [Dir.find, hname, openAppend]

theorem segmentNames_canonical_iff_padded :
    "seg-00000000000000000007.jsonl" = segmentName 7 ∧
      ∃ store, SegmentedStore.openPath referenceCrates 2
          (.directory [("seg-00000000000000000007.jsonl", .readable [])]) =
        .ok store ∧
        store.curCount = 0 ∧ store.file = "seg-00000000000000000007.jsonl" := by
  have hparse : parseSegmentFirstSeq "seg-00000000000000000007.jsonl" =
      some 7 := by decide
  have hread : readFile referenceCrates (.readable []) = .ok [] := rfl
  obtain ⟨_, _, hname, hopened⟩ := segmentNames_canonical_iff referenceCrates
  obtain ⟨store, hopen⟩ := openPath_single referenceCrates hparse hread
  obtain ⟨⟨entries, hentries, hcount⟩, hfile⟩ := hopened _ _ store
    { first := 7, name := "seg-00000000000000000007.jsonl"
      node := .readable [] } hopen (by rw [listSegments_single _ hparse]; rfl)
  obtain rfl := Except.ok.inj (hread.symm.trans hentries)
  exact ⟨(hname _ 7 hparse).mpr (by decide), store, hopen, hcount,
    hfile.mpr (by decide)⟩

/-- A segment named `seg-1.jsonl` is listed and counted; the next entry goes
to a new file. -/
theorem open_counts_other_file :
    let content := entryLine referenceCrates
      (referenceEntry 1 none genesisPrevHash)
    parseSegmentFirstSeq "seg-1.jsonl" = some 1 ∧
      "seg-1.jsonl" ≠ segmentName 1 ∧
      ∃ store, SegmentedStore.openPath referenceCrates 2
          (.directory [("seg-1.jsonl", .readable content)]) = .ok store ∧
        store.curCount = 1 ∧ store.file ≠ "seg-1.jsonl" ∧
        store.dir.content store.file = [] := by
  intro content
  have hparse : parseSegmentFirstSeq "seg-1.jsonl" = some 1 := by decide
  have hname : "seg-1.jsonl" ≠ segmentName 1 := by decide
  have hread : readFile referenceCrates (.readable content) =
      .ok [referenceEntry 1 none genesisPrevHash] := by
    rw [readFile_entryLine, Engine.parsesBack_of_plain rfl rfl]
  obtain ⟨store, hopen⟩ := openPath_single referenceCrates hparse hread
  have hlast : (listSegments [("seg-1.jsonl", .readable content)]).getLast? =
      some { first := 1, name := "seg-1.jsonl", node := .readable content } := by
    rw [listSegments_single _ hparse]
    rfl
  obtain ⟨hfile, entries, hentries, hcount⟩ :=
    SegmentedStore.openPath_last referenceCrates hopen hlast
  obtain rfl := Except.ok.inj (hread.symm.trans hentries)
  obtain ⟨_, _, _, hdir, _⟩ :=
    SegmentedStore.openPath_directory_eq_ok referenceCrates hopen
  refine ⟨hparse, hname, store, hopen, hcount, ?_, ?_⟩
  · rw [hfile]
    exact hname.symm
  · rw [hdir, hfile]
    simp [Dir.create, Dir.content, Dir.find, hname]

end Chainlog
