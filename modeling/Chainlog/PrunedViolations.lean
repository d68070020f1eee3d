import Chainlog.CrashPoints
import Chainlog.RetainedFiles

/-!
# What pruning hides

The anchor of a pruned directory is read off the first entry that is left, so
the verifier finds nothing wrong with how that entry continues the deleted ones.
Every other violation at an entry that is left is reported as before.
-/

namespace Chainlog

/-- A violation of that kind is reported for that sequence number. -/
def Reports (violations : List Violation) (seq : UInt64)
    (kind : ViolationKind) : Prop :=
  ∃ v ∈ violations, v.seq = seq ∧ v.kind = kind

/-- How an entry can fail to continue the chain behind `p`. -/
def LinkFault (p entry : AuditEntry) : ViolationKind → Prop
  | .brokenLink => entry.prevHash ≠ p.entryHash
  | .sequenceGap => entry.seq ≠ p.seq + 1
  | _ => False

/-- How an entry can fail to start a chain. -/
def GenesisFault (entry : AuditEntry) : ViolationKind → Prop
  | .badGenesis => entry.prevHash ≠ genesisPrevHash
  | .sequenceGap => entry.seq ≠ 1
  | _ => False

/-- How the first entry that is left can fail to continue the deleted ones. -/
def CutFault (deleted : List AuditEntry) (first : AuditEntry) :
    ViolationKind → Prop :=
  match deleted.getLast? with
  | some p => LinkFault p first
  | none => GenesisFault first

/-- A later entry with the sequence number of the first one has the fault. -/
def FaultRecurs (first : AuditEntry) (rest : List AuditEntry)
    (kind : ViolationKind) : Prop :=
  ∃ before p entry after, first :: rest = before ++ p :: entry :: after ∧
    entry.seq = first.seq ∧ LinkFault p entry kind

variable (crates : Crates)

/-! ## The violations of an entry -/

theorem reports_append {left right : List Violation} {seq : UInt64}
    {kind : ViolationKind} :
    Reports (left ++ right) seq kind ↔
      Reports left seq kind ∨ Reports right seq kind := by
  unfold Reports
  simp only [List.mem_append, or_and_right, exists_or]

theorem reports_ite {p : Prop} [Decidable p] {v : Violation} {seq : UInt64}
    {kind : ViolationKind} :
    Reports (if p then [v] else []) seq kind ↔
      p ∧ v.seq = seq ∧ v.kind = kind := by
  unfold Reports
  by_cases hp : p
  · simp [hp]
  · simp [hp]

theorem reports_linkViolations {p entry : AuditEntry} {seq : UInt64}
    {kind : ViolationKind} :
    Reports (linkViolations p entry) seq kind ↔
      entry.seq = seq ∧ LinkFault p entry kind := by
  unfold linkViolations
  rw [reports_append, reports_ite, reports_ite]
  cases kind <;> simp [LinkFault, and_comm]

theorem reports_startViolations_none {entry : AuditEntry} {seq : UInt64}
    {kind : ViolationKind} :
    Reports (startViolations none entry) seq kind ↔
      entry.seq = seq ∧ GenesisFault entry kind := by
  unfold startViolations
  rw [reports_append, reports_ite, reports_ite]
  cases kind <;> simp [GenesisFault, and_comm]

theorem reports_contentViolations {entry : AuditEntry} {seq : UInt64}
    {kind : ViolationKind}
    (h : Reports (contentViolations crates entry) seq kind) :
    kind = .badHash := by
  unfold contentViolations at h
  rw [reports_ite] at h
  exact h.2.2.symm

/-! ## The violations of a list -/

/-- Faults of linkage are reported where two neighbours do not fit. -/
theorem reports_violationsFrom_some {anchor : Option Anchor}
    {first : AuditEntry} {rest : List AuditEntry} {seq : UInt64}
    {kind : ViolationKind} (hkind : kind ≠ .badHash) :
    Reports (violationsFrom crates anchor (some first) rest) seq kind ↔
      ∃ before p entry after, first :: rest = before ++ p :: entry :: after ∧
        entry.seq = seq ∧ LinkFault p entry kind := by
  induction rest generalizing first with
  | nil =>
      constructor
      · rintro ⟨v, hv, _⟩
        simp [violationsFrom] at hv
      · rintro ⟨before, p, entry, after, heq, _⟩
        have hlength := congrArg List.length heq
        simp at hlength
        omega
  | cons next rest ih =>
      rw [violationsFrom_cons_some, reports_append, reports_append,
        reports_linkViolations, ih]
      constructor
      · rintro ((hcontent | hlink) | ⟨before, p, entry, after, heq, hfault⟩)
        · exact absurd (reports_contentViolations crates hcontent) hkind
        · exact ⟨[], first, next, rest, rfl, hlink⟩
        · exact ⟨first :: before, p, entry, after, by rw [heq]; rfl, hfault⟩
      · rintro ⟨before, p, entry, after, heq, hfault⟩
        cases before with
        | nil =>
            obtain ⟨rfl, hrest⟩ := List.cons.inj heq
            obtain ⟨rfl, _⟩ := List.cons.inj hrest
            exact Or.inl (Or.inr hfault)
        | cons e before =>
            obtain ⟨_, hrest⟩ := List.cons.inj heq
            exact Or.inr ⟨before, p, entry, after, hrest, hfault⟩

/-! ## The cut -/

variable {crates}

/-- What the verifier reports at the entries that are left, before and after
the deletion. -/
theorem violations_at_cut {anchor : Anchor} {deleted rest : List AuditEntry}
    {first : AuditEntry} (hseq : first.seq = anchor.seq + 1)
    (hhash : first.prevHash = anchor.hash) {seq : UInt64}
    {kind : ViolationKind} :
    Reports (violationsFrom crates none deleted.getLast? (first :: rest)) seq
        kind ↔
      Reports (verifyEntriesFrom crates (some anchor)
          (first :: rest)).violations seq kind ∨
        first.seq = seq ∧ CutFault deleted first kind := by
  have hstart : startViolations (some anchor) first = [] :=
    (startViolations_eq_nil (some anchor) first).mpr ⟨hseq, hhash⟩
  have hafter : (verifyEntriesFrom crates (some anchor)
      (first :: rest)).violations = contentViolations crates first ++
        violationsFrom crates none (some first) rest := by
    rw [verifyEntriesFrom_eq]
    show violationsFrom crates (some anchor) none (first :: rest) = _
    rw [violationsFrom_cons_none, hstart, List.append_nil,
      violationsFrom_some crates (some anchor) none first rest]
  rw [hafter, reports_append]
  unfold CutFault
  cases deleted.getLast? with
  | none =>
      rw [violationsFrom_cons_none, reports_append, reports_append,
        reports_startViolations_none]
      exact or_right_comm
  | some p =>
      rw [violationsFrom_cons_some, reports_append, reports_append,
        reports_linkViolations]
      exact or_right_comm

/-- Exactly the faults at the cut that do not recur are hidden. -/
theorem violations_kept_iff {anchor : Anchor} {deleted rest : List AuditEntry}
    {first : AuditEntry} (hseq : first.seq = anchor.seq + 1)
    (hhash : first.prevHash = anchor.hash) :
    (∀ v ∈ violationsFrom crates none deleted.getLast? (first :: rest),
        Reports (verifyEntriesFrom crates (some anchor)
          (first :: rest)).violations v.seq v.kind) ↔
      ∀ kind, CutFault deleted first kind → FaultRecurs first rest kind := by
  have hcut : ∀ kind, CutFault deleted first kind → kind ≠ .badHash := by
    rintro _ hfault rfl
    unfold CutFault at hfault
    cases hlast : deleted.getLast? with
    | none => rw [hlast] at hfault; exact hfault
    | some p => rw [hlast] at hfault; exact hfault
  have hrecurs : ∀ kind, kind ≠ .badHash →
      (Reports (verifyEntriesFrom crates (some anchor)
        (first :: rest)).violations first.seq kind ↔
          FaultRecurs first rest kind) := by
    intro kind hkind
    have hstart : startViolations (some anchor) first = [] :=
      (startViolations_eq_nil (some anchor) first).mpr ⟨hseq, hhash⟩
    rw [verifyEntriesFrom_eq]
    show Reports (violationsFrom crates (some anchor) none (first :: rest))
      first.seq kind ↔ _
    rw [violationsFrom_cons_none, hstart, List.append_nil, reports_append,
      reports_violationsFrom_some crates hkind]
    constructor
    · rintro (hcontent | hfault)
      · exact absurd (reports_contentViolations crates hcontent) hkind
      · exact hfault
    · exact Or.inr
  constructor
  · intro hkept kind hfault
    obtain ⟨v, hv, hvseq, hvkind⟩ :=
      (violations_at_cut hseq hhash).mpr (Or.inr ⟨rfl, hfault⟩)
    have hreport := hkept v hv
    rw [hvseq, hvkind] at hreport
    exact (hrecurs kind (hcut kind hfault)).mp hreport
  · intro hall v hv
    have hreport : Reports
        (violationsFrom crates none deleted.getLast? (first :: rest)) v.seq
          v.kind := ⟨v, hv, rfl, rfl⟩
    rcases (violations_at_cut hseq hhash).mp hreport with hkept | ⟨hvseq, hfault⟩
    · exact hkept
    · rw [← hvseq]
      exact (hrecurs v.kind (hcut v.kind hfault)).mpr (hall v.kind hfault)

/-- An anchor is named by the first entry that is left. -/
theorem exists_first_of_anchor {dir : Dir} (hnames : (dir.map Prod.fst).Nodup)
    {full : List AuditEntry}
    (hread : readSegments crates (listSegments dir) = .ok full)
    {boundarySeq : UInt64} {removals : List (Option String)} {anchor : Anchor}
    (hprune : (pruneBefore crates dir boundarySeq removals).2 =
      .ok (some anchor)) :
    ∃ deleted first rest, full = deleted ++ first :: rest ∧
      readSegments crates
          (listSegments (pruneBefore crates dir boundarySeq removals).1) =
        .ok (first :: rest) ∧
      first.seq = anchor.seq + 1 ∧ first.prevHash = anchor.hash := by
  obtain ⟨k, hdir, _, hok, _⟩ := @pruneBefore_spec crates dir boundarySeq removals
  obtain ⟨_, hanchor⟩ := hok _ hprune
  have hlist := listSegments_removeAll_take hnames k
  by_cases hk : 0 < k
  · rw [if_pos hk] at hanchor
    unfold anchorBefore at hanchor
    rw [hlist] at hanchor
    have hparts := hread
    rw [← List.take_append_drop k (listSegments dir)] at hparts
    obtain ⟨deleted, survivors, _, hsurvivors, hfull⟩ :=
      (readSegments_append_ok crates).mp hparts
    cases hdrop : (listSegments dir).drop k with
    | nil =>
        rw [hdrop] at hanchor
        cases hanchor
    | cons segment segs =>
        rw [hdrop] at hanchor hsurvivors
        obtain ⟨entries, others, hentries, hothers, rfl⟩ :=
          (readSegments_cons_ok crates).mp hsurvivors
        simp only [List.head?_cons, hentries, Except.toOption,
          Option.bind_eq_bind, Option.bind_some] at hanchor
        cases entries with
        | nil => cases hanchor
        | cons first entries =>
            simp only [List.head?_cons] at hanchor
            by_cases hbehind : 1 < first.seq
            · rw [if_pos hbehind] at hanchor
              obtain rfl := Option.some.inj hanchor
              refine ⟨deleted, first, entries ++ others, hfull.symm, ?_,
                (UInt64.sub_add_cancel first.seq 1).symm, rfl⟩
              rw [hdir, hlist, hdrop]
              exact (readSegments_cons_ok crates).mpr
                ⟨_, _, hentries, hothers, rfl⟩
            · rw [if_neg hbehind] at hanchor
              cases hanchor
  · rw [if_neg hk] at hanchor
    cases hanchor

/-- For every directory of readable segments and every prune that returns an
anchor: what the verifier reports at the entries that are left is reported again
from the anchor, exactly if every fault between the last deleted entry and the
first one left recurs at a later entry with the same number. -/
theorem prune_keeps_violations_iff (crates : Crates) {dir : Dir}
    (hnames : (dir.map Prod.fst).Nodup) {full : List AuditEntry}
    (hread : readSegments crates (listSegments dir) = .ok full)
    {boundarySeq : UInt64} {removals : List (Option String)} {anchor : Anchor}
    (hprune : (pruneBefore crates dir boundarySeq removals).2 =
      .ok (some anchor)) :
    ∃ deleted first rest, full = deleted ++ first :: rest ∧
      readSegments crates
          (listSegments (pruneBefore crates dir boundarySeq removals).1) =
        .ok (first :: rest) ∧
      (verifyEntries crates full).violations =
        (verifyEntries crates deleted).violations ++
          violationsFrom crates none deleted.getLast? (first :: rest) ∧
      ((∀ v ∈ violationsFrom crates none deleted.getLast? (first :: rest),
          Reports (verifyEntriesFrom crates (some anchor)
            (first :: rest)).violations v.seq v.kind) ↔
        ∀ kind, CutFault deleted first kind → FaultRecurs first rest kind) := by
  obtain ⟨deleted, first, rest, rfl, hafter, hseq, hhash⟩ :=
    exists_first_of_anchor hnames hread hprune
  refine ⟨deleted, first, rest, rfl, hafter, ?_, violations_kept_iff hseq hhash⟩
  rw [verifyEntries, verifyEntries, verifyEntriesFrom_eq, verifyEntriesFrom_eq]
  show violationsFrom crates none none (deleted ++ first :: rest) = _
  rw [violationsFrom_append, Option.or_none]

/-! ## A missing segment -/

theorem pruneBefore_gap {first third : AuditEntry} {dir : Dir}
    (hdir : dir = segmentDir [(1, entryLine crates first),
      (3, entryLine crates third)])
    (hfirst : ReadsAs crates (entryLine crates first) [first])
    (hthird : ReadsAs crates (entryLine crates third) [third])
    (hseq : third.seq = 3) :
    (dir.map Prod.fst).Nodup ∧
      readSegments crates (listSegments dir) = .ok [first, third] ∧
      (pruneBefore crates dir 3 []).2 =
        .ok (some { seq := 2, hash := third.prevHash }) ∧
      readSegments crates (listSegments (pruneBefore crates dir 3 []).1) =
        .ok [third] := by
  have hread : readFile crates (.readable (entryLine crates third)) =
      .ok [third] := hthird
  have hsorted : (1 : UInt64) < 3 := by decide
  have hpair : ([((1 : UInt64), entryLine crates first),
      (3, entryLine crates third)].map Prod.fst).Pairwise (· < ·) := by simp
  have hone : ([((3 : UInt64), entryLine crates third)].map
      Prod.fst).Pairwise (· < ·) := by simp
  have hprune : pruneBefore crates dir 3 [] =
      (segmentDir [(3, entryLine crates third)],
        .ok (some { seq := 2, hash := third.prevHash })) := by
    rw [hdir, pruneBefore_pair hsorted (UInt64.le_refl 3)]
    unfold anchorBefore
    rw [listSegments_segmentDir hone]
    simp only [List.map_cons, List.map_nil, List.head?_cons, hread,
      Except.toOption, Option.bind_eq_bind, Option.bind_some, hseq]
    rfl
  refine ⟨?_, ?_, by rw [hprune], ?_⟩
  · have hne : segmentName 1 ≠ segmentName 3 := fun heq =>
      absurd (segmentName_injective heq) (by decide)
    simpa [hdir, segmentDir] using hne
  · rw [hdir]
    exact readSegments_segmentDir hpair (.cons hfirst (.cons hthird .nil))
  · rw [hprune]
    exact readSegments_segmentDir hone (.cons hthird .nil)

theorem readsAs_referenceEntry (seq : UInt64) (prevHash : String) :
    ReadsAs referenceCrates
      (entryLine referenceCrates (referenceEntry seq none prevHash))
      [referenceEntry seq none prevHash] := by
  have hparse : decodeEntry referenceCrates (entryText referenceCrates
      (referenceEntry seq none prevHash)) =
        .ok (referenceEntry seq none prevHash) :=
    Engine.parsesBack_of_plain rfl rfl
  rw [ReadsAs, readFile_entryLine, hparse]

noncomputable def firstOfThree : AuditEntry :=
  referenceEntry 1 none genesisPrevHash

noncomputable def thirdOfThree : AuditEntry :=
  referenceEntry 3 none (referenceEntry 2 none firstOfThree.entryHash).entryHash

/-- Three entries in segments of one, the second of which was removed. -/
noncomputable def gappedDir : Dir :=
  segmentDir [(1, entryLine referenceCrates firstOfThree),
    (3, entryLine referenceCrates thirdOfThree)]

theorem gappedDir_spec :
    (gappedDir.map Prod.fst).Nodup ∧
      readSegments referenceCrates (listSegments gappedDir) =
        .ok [firstOfThree, thirdOfThree] ∧
      (pruneBefore referenceCrates gappedDir 3 []).2 =
        .ok (some { seq := 2, hash := thirdOfThree.prevHash }) ∧
      readSegments referenceCrates
          (listSegments (pruneBefore referenceCrates gappedDir 3 []).1) =
        .ok [thirdOfThree] :=
  pruneBefore_gap rfl (readsAs_referenceEntry 1 _) (readsAs_referenceEntry 3 _)
    rfl

theorem prune_keeps_violations_iff_gapped :
    ∃ deleted first rest,
      [firstOfThree, thirdOfThree] = deleted ++ first :: rest ∧
      ((∀ v ∈ violationsFrom referenceCrates none deleted.getLast?
          (first :: rest),
        Reports (verifyEntriesFrom referenceCrates
          (some { seq := 2, hash := thirdOfThree.prevHash })
            (first :: rest)).violations v.seq v.kind) ↔
        ∀ kind, CutFault deleted first kind → FaultRecurs first rest kind) := by
  obtain ⟨hnames, hread, hprune, _⟩ := gappedDir_spec
  obtain ⟨deleted, first, rest, hfull, _, _, hiff⟩ :=
    prune_keeps_violations_iff referenceCrates hnames hread hprune
  exact ⟨deleted, first, rest, hfull, hiff⟩

/-- Pruning at the gap hides it: the verifier reports the missing segment
before, and nothing afterwards. -/
theorem prune_hides_gap :
    (gappedDir.map Prod.fst).Nodup ∧ readSegments referenceCrates (listSegments gappedDir) =
        .ok [firstOfThree, thirdOfThree] ∧
      Reports (verifyEntries referenceCrates
        [firstOfThree, thirdOfThree]).violations 3 .sequenceGap ∧
      (pruneBefore referenceCrates gappedDir 3 []).2 =
        .ok (some { seq := 2, hash := thirdOfThree.prevHash }) ∧
      readSegments referenceCrates
          (listSegments (pruneBefore referenceCrates gappedDir 3 []).1) =
        .ok [thirdOfThree] ∧
      (verifyEntriesFrom referenceCrates
        (some { seq := 2, hash := thirdOfThree.prevHash })
          [thirdOfThree]).violations = [] := by
  obtain ⟨hnames, hread, hprune, hafter⟩ := gappedDir_spec
  refine ⟨hnames, hread, ?_, hprune, hafter, ?_⟩
  · have hlink : Reports (linkViolations firstOfThree thirdOfThree) 3
        .sequenceGap := by
      rw [reports_linkViolations]
      exact ⟨rfl, show (3 : UInt64) ≠ 1 + 1 by decide⟩
    obtain ⟨v, hv, hvseq, hvkind⟩ := hlink
    refine ⟨v, ?_, hvseq, hvkind⟩
    rw [verifyEntries, verifyEntriesFrom_eq]
    show v ∈ violationsFrom referenceCrates none none _
    rw [violationsFrom_cons_none, violationsFrom_cons_some]
    simp [hv]
  · have hvalid : (entryChain referenceCrates).Follows
        (chainStart (some { seq := 2, hash := thirdOfThree.prevHash }))
          [thirdOfThree] :=
      ⟨⟨rfl, rfl, sealed_referenceEntry 3 _⟩, trivial⟩
    rw [← verifyEntriesFrom_isValid, VerifyReport.isValid,
      List.isEmpty_iff] at hvalid
    exact hvalid

end Chainlog
