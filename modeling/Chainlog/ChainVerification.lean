import Chainlog.CanonicalEncoding
import Chainlog.Verify
import Chainlog.Foundation.HashChain

/-!
# The verifier as a chain checker

`verify_entries_from` reports no violation exactly when the entries continue a
hash-linked chain from genesis or from the anchor.  Cutting, extending and
comparing accepted lists then reduces to the chain library.
-/

namespace Chainlog

variable (crates : Crates)

/-- Audit entries as chained records. -/
def entryChain : HashChain.Shape AuditEntry UInt64 String Bytes where
  index := AuditEntry.seq
  link := AuditEntry.prevHash
  digest := AuditEntry.entryHash
  content := canonicalBytes crates
  hash := fun bytes => toHex (crates.blake3 bytes)
  next := fun seq => seq + 1

/-- What the first verified entry has to carry. -/
def chainStart : Option Anchor → UInt64 × String
  | some a => (a.seq + 1, a.hash)
  | none => (1, genesisPrevHash)

/-- What the verification loop has still to report, given its `prev`. -/
def violationsFrom (anchor : Option Anchor) :
    Option AuditEntry → List AuditEntry → List Violation
  | _, [] => []
  | prev, entry :: rest =>
      contentViolations crates entry ++
        (match prev with
          | none => startViolations anchor entry
          | some p => linkViolations p entry) ++
        violationsFrom anchor (some entry) rest

theorem violationsFrom_cons_none (anchor : Option Anchor) (entry : AuditEntry)
    (rest : List AuditEntry) :
    violationsFrom crates anchor none (entry :: rest) =
      contentViolations crates entry ++ startViolations anchor entry ++
        violationsFrom crates anchor (some entry) rest := rfl

theorem violationsFrom_cons_some (anchor : Option Anchor) (p entry : AuditEntry)
    (rest : List AuditEntry) :
    violationsFrom crates anchor (some p) (entry :: rest) =
      contentViolations crates entry ++ linkViolations p entry ++
        violationsFrom crates anchor (some entry) rest := rfl

/-- Behind a first entry the anchor plays no part. -/
theorem violationsFrom_some (anchor anchor' : Option Anchor) (p : AuditEntry)
    (entries : List AuditEntry) :
    violationsFrom crates anchor (some p) entries =
      violationsFrom crates anchor' (some p) entries := by
  induction entries generalizing p with
  | nil => rfl
  | cons entry rest ih =>
      rw [violationsFrom_cons_some, violationsFrom_cons_some, ih entry]

theorem violationsFrom_append (anchor : Option Anchor)
    (prev : Option AuditEntry) (left right : List AuditEntry) :
    violationsFrom crates anchor prev (left ++ right) =
      violationsFrom crates anchor prev left ++
        violationsFrom crates anchor (left.getLast?.or prev) right := by
  induction left generalizing prev with
  | nil => simp [violationsFrom]
  | cons entry rest ih =>
      have hlast : (entry :: rest).getLast?.or prev =
          rest.getLast?.or (some entry) := by
        cases rest with
        | nil => rfl
        | cons other rest => simp [List.getLast?_cons]
      rw [List.cons_append, hlast]
      cases prev with
      | none =>
          rw [violationsFrom_cons_none, violationsFrom_cons_none,
            ih (some entry), List.append_assoc _ _ (violationsFrom _ _ _ right)]
      | some p =>
          rw [violationsFrom_cons_some, violationsFrom_cons_some,
            ih (some entry), List.append_assoc _ _ (violationsFrom _ _ _ right)]

/-- `(seq, entry_hash)` of the last entry. -/
def lastHead (entries : List AuditEntry) : Option (UInt64 × String) :=
  entries.getLast?.map fun e => (e.seq, e.entryHash)

theorem foldl_walk_step (anchor : Option Anchor) (walk : Walk)
    (entries : List AuditEntry) :
    (entries.foldl (Walk.step crates anchor) walk).violations =
        walk.violations ++ violationsFrom crates anchor walk.prev entries ∧
      (entries.foldl (Walk.step crates anchor) walk).count =
        walk.count + entries.length ∧
      (entries.foldl (Walk.step crates anchor) walk).head =
        (lastHead entries).or walk.head := by
  induction entries generalizing walk with
  | nil => simp [violationsFrom, lastHead]
  | cons entry rest ih =>
      obtain ⟨hviolations, hcount, hhead⟩ := ih (walk.step crates anchor entry)
      rw [List.foldl_cons, hviolations, hcount, hhead]
      refine ⟨?_, ?_, ?_⟩
      · have hassoc (a b c d : List Violation) :
            a ++ b ++ c ++ d = a ++ (b ++ c ++ d) := by simp
        exact hassoc _ _ _ _
      · simp only [Walk.step, List.length_cons]
        omega
      · cases rest with
        | nil => simp [lastHead, Walk.step]
        | cons other rest =>
            simp [lastHead, List.getLast?_cons]

theorem verifyEntriesFrom_eq (anchor : Option Anchor)
    (entries : List AuditEntry) :
    verifyEntriesFrom crates anchor entries =
      { entriesChecked := entries.length
        violations := violationsFrom crates anchor none entries
        head := lastHead entries } := by
  obtain ⟨hviolations, hcount, hhead⟩ := foldl_walk_step crates anchor
    { violations := [], count := 0, prev := none, head := none } entries
  simp [verifyEntriesFrom, hviolations, hcount, hhead]

theorem contentViolations_eq_nil (entry : AuditEntry) :
    contentViolations crates entry = [] ↔ (entryChain crates).Sealed entry := by
  have hsealed : (entryChain crates).Sealed entry ↔
      entry.recomputeHash crates = entry.entryHash := Iff.rfl
  rw [hsealed]
  by_cases h : entry.recomputeHash crates = entry.entryHash
  · simp [contentViolations, h]
  · simp [contentViolations, h]

theorem startViolations_eq_nil (anchor : Option Anchor) (entry : AuditEntry) :
    startViolations anchor entry = [] ↔
      entry.seq = (chainStart anchor).1 ∧
        entry.prevHash = (chainStart anchor).2 := by
  cases anchor with
  | none => simp [startViolations, chainStart, and_comm]
  | some a => simp [startViolations, chainStart, and_comm]

theorem linkViolations_eq_nil (p entry : AuditEntry) :
    linkViolations p entry = [] ↔
      entry.seq = p.seq + 1 ∧ entry.prevHash = p.entryHash := by
  simp [linkViolations, and_comm]

theorem violationsFrom_eq_nil (anchor : Option Anchor)
    (prev : Option AuditEntry) (entries : List AuditEntry) :
    violationsFrom crates anchor prev entries = [] ↔
      (entryChain crates).Follows
        (match prev with
          | none => chainStart anchor
          | some p => (entryChain crates).after p) entries := by
  induction entries generalizing prev with
  | nil => simp [violationsFrom]
  | cons entry rest ih =>
      simp only [violationsFrom, List.append_eq_nil_iff, ih (some entry),
        contentViolations_eq_nil, HashChain.Shape.follows_cons]
      cases prev with
      | none =>
          simp only [startViolations_eq_nil]
          constructor
          · rintro ⟨⟨hsealed, hseq, hprev⟩, hrest⟩
            exact ⟨⟨hseq, hprev, hsealed⟩, hrest⟩
          · rintro ⟨⟨hseq, hprev, hsealed⟩, hrest⟩
            exact ⟨⟨hsealed, hseq, hprev⟩, hrest⟩
      | some p =>
          simp only [linkViolations_eq_nil]
          constructor
          · rintro ⟨⟨hsealed, hseq, hprev⟩, hrest⟩
            exact ⟨⟨hseq, hprev, hsealed⟩, hrest⟩
          · rintro ⟨⟨hseq, hprev, hsealed⟩, hrest⟩
            exact ⟨⟨hsealed, hseq, hprev⟩, hrest⟩

/-- The verifier accepts exactly the chains that continue its start. -/
theorem verifyEntriesFrom_isValid (anchor : Option Anchor)
    (entries : List AuditEntry) :
    (verifyEntriesFrom crates anchor entries).isValid = true ↔
      (entryChain crates).Follows (chainStart anchor) entries := by
  rw [verifyEntriesFrom_eq, VerifyReport.isValid, List.isEmpty_iff]
  exact violationsFrom_eq_nil crates anchor none entries

/-! ## Sequence numbers -/

/-- No entry carries the largest sequence number. -/
def SeqsBelowMax (entries : List AuditEntry) : Prop :=
  ∀ e ∈ entries, e.seq.toNat < 2 ^ 64 - 1

theorem toNat_add_one {seq : UInt64} (h : seq.toNat < 2 ^ 64 - 1) :
    (seq + 1).toNat = seq.toNat + 1 := by
  rw [UInt64.toNat_add]
  simp only [UInt64.reduceToNat]
  omega

theorem SeqsBelowMax.ranked {entries : List AuditEntry}
    (h : SeqsBelowMax entries) :
    (entryChain crates).Ranked UInt64.toNat entries :=
  fun e he => toNat_add_one (h e he)

/-! ## What the verifier can detect -/

variable {crates}

/-- Of the lists made of an accepted chain's entries, exactly its prefixes are
accepted. -/
theorem verifyEntriesFrom_isValid_iff_prefix (anchor : Option Anchor)
    (L M : List AuditEntry)
    (hvalid : (verifyEntriesFrom crates anchor L).isValid = true)
    (hmax : SeqsBelowMax L) (hsubset : ∀ e ∈ M, e ∈ L) :
    (verifyEntriesFrom crates anchor M).isValid = true ↔ M <+: L := by
  rw [verifyEntriesFrom_isValid] at hvalid ⊢
  constructor
  · intro hpart
    exact hvalid.prefix_of_subset (hmax.ranked crates) hpart hsubset
  · exact hvalid.of_prefix

theorem sealed_referenceEntry (seq : UInt64) (prevHash : String) :
    (entryChain referenceCrates).Sealed (referenceEntry seq none prevHash) := rfl

theorem follows_referenceEntry :
    (entryChain referenceCrates).Follows (chainStart none)
      [referenceEntry 1 none genesisPrevHash,
        referenceEntry 2 none
          (referenceEntry 1 none genesisPrevHash).entryHash] :=
  ⟨⟨rfl, rfl, sealed_referenceEntry 1 _⟩, ⟨rfl, rfl, sealed_referenceEntry 2 _⟩,
    trivial⟩

/-- Of two chained entries the first alone is accepted, the second is not. -/
theorem verifyEntriesFrom_isValid_iff_prefix_pair :
    (verifyEntriesFrom referenceCrates none
        [referenceEntry 2 none
          (referenceEntry 1 none genesisPrevHash).entryHash]).isValid = true ↔
      [referenceEntry 2 none
          (referenceEntry 1 none genesisPrevHash).entryHash] <+:
        [referenceEntry 1 none genesisPrevHash,
          referenceEntry 2 none
            (referenceEntry 1 none genesisPrevHash).entryHash] :=
  verifyEntriesFrom_isValid_iff_prefix none _ _
    ((verifyEntriesFrom_isValid referenceCrates none _).mpr
      follows_referenceEntry)
    (by
      intro e he
      simp only [List.mem_cons, List.not_mem_nil, or_false] at he
      rcases he with rfl | rfl
      · show (1 : UInt64).toNat < 2 ^ 64 - 1
        decide
      · show (2 : UInt64).toNat < 2 ^ 64 - 1
        decide)
    (by simp)

/-! ## What a head hash commits to -/

/-- Two distinct canonical byte strings among the entries share their hash. -/
def HashCollision (crates : Crates) (entries : List AuditEntry) : Prop :=
  ∃ e ∈ entries, ∃ f ∈ entries,
    canonicalBytes crates e ≠ canonicalBytes crates f ∧
      crates.blake3 (canonicalBytes crates e) =
        crates.blake3 (canonicalBytes crates f)

end Chainlog
