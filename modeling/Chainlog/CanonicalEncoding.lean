import Chainlog.Reference

/-!
# Ambiguity of the canonical encoding

The canonical bytes are eight length-prefixed fields.  Each field determines
its part of the entry, with one exception: an absent instruction id is written
like an empty one.  Two entries therefore share their canonical bytes exactly
when they agree everywhere else and their instruction ids agree after reading
`None` as the empty string.
-/

namespace Chainlog

variable (crates : Crates)

/-- The fields of the canonical bytes, in order. -/
def canonicalFields (e : AuditEntry) : List Bytes :=
  [u64ToBeBytes e.seq, i64ToBeBytes e.timestamp, asBytes e.eventType,
    asBytes e.outcome.asStr, asBytes e.actor,
    asBytes (e.instructionId.getD ""),
    crates.serde.toVec e.payload.toDocument, asBytes e.prevHash]

/-- Every field of the entry is shorter than `2 ^ 64` bytes. -/
def FieldsFit (e : AuditEntry) : Prop :=
  ∀ field ∈ canonicalFields crates e, field.length < 2 ^ 64

theorem canonicalBytes_eq_frames (e : AuditEntry) :
    canonicalBytes crates e =
      fieldHeader.frames (canonicalFields crates e) := by
  have hfold := foldl_pushField [] (canonicalFields crates e)
  rw [List.nil_append] at hfold
  exact hfold

/-- Two entries agree on every hashed field, an absent instruction id reading
as the empty string. -/
structure SameHashedFields (e f : AuditEntry) : Prop where
  seq : e.seq = f.seq
  timestamp : e.timestamp = f.timestamp
  eventType : e.eventType = f.eventType
  outcome : e.outcome = f.outcome
  actor : e.actor = f.actor
  instructionId : e.instructionId.getD "" = f.instructionId.getD ""
  payload : e.payload = f.payload
  prevHash : e.prevHash = f.prevHash

variable {crates}

theorem SameHashedFields.canonicalBytes_eq {e f : AuditEntry}
    (h : SameHashedFields e f) :
    canonicalBytes crates e = canonicalBytes crates f := by
  simp only [canonicalBytes, h.seq, h.timestamp, h.eventType, h.outcome,
    h.actor, h.instructionId, h.payload, h.prevHash]

/-- The canonical bytes determine the hashed fields. -/
theorem sameHashedFields_of_canonicalBytes_eq
    (hprint : crates.serde.PrintsInjectively) {e f : AuditEntry}
    (he : FieldsFit crates e) (hf : FieldsFit crates f)
    (heq : canonicalBytes crates e = canonicalBytes crates f) :
    SameHashedFields e f := by
  rw [canonicalBytes_eq_frames, canonicalBytes_eq_frames] at heq
  have hfields : canonicalFields crates e = canonicalFields crates f :=
    fieldHeader.frames_injective he hf heq
  simp only [canonicalFields, List.cons.injEq, and_true] at hfields
  obtain ⟨hseq, htime, hevent, houtcome, hactor, hid, hpayload, hprev⟩ :=
    hfields
  exact {
    seq := u64ToBeBytes_injective hseq
    timestamp := i64ToBeBytes_injective htime
    eventType := asBytes_injective hevent
    outcome := Outcome.asStr_injective (asBytes_injective houtcome)
    actor := asBytes_injective hactor
    instructionId := asBytes_injective hid
    payload := Payload.toDocument_injective
      (SerdeJson.toVec_injective hprint hpayload)
    prevHash := asBytes_injective hprev }

/-! ## The schema and its one ambiguity -/

/-- Two entries are equal in every field except `entry_hash`. -/
def SameButHash (e f : AuditEntry) : Prop :=
  e = { f with entryHash := e.entryHash }

/-- One instruction id is absent where the other is the empty string. -/
def AbsentVersusEmpty (a b : Option String) : Prop :=
  (a = none ∧ b = some "") ∨ (a = some "" ∧ b = none)

/-- The entries differ by an absent against an empty instruction id and in no
other hashed field. -/
def DifferOnlyByEmptyId (e f : AuditEntry) : Prop :=
  AbsentVersusEmpty e.instructionId f.instructionId ∧
    e = { f with
      instructionId := e.instructionId, entryHash := e.entryHash }

theorem getD_eq_iff (a b : Option String) :
    a.getD "" = b.getD "" ↔ a = b ∨ AbsentVersusEmpty a b := by
  cases a with
  | none =>
      cases b with
      | none => simp
      | some t => simp [AbsentVersusEmpty, eq_comm]
  | some s =>
      cases b with
      | none => simp [AbsentVersusEmpty]
      | some t => simp [AbsentVersusEmpty]

theorem sameHashedFields_iff (e f : AuditEntry) :
    SameHashedFields e f ↔ SameButHash e f ∨ DifferOnlyByEmptyId e f := by
  constructor
  · intro h
    have heq : e = { f with
        instructionId := e.instructionId, entryHash := e.entryHash } := by
      cases e
      cases f
      simp only [AuditEntry.mk.injEq, true_and, and_true]
      exact ⟨h.seq, h.timestamp, h.eventType, h.outcome, h.actor, h.payload,
        h.prevHash⟩
    rcases (getD_eq_iff _ _).mp h.instructionId with hid | hid
    · left
      rw [hid] at heq
      exact heq
    · exact Or.inr ⟨hid, heq⟩
  · rintro (h | ⟨hid, h⟩)
    · rw [h]
      constructor <;> rfl
    · have hget := (getD_eq_iff _ _).mpr (Or.inr hid)
      rw [h]
      constructor <;> first | rfl | simpa using hget

theorem not_sameButHash_of_differOnlyByEmptyId {e f : AuditEntry}
    (h : DifferOnlyByEmptyId e f) : ¬SameButHash e f := by
  intro hsame
  have hid : e.instructionId = f.instructionId := by
    rw [hsame]
  rcases h.1 with ⟨ha, hb⟩ | ⟨ha, hb⟩ <;> simp [ha, hb] at hid

theorem fieldsFit_referenceEntry (seq : UInt64) (instructionId : Option String)
    (hid : instructionId = none ∨ instructionId = some "") :
    FieldsFit referenceCrates
      (referenceEntry seq instructionId genesisPrevHash) := by
  intro field hfield
  simp only [canonicalFields, referenceEntry, List.mem_cons,
    List.not_mem_nil, or_false] at hfield
  rcases hfield with rfl | rfl | rfl | rfl | rfl | rfl | rfl | rfl
  · rw [u64ToBeBytes_length]
    decide
  · decide
  · decide
  · decide
  · decide
  · rcases hid with rfl | rfl <;> decide
  · show (asBytes (referenceText _)).length < 2 ^ 64
    decide
  · decide

/-- The canonical bytes tell two entries apart unless an absent instruction id
meets an empty one; the same holds of the recomputed hash, up to a collision
of BLAKE3 on the two canonical byte strings. -/
theorem canonicalBytes_unambiguous_iff
    (hprint : crates.serde.PrintsInjectively) (e f : AuditEntry)
    (he : FieldsFit crates e) (hf : FieldsFit crates f) :
    ((canonicalBytes crates e = canonicalBytes crates f → SameButHash e f) ↔
        ¬DifferOnlyByEmptyId e f) ∧
      ((¬SameButHash e f →
          e.recomputeHash crates ≠ f.recomputeHash crates ∨
            (canonicalBytes crates e ≠ canonicalBytes crates f ∧
              crates.blake3 (canonicalBytes crates e) =
                crates.blake3 (canonicalBytes crates f))) ↔
        ¬DifferOnlyByEmptyId e f) := by
  have hshared : DifferOnlyByEmptyId e f →
      canonicalBytes crates e = canonicalBytes crates f := fun h =>
    ((sameHashedFields_iff e f).mpr (Or.inr h)).canonicalBytes_eq
  have hread : canonicalBytes crates e = canonicalBytes crates f →
      SameButHash e f ∨ DifferOnlyByEmptyId e f := fun h =>
    (sameHashedFields_iff e f).mp
      (sameHashedFields_of_canonicalBytes_eq hprint he hf h)
  refine ⟨⟨?_, ?_⟩, ⟨?_, ?_⟩⟩
  · intro h hdiffer
    exact not_sameButHash_of_differOnlyByEmptyId hdiffer (h (hshared hdiffer))
  · intro hnot h
    exact (hread h).resolve_right hnot
  · intro h hdiffer
    have hbytes := hshared hdiffer
    rcases h (not_sameButHash_of_differOnlyByEmptyId hdiffer) with hne | hne
    · exact hne (by simp [AuditEntry.recomputeHash, entryHash, hbytes])
    · exact hne.1 hbytes
  · intro hnot hchanged
    have hbytes : canonicalBytes crates e ≠ canonicalBytes crates f :=
      fun h => hchanged ((hread h).resolve_right hnot)
    by_cases hhash : crates.blake3 (canonicalBytes crates e) =
        crates.blake3 (canonicalBytes crates f)
    · exact Or.inr ⟨hbytes, hhash⟩
    · exact Or.inl fun h => hhash (toHex_injective h)

theorem canonicalBytes_unambiguous_iff_genesis :
    ((canonicalBytes referenceCrates (referenceEntry 1 none genesisPrevHash) =
          canonicalBytes referenceCrates
            (referenceEntry 2 none genesisPrevHash) →
        SameButHash (referenceEntry 1 none genesisPrevHash)
          (referenceEntry 2 none genesisPrevHash)) ↔
      ¬DifferOnlyByEmptyId (referenceEntry 1 none genesisPrevHash)
          (referenceEntry 2 none genesisPrevHash)) :=
  (canonicalBytes_unambiguous_iff (referenceSerde_printsInjectively 127)
    (referenceEntry 1 none genesisPrevHash)
    (referenceEntry 2 none genesisPrevHash)
    (fieldsFit_referenceEntry 1 none (Or.inl rfl))
    (fieldsFit_referenceEntry 2 none (Or.inl rfl))).1

/-- Setting an absent instruction id to the empty string changes the entry
and leaves its canonical bytes and its hash as they are. -/
theorem canonicalBytes_ambiguous :
    canonicalBytes referenceCrates (referenceEntry 1 none genesisPrevHash) =
        canonicalBytes referenceCrates
          (referenceEntry 1 (some "") genesisPrevHash) ∧
      (referenceEntry 1 none genesisPrevHash).recomputeHash referenceCrates =
        (referenceEntry 1 (some "") genesisPrevHash).recomputeHash
          referenceCrates ∧
      ¬SameButHash (referenceEntry 1 none genesisPrevHash)
        (referenceEntry 1 (some "") genesisPrevHash) ∧
      FieldsFit referenceCrates (referenceEntry 1 none genesisPrevHash) ∧
      FieldsFit referenceCrates
        (referenceEntry 1 (some "") genesisPrevHash) := by
  refine ⟨rfl, rfl, ?_, fieldsFit_referenceEntry 1 none (Or.inl rfl),
    fieldsFit_referenceEntry 1 (some "") (Or.inr rfl)⟩
  intro hsame
  have hid := congrArg AuditEntry.instructionId hsame
  exact absurd hid (by simp [referenceEntry])

/-- An entry has an undetectable twin exactly when its instruction id is absent
or empty. -/
theorem exists_undetected_edit_iff
    (hprint : crates.serde.PrintsInjectively) (e : AuditEntry)
    (he : FieldsFit crates e) :
    (∃ f, FieldsFit crates f ∧
        canonicalBytes crates e = canonicalBytes crates f ∧
        ¬SameButHash e f) ↔
      e.instructionId.getD "" = "" := by
  constructor
  · rintro ⟨f, hf, heq, hchanged⟩
    have hsame := sameHashedFields_of_canonicalBytes_eq hprint he hf heq
    rcases (sameHashedFields_iff e f).mp hsame with h | h
    · exact absurd h hchanged
    · rcases h.1 with ⟨ha, _⟩ | ⟨ha, _⟩ <;> simp [ha]
  · intro hid
    -- The twin swaps an absent id for an empty one, or the reverse.
    have htwin : ∃ b, AbsentVersusEmpty e.instructionId b := by
      rcases (getD_eq_iff e.instructionId none).mp (by simpa using hid) with h | h
      · exact ⟨some "", Or.inl ⟨h, rfl⟩⟩
      · exact ⟨none, h⟩
    obtain ⟨b, hb⟩ := htwin
    have hdiffer : DifferOnlyByEmptyId e { e with instructionId := b } :=
      ⟨hb, rfl⟩
    have hfields : canonicalFields crates { e with instructionId := b } =
        canonicalFields crates e := by
      have hget := (getD_eq_iff _ _).mpr (Or.inr hb)
      simp only [canonicalFields, hget]
    refine ⟨{ e with instructionId := b }, ?_, ?_,
      not_sameButHash_of_differOnlyByEmptyId hdiffer⟩
    · rw [FieldsFit, hfields]
      exact he
    · rw [canonicalBytes_eq_frames, canonicalBytes_eq_frames, hfields]

end Chainlog
