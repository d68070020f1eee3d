import Chainlog.Nesting

/-!
# Reloading a log

Without its feature `float_roundtrip` `serde_json` may read a printed float as
a number near it.  An entry is hashed before it is written and again after it
was read, so such a float makes an untouched entry look tampered with.
-/

namespace Chainlog

/-! ## Numbers that are read back -/

abbrev FloatBits :=
  { b : UInt64 // b &&& 0x7FF0000000000000 ≠ 0x7FF0000000000000 }

/-- What a printed number is read as, `round` at floats. -/
def Number.reread (round : FloatBits → FloatBits) : Number → Number
  | posInt n => posInt n
  | negInt n => negInt n
  | float bits => float (round bits)

/-- `from_str` rejects exactly the documents nested deeper than `limit` and
otherwise inverts printing, up to the floats. -/
def SerdeJson.InvertsUpToFloats (serde : SerdeJson) (limit : ℕ)
    (round : FloatBits → FloatBits) : Prop :=
  ∀ doc : Document,
    (doc.depth ≤ limit → serde.fromStr (serde.toText doc) =
        .ok (doc.mapNumbers (Number.reread round))) ∧
      (limit < doc.depth → ∃ reason,
        serde.fromStr (serde.toText doc) = .error reason)

variable (round : FloatBits → FloatBits)

def Value.reload (value : Value) : Value :=
  ⟨value.val.mapNumbers (Number.reread round),
    Json.sorted_mapNumbers value.val value.property⟩

/-- Every float of the value is read back as it is. -/
def Value.Stable (value : Value) : Prop :=
  ∀ bits, .float bits ∈ value.toDocument.numbers → round bits = bits

/-- The entry that its line is read back as. -/
def AuditEntry.reload (e : AuditEntry) : AuditEntry :=
  { e with payload := { e.payload with data := e.payload.data.reload round } }

variable {round}

theorem Value.reload_eq_self_iff (value : Value) :
    value.reload round = value ↔ value.Stable round := by
  have hval : value.reload round = value ↔
      value.val.mapNumbers (Number.reread round) = value.val :=
    ⟨congrArg Subtype.val, fun h => Subtype.ext h⟩
  unfold Value.Stable
  rw [hval]
  refine (Json.mapNumbers_eq_self_iff value.val).trans ⟨?_, ?_⟩
  · intro h bits hbits
    exact Number.float.inj (h _ hbits)
  · intro h n hn
    cases n with
    | posInt n => rfl
    | negInt n => rfl
    | float bits => exact congrArg Number.float (h bits hn)

theorem AuditEntry.reload_eq_self {e : AuditEntry}
    (hstable : e.payload.data.Stable round) : e.reload round = e := by
  unfold AuditEntry.reload
  rw [(Value.reload_eq_self_iff _).mpr hstable]

theorem lastHead_map_reload (entries : List AuditEntry) :
    lastHead (entries.map (AuditEntry.reload round)) = lastHead entries := by
  unfold lastHead
  rw [List.getLast?_map, Option.map_map]
  rfl

theorem toDocument_reload (e : AuditEntry) :
    e.toDocument.mapNumbers (Number.reread round) =
      (e.reload round).toDocument := by
  have htime : (i64Document e.timestamp).mapNumbers (Number.reread round) =
      i64Document e.timestamp := by
    unfold i64Document
    split_ifs <;> simp [Json.mapNumbers, Number.reread]
  obtain ⟨seq, timestamp, eventType, outcome, actor, _ | id, ⟨data, _ | pii⟩,
    prevHash, entryHash⟩ := e <;>
  simp [AuditEntry.toDocument, AuditEntry.reload, Payload.toDocument,
    Outcome.toDocument, EncryptedPii.toDocument, Json.mapNumbers,
    Json.mapMembers, Number.reread, Value.reload, Value.toDocument, htime]

/-- A parser that inverts printing reads every float back as it is. -/
theorem SerdeJson.InvertsUpTo.floats {serde : SerdeJson} {limit : ℕ}
    (hserde : serde.InvertsUpTo limit) : serde.InvertsUpToFloats limit id := by
  intro doc
  have hsame : doc.mapNumbers (Number.reread id) = doc := by
    apply (Json.mapNumbers_eq_self_iff doc).mpr
    intro n _
    cases n <;> rfl
  rw [hsame]
  exact hserde doc

section Lines

variable {crates : Crates} {limit : ℕ}

theorem decodeEntry_entryText
    (hserde : crates.serde.InvertsUpToFloats limit round) (e : AuditEntry) :
    (e.FitsBelow limit →
      decodeEntry crates (entryText crates e) = .ok (e.reload round)) ∧
    (¬e.FitsBelow limit → ∃ reason,
      decodeEntry crates (entryText crates e) = .error reason) := by
  obtain ⟨hread, hreject⟩ := hserde e.toDocument
  rw [← depth_le_iff_fitsBelow]
  constructor
  · intro hfits
    simp [decodeEntry, entryText, hread hfits, toDocument_reload, bind,
      Except.bind]
  · intro hdeep
    obtain ⟨reason, hreason⟩ := hreject (by omega)
    exact ⟨reason, by
      simp [decodeEntry, entryText, hreason, bind, Except.bind]⟩

/-- An entry whose floats are stable is read back as it is. -/
theorem parsesBack_of_stable
    (hserde : crates.serde.InvertsUpToFloats limit round) {e : AuditEntry}
    (hfits : e.FitsBelow limit) (hstable : e.payload.data.Stable round) :
    ParsesBack crates e := by
  unfold ParsesBack
  rw [(decodeEntry_entryText hserde e).1 hfits, e.reload_eq_self hstable]

/-! ## Hashes -/

theorem pushField_inj {buf field field' : Bytes}
    (h : pushField buf field = pushField buf field') : field = field' := by
  unfold pushField at h
  rw [List.append_assoc, List.append_assoc] at h
  exact (List.append_inj (List.append_cancel_left h) rfl).2

theorem canonicalBytes_reload_iff (hprint : crates.serde.PrintsInjectively)
    (e : AuditEntry) :
    canonicalBytes crates (e.reload round) = canonicalBytes crates e ↔
      e.payload.data.Stable round := by
  constructor
  · intro h
    have hpayload : crates.serde.toVec (e.reload round).payload.toDocument =
        crates.serde.toVec e.payload.toDocument :=
      pushField_inj (List.append_cancel_right (List.append_cancel_right h))
    have hdata := Payload.toDocument_injective
      (SerdeJson.toVec_injective hprint hpayload)
    exact (Value.reload_eq_self_iff _).mp (congrArg Payload.data hdata)
  · intro hstable
    rw [e.reload_eq_self hstable]

variable (crates round) in
/-- The entry and what it is read back as differ, but their hashes do not. -/
def ReloadCollision (e : AuditEntry) : Prop :=
  canonicalBytes crates (e.reload round) ≠ canonicalBytes crates e ∧
    crates.blake3 (canonicalBytes crates (e.reload round)) =
      crates.blake3 (canonicalBytes crates e)

variable (limit round) in
/-- The entry is not nested too deep, and its floats are read back as they
are. -/
def AuditEntry.Reloadable (e : AuditEntry) : Prop :=
  e.FitsBelow limit ∧ e.payload.data.Stable round

theorem sealed_reload_iff (hprint : crates.serde.PrintsInjectively)
    {e : AuditEntry} (hsealed : (entryChain crates).Sealed e)
    (hfree : ¬ReloadCollision round crates e) :
    (entryChain crates).Sealed (e.reload round) ↔
      e.payload.data.Stable round := by
  have hhash : toHex (crates.blake3 (canonicalBytes crates e)) = e.entryHash :=
    hsealed
  have hreload : (entryChain crates).Sealed (e.reload round) ↔
      crates.blake3 (canonicalBytes crates (e.reload round)) =
        crates.blake3 (canonicalBytes crates e) := by
    show toHex (crates.blake3 (canonicalBytes crates (e.reload round))) =
      e.entryHash ↔ _
    rw [← hhash]
    exact toHex_injective.eq_iff
  rw [hreload, ← canonicalBytes_reload_iff hprint]
  constructor
  · intro hequal
    by_contra hdiffer
    exact hfree ⟨hdiffer, hequal⟩
  · intro hsame
    rw [hsame]

/-! ## Files of lines -/

variable (crates) in
/-- The file that the entries are written to, one after the other. -/
def linesOf (entries : List AuditEntry) : Bytes :=
  entries.flatMap (entryLine crates)

theorem linesOf_snoc (entries : List AuditEntry) (e : AuditEntry) :
    linesOf crates (entries ++ [e]) =
      linesOf crates entries ++ entryLine crates e := by
  simp [linesOf]

theorem terminated_linesOf (entries : List AuditEntry) :
    Lines.Terminated newline (linesOf crates entries) := by
  cases entries using List.reverseRecOn with
  | nil => exact Lines.terminated_nil newline
  | append_singleton entries e =>
      rw [linesOf_snoc]
      exact terminated_entryLine crates _ e

/-- A file of lines is read entry by entry, or not at all. -/
theorem readFile_linesOf
    (hserde : crates.serde.InvertsUpToFloats limit round)
    (entries : List AuditEntry) :
    ((∀ e ∈ entries, e.FitsBelow limit) →
      readFile crates (.readable (linesOf crates entries)) =
        .ok (entries.map (AuditEntry.reload round))) ∧
    (∀ read, readFile crates (.readable (linesOf crates entries)) = .ok read →
      ∀ e ∈ entries, e.FitsBelow limit) := by
  induction entries using List.reverseRecOn with
  | nil => exact ⟨fun _ => rfl, fun _ _ e he => absurd he List.not_mem_nil⟩
  | append_singleton entries e ih =>
      obtain ⟨hread, hfit⟩ := ih
      obtain ⟨hdecode, hreject⟩ := decodeEntry_entryText hserde e
      rw [linesOf_snoc, readFile_append crates (terminated_linesOf entries),
        readFile_entryLine]
      constructor
      · intro hfits
        rw [hread fun f hf => hfits f (List.mem_append_left _ hf),
          hdecode (hfits e (by simp))]
        simp [Except.map]
      · intro read hok
        cases hbefore : readFile crates
            (.readable (linesOf crates entries)) with
        | error err => simp [hbefore] at hok
        | ok before =>
            by_cases hfits : e.FitsBelow limit
            · intro f hf
              rcases List.mem_append.mp hf with hold | hnew
              · exact hfit before hbefore f hold
              · rw [List.mem_singleton.mp hnew]
                exact hfits
            · obtain ⟨reason, hreason⟩ := hreject hfits
              simp [hbefore, hreason, Except.map] at hok

/-! ## Tampered entries -/

theorem kind_ne_badHash_start (anchor : Option Anchor) (e : AuditEntry) :
    ∀ v ∈ startViolations anchor e, v.kind ≠ .badHash := by
  intro v hv
  cases anchor with
  | none =>
      simp only [startViolations, List.mem_append] at hv
      rcases hv with hv | hv <;> split_ifs at hv <;> simp_all
  | some a =>
      simp only [startViolations, List.mem_append] at hv
      rcases hv with hv | hv <;> split_ifs at hv <;> simp_all

theorem kind_ne_badHash_link (p e : AuditEntry) :
    ∀ v ∈ linkViolations p e, v.kind ≠ .badHash := by
  intro v hv
  simp only [linkViolations, List.mem_append] at hv
  rcases hv with hv | hv <;> split_ifs at hv <;> simp_all

variable (crates) in
/-- The verifier finds no entry whose hash is wrong. -/
def NoBadHash (entries : List AuditEntry) : Prop :=
  ∀ anchor, ∀ v ∈ (verifyEntriesFrom crates anchor entries).violations,
    v.kind ≠ .badHash

theorem contentViolations_badHash (e : AuditEntry) :
    (∀ v ∈ contentViolations crates e, v.kind ≠ .badHash) ↔
      (entryChain crates).Sealed e := by
  rw [← contentViolations_eq_nil]
  constructor
  · intro h
    cases hfound : contentViolations crates e with
    | nil => rfl
    | cons v rest =>
        have hkind : v.kind = .badHash := by
          unfold contentViolations at hfound
          simp only at hfound
          split_ifs at hfound
          rw [← (List.cons.inj hfound).1]
        exact absurd hkind (h v (by rw [hfound]; exact List.mem_cons_self))
  · intro h v hv
    rw [h] at hv
    cases hv

theorem noBadHash_iff (entries : List AuditEntry) :
    NoBadHash crates entries ↔ ∀ e ∈ entries, (entryChain crates).Sealed e := by
  have hwalk (anchor : Option Anchor) (prev : Option AuditEntry) :
      (∀ v ∈ violationsFrom crates anchor prev entries, v.kind ≠ .badHash) ↔
        ∀ e ∈ entries, (entryChain crates).Sealed e := by
    induction entries generalizing prev with
    | nil => simp [violationsFrom]
    | cons e rest ih =>
        cases prev with
        | none =>
            rw [violationsFrom_cons_none, List.forall_mem_append,
              List.forall_mem_append, contentViolations_badHash, ih,
              List.forall_mem_cons]
            exact ⟨fun h => ⟨h.1.1, h.2⟩,
              fun h => ⟨⟨h.1, kind_ne_badHash_start anchor e⟩, h.2⟩⟩
        | some p =>
            rw [violationsFrom_cons_some, List.forall_mem_append,
              List.forall_mem_append, contentViolations_badHash, ih,
              List.forall_mem_cons]
            exact ⟨fun h => ⟨h.1.1, h.2⟩,
              fun h => ⟨⟨h.1, kind_ne_badHash_link p e⟩, h.2⟩⟩
  unfold NoBadHash
  simp only [verifyEntriesFrom_eq, hwalk, forall_const]

/-- What is read of an honest file is clean exactly where every entry can be
reloaded. -/
theorem readsClean_linesOf_iff
    (hserde : crates.serde.InvertsUpToFloats limit round)
    (hprint : crates.serde.PrintsInjectively) {entries : List AuditEntry}
    (hsealed : ∀ e ∈ entries, (entryChain crates).Sealed e)
    (hfree : ∀ e ∈ entries, ¬ReloadCollision round crates e) :
    (∃ read, readFile crates (.readable (linesOf crates entries)) = .ok read ∧
        NoBadHash crates read) ↔
      ∀ e ∈ entries, e.Reloadable round limit := by
  obtain ⟨hread, hfit⟩ := readFile_linesOf hserde entries
  constructor
  · rintro ⟨read, hok, hclean⟩ e he
    have hfits := hfit read hok
    rw [hread hfits] at hok
    obtain rfl := Except.ok.inj hok
    rw [noBadHash_iff] at hclean
    have hreloaded := hclean _ (List.mem_map_of_mem he)
    exact ⟨hfits e he,
      (sealed_reload_iff hprint (hsealed e he) (hfree e he)).mp hreloaded⟩
  · intro h
    refine ⟨_, hread fun e he => (h e he).1, ?_⟩
    rw [noBadHash_iff]
    intro reloaded hreloaded
    obtain ⟨e, he, rfl⟩ := List.mem_map.mp hreloaded
    exact (sealed_reload_iff hprint (hsealed e he) (hfree e he)).mpr (h e he).2

/-! ## One record -/

variable (round limit) in
/-- The data of the record is not nested too deep, and its floats are read back
as they are. -/
structure Record.Reloadable (record : Record) : Prop where
  data : record.data.depth + 2 ≤ limit
  pii : record.pii.isSome → 3 ≤ limit
  stable : record.data.Stable round

theorem payload_nextEntry {σ : Type} {writer : WriterState σ} {call : Call}
    {record : Record} {entry : AuditEntry}
    (hnext : writer.nextEntry crates call record = .ok entry) :
    entry.payload.data = record.data ∧
      entry.payload.pii.isSome = record.pii.isSome := by
  unfold WriterState.nextEntry sealPii at hnext
  cases hpii : record.pii with
  | none =>
      simp only [hpii, Except.map, Except.ok.injEq] at hnext
      rw [← hnext]
      exact ⟨rfl, rfl⟩
  | some value =>
      simp only [hpii] at hnext
      cases hseal : call.cryptoSeal record.keyId value with
      | error err => simp [hseal, Except.map] at hnext
      | ok bundle =>
          simp only [hseal, Except.map, Except.ok.injEq] at hnext
          rw [← hnext]
          exact ⟨rfl, rfl⟩

theorem reloadable_nextEntry {σ : Type} {writer : WriterState σ} {call : Call}
    {record : Record} {entry : AuditEntry}
    (hnext : writer.nextEntry crates call record = .ok entry) :
    entry.Reloadable round limit ↔ record.Reloadable round limit := by
  obtain ⟨hdata, hpii⟩ := payload_nextEntry hnext
  unfold AuditEntry.Reloadable AuditEntry.FitsBelow
  rw [hdata, hpii]
  exact ⟨fun h => ⟨h.1.1, h.1.2, h.2⟩, fun h => ⟨⟨h.data, h.pii⟩, h.stable⟩⟩

/-- The hash that was computed in memory is the hash of what is read back,
exactly where the entry can be reloaded. -/
theorem reloads_iff (hserde : crates.serde.InvertsUpToFloats limit round)
    (hprint : crates.serde.PrintsInjectively) {e : AuditEntry}
    (hsealed : (entryChain crates).Sealed e)
    (hfree : ¬ReloadCollision round crates e) :
    (∃ reloaded, readFile crates (.readable (entryLine crates e)) =
          .ok [reloaded] ∧ e.entryHash = reloaded.recomputeHash crates) ↔
      e.Reloadable round limit := by
  obtain ⟨hdecode, hreject⟩ := decodeEntry_entryText hserde e
  have hreloaded := sealed_reload_iff hprint hsealed hfree
  rw [readFile_entryLine]
  constructor
  · rintro ⟨reloaded, hread, hhash⟩
    by_cases hfits : e.FitsBelow limit
    · rw [hdecode hfits] at hread
      obtain rfl : e.reload round = reloaded := by simpa using hread
      exact ⟨hfits, hreloaded.mp hhash.symm⟩
    · obtain ⟨reason, hreason⟩ := hreject hfits
      simp [hreason] at hread
  · rintro ⟨hfits, hstable⟩
    refine ⟨e.reload round, ?_, (hreloaded.mpr hstable).symm⟩
    rw [hdecode hfits]

end Lines

/-- A record, and a log, can be reloaded exactly where its data is not nested
too deep and its floats are read back as they are; runs of such records are
read back and verify. -/
theorem reloading_verifies_iff (crates : Crates) (limit : ℕ)
    (round : FloatBits → FloatBits)
    (hserde : crates.serde.InvertsUpToFloats limit round)
    (hprint : crates.serde.PrintsInjectively) :
    (∀ (σ : Type) (writer : WriterState σ) (call : Call) (record : Record)
        (entry : AuditEntry),
      writer.nextEntry crates call record = .ok entry →
        ReloadCollision round crates entry ∨
          ((∃ reloaded, readFile crates
                (.readable (entryLine crates entry)) = .ok [reloaded] ∧
              entry.entryHash = reloaded.recomputeHash crates) ↔
            record.Reloadable round limit)) ∧
    (∀ entries, (∀ e ∈ entries, (entryChain crates).Sealed e) →
      (∃ e ∈ entries, ReloadCollision round crates e) ∨
        ((∃ read, readFile crates (.readable (linesOf crates entries)) =
              .ok read ∧ NoBadHash crates read) ↔
          ∀ e ∈ entries, e.Reloadable round limit)) ∧
    ∀ (mode : Mode) (s t : Engine),
      Engine.start crates mode .missing = .ok s →
      Engine.Runs crates Engine.FaultFree s t →
      t.acked.length + 1 < 2 ^ 64 →
      (∀ e ∈ t.acked, e.Reloadable round limit) →
        readStored crates t.writer.store.isSegmented t.writer.store.disk =
            .ok t.acked ∧
          (verifyEntries crates t.acked).isValid = true := by
  refine ⟨?_, ?_, ?_⟩
  · intro σ writer call record entry hnext
    by_cases hcollision : ReloadCollision round crates entry
    · exact Or.inl hcollision
    · rw [← reloadable_nextEntry hnext]
      exact Or.inr (reloads_iff hserde hprint
        (writer.nextEntry_spec crates hnext).2.2 hcollision)
  · intro entries hsealed
    by_cases hcollision : ∃ e ∈ entries, ReloadCollision round crates e
    · exact Or.inl hcollision
    · exact Or.inr (readsClean_linesOf_iff hserde hprint hsealed
        fun e he h => hcollision ⟨e, he, h⟩)
  · intro mode s t hstart hrun hlength hreloadable
    have hholds := Engine.holds_of_run hstart hrun
      (fun e he => parsesBack_of_stable hserde (hreloadable e he).1
        (hreloadable e he).2) hlength
    exact ⟨hholds.read, hholds.valid⟩

/-- The reference parser, with the floats rounded. -/
noncomputable def roundingCrates (round : FloatBits → FloatBits) : Crates where
  serde :=
    { referenceSerde 127 with
      fromStr := fun text => (referenceParse 127 text).map
        (Json.mapNumbers (Number.reread round)) }
  blake3 := Blake3.hash

/-- 31.245270191439438. -/
def measured : FloatBits := ⟨0x403F3ECA06FAEA82, by decide⟩

/-- 31.24527019143944, the next float. -/
def measuredNext : FloatBits := ⟨0x403F3ECA06FAEA83, by decide⟩

def nearby (bits : FloatBits) : FloatBits :=
  if bits = measured then measuredNext else bits

theorem roundingCrates_invertsUpToFloats (round : FloatBits → FloatBits) :
    (roundingCrates round).serde.InvertsUpToFloats 127 round := by
  intro doc
  have hparse := referenceParse_text 127 doc
  have hread : (roundingCrates round).serde.fromStr
      ((roundingCrates round).serde.toText doc) =
        (referenceParse 127 (referenceText doc)).map
          (Json.mapNumbers (Number.reread round)) := rfl
  rw [hread, hparse]
  constructor
  · intro hdepth
    rw [if_pos hdepth]
    rfl
  · intro hdeep
    rw [if_neg (by omega)]
    exact ⟨_, rfl⟩

theorem roundingCrates_printsInjectively (round : FloatBits → FloatBits) :
    (roundingCrates round).serde.PrintsInjectively := referenceText_injective

theorem reloading_verifies_iff_login :
    let entry := sealEntry (roundingCrates nearby) 0 genesisPrevHash
      (loginCall .synced) alice none
    ReloadCollision nearby (roundingCrates nearby) entry ∨
      ∃ reloaded, readFile (roundingCrates nearby)
            (.readable (entryLine (roundingCrates nearby) entry)) =
          .ok [reloaded] ∧
        entry.entryHash = reloaded.recomputeHash (roundingCrates nearby) := by
  have hreloadable : alice.Reloadable nearby 127 := by
    refine ⟨?_, ?_, ?_⟩
    · simp [alice, Record.new, Value.depth, Value.toDocument, Value.null]
    · simp
    · intro bits hbits
      simp [alice, Record.new, Value.toDocument, Value.null, Json.numbers]
        at hbits
  obtain ⟨hrecord, _, _⟩ := reloading_verifies_iff (roundingCrates nearby) 127
    nearby (roundingCrates_invertsUpToFloats nearby)
    (roundingCrates_printsInjectively nearby)
  rcases hrecord MemoryStore { store := { entries := [] }, seq := 0
                               prevHash := genesisPrevHash }
      (loginCall .synced) alice _ rfl with hcollision | hiff
  · exact Or.inl hcollision
  · exact Or.inr (hiff.mpr hreloadable)

def measurement : Record :=
  alice.withData ⟨.number (.float measured), by simp [Json.Sorted]⟩

noncomputable def measuredEntry : AuditEntry :=
  sealEntry (roundingCrates nearby) 0 genesisPrevHash (loginCall .synced)
    measurement none

set_option maxRecDepth 100000 in
theorem hash_reload_measuredEntry :
    (Blake3.hash (canonicalBytes (roundingCrates nearby)
        (measuredEntry.reload nearby))).val ≠
      (Blake3.hash (canonicalBytes (roundingCrates nearby)
        measuredEntry)).val := by
  decide +kernel

/-- An untouched entry is reported as tampered with. -/
theorem measurement_reported_badHash :
    (roundingCrates nearby).serde.InvertsUpToFloats 127 nearby ∧
      (roundingCrates nearby).serde.PrintsInjectively ∧
      (¬∃ reloaded, readFile (roundingCrates nearby) (.readable
            (entryLine (roundingCrates nearby) measuredEntry)) =
          .ok [reloaded] ∧
        measuredEntry.entryHash =
          reloaded.recomputeHash (roundingCrates nearby)) ∧
      ∃ read, readFile (roundingCrates nearby) (.readable
            (entryLine (roundingCrates nearby) measuredEntry)) = .ok [read] ∧
        ¬NoBadHash (roundingCrates nearby) [read] := by
  have hserde := roundingCrates_invertsUpToFloats nearby
  have hprint := roundingCrates_printsInjectively nearby
  have hsealed : (entryChain (roundingCrates nearby)).Sealed measuredEntry :=
    sealed_sealEntry _ _ _ _ _ _
  have hfree : ¬ReloadCollision nearby (roundingCrates nearby) measuredEntry :=
    fun h => hash_reload_measuredEntry (congrArg Subtype.val h.2)
  have hunstable : ¬measuredEntry.payload.data.Stable nearby := by
    intro hstable
    have hsame := hstable measured (by
      simp [measuredEntry, sealEntry, measurement, Record.withData,
        Value.toDocument, Json.numbers])
    exact absurd (congrArg Subtype.val hsame) (by decide)
  have hfits : measuredEntry.FitsBelow 127 := by
    refine ⟨?_, ?_⟩
    · simp [measuredEntry, sealEntry, measurement, Record.withData, Value.depth,
        Value.toDocument]
    · simp [measuredEntry, sealEntry]
  refine ⟨hserde, hprint, ?_, measuredEntry.reload nearby, ?_, ?_⟩
  · rw [reloads_iff hserde hprint hsealed hfree]
    exact fun h => hunstable h.2
  · rw [readFile_entryLine, (decodeEntry_entryText hserde measuredEntry).1 hfits]
  · rw [noBadHash_iff, List.forall_mem_singleton,
      sealed_reload_iff hprint hsealed hfree]
    exact hunstable

end Chainlog
