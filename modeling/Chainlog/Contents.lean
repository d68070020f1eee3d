import Chainlog.Journal

/-!
# What the files of a journal hold

The entries of a log are those of its closed files followed by those of the
open file.  `Reads` says how the bytes of one file hold a list of entries; the
reader's own answer is one choice of it.
-/

namespace Chainlog

namespace Journal

/-- The closed files hold `before`, the open file holds `current`, and the open
file is named after the first entry that goes to it. -/
structure Stores (Reads : Bytes → List AuditEntry → Prop) (j : Journal)
    (before current : List AuditEntry) : Prop where
  closed : ∃ groups, List.Forall₂ Reads (j.closed.map Prod.snd) groups ∧
    groups.flatten = before
  current : Reads j.content current
  first : j.first.toNat = before.length + 1

variable {Reads : Bytes → List AuditEntry → Prop} {j : Journal}
  {before current : List AuditEntry}

theorem stores_fresh (hnil : Reads [] []) (mode : Mode) :
    Stores Reads (fresh mode) [] [] where
  closed := ⟨[], .nil, rfl⟩
  current := hnil
  first := rfl

theorem Stores.rotate (h : Stores Reads j before current) (hnil : Reads [] [])
    {first : UInt64} (hfirst : first.toNat = (before ++ current).length + 1) :
    Stores Reads (j.rotate first) (before ++ current) [] where
  closed := by
    obtain ⟨groups, hgroups, hflatten⟩ := h.closed
    refine ⟨groups ++ [current], ?_, by simp [hflatten]⟩
    have hfiles : (j.rotate first).closed.map Prod.snd =
        j.closed.map Prod.snd ++ [j.content] := by
      simp [Journal.rotate, files]
    rw [hfiles]
    exact List.rel_append hgroups (.cons h.current .nil)
  current := hnil
  first := hfirst

theorem Stores.extend (h : Stores Reads j before current) {bytes : Bytes}
    {current' : List AuditEntry} (hread : Reads (j.content ++ bytes) current')
    (entries : ℕ) : Stores Reads (j.extend bytes entries) before current' where
  closed := h.closed
  current := hread
  first := h.first

theorem Stores.resume (h : Stores Reads j before current) (mode : Mode)
    (count : ℕ) : Stores Reads (j.resume mode count) before current where
  closed := h.closed
  current := h.current
  first := h.first

/-- Opening the next file where the open one is full changes no entries. -/
theorem Stores.opened (h : Stores Reads j before current) (hnil : Reads [] [])
    (hcount : j.count = current.length) {entry : AuditEntry}
    (hseq : entry.seq.toNat = (before ++ current).length + 1) :
    ∃ before' current', Stores Reads (j.opened entry) before' current' ∧
      before' ++ current' = before ++ current ∧
      (j.opened entry).count = current'.length := by
  cases hfull : j.full with
  | false =>
      refine ⟨before, current, ?_, rfl, ?_⟩
      · simpa [Journal.opened, hfull] using h
      · simpa [Journal.opened, hfull] using hcount
  | true =>
      refine ⟨before ++ current, [], ?_, by simp, ?_⟩
      · simpa [Journal.opened, hfull] using h.rotate hnil hseq
      · simp [Journal.opened, hfull, Journal.rotate]

theorem Stores.first_lt (h : Stores Reads j before current)
    (hcount : j.count = current.length) {store : LogStore}
    (hrep : store.Represents j) {entry : AuditEntry}
    (hseq : entry.seq.toNat = (before ++ current).length + 1)
    (hfull : j.full = true) : j.first < entry.seq := by
  have hpos := hrep.count_pos_of_full hfull
  rw [UInt64.lt_iff_toNat_lt, h.first, hseq, List.length_append]
  omega

theorem Stores.mono {Reads' : Bytes → List AuditEntry → Prop}
    (h : Stores Reads j before current)
    (hclosed : ∀ content entries, (∀ e ∈ entries, e ∈ before) →
      Reads content entries → Reads' content entries)
    (hcurrent : Reads' j.content current) :
    Stores Reads' j before current where
  closed := by
    obtain ⟨groups, hgroups, rfl⟩ := h.closed
    refine ⟨groups, ?_, rfl⟩
    rw [List.forall₂_iff_get] at hgroups ⊢
    refine ⟨hgroups.1, fun i hi hi' => ?_⟩
    refine hclosed _ _ (fun e he => ?_) (hgroups.2 i hi hi')
    exact List.mem_flatten.mpr ⟨_, List.get_mem groups ⟨i, hi'⟩, he⟩
  current := hcurrent
  first := h.first

end Journal

variable (crates : Crates)

/-- The reader finds the entries in the file. -/
def ReadsAs (content : Bytes) (entries : List AuditEntry) : Prop :=
  readFile crates (.readable content) = .ok entries

variable {crates}

theorem readsAs_nil : ReadsAs crates [] [] := rfl

theorem readNodes_of_forall₂ {files : List (UInt64 × Bytes)}
    {groups : List (List AuditEntry)}
    (hread : List.Forall₂ (ReadsAs crates) (files.map Prod.snd) groups) :
    readNodes crates (files.map fun file => .readable file.2) =
      .ok groups.flatten := by
  induction files generalizing groups with
  | nil =>
      rw [List.map_nil, List.forall₂_nil_left_iff] at hread
      subst groups
      rfl
  | cons file files ih =>
      rw [List.map_cons, List.forall₂_cons_left_iff] at hread
      obtain ⟨group, others, hfirst, hrest, rfl⟩ := hread
      rw [List.map_cons, readNodes_cons_ok]
      exact ⟨_, _, hfirst, ih hrest, List.flatten_cons.symm⟩

namespace Journal.Stores

variable {j : Journal} {before current : List AuditEntry}

theorem read_closed (h : Stores (ReadsAs crates) j before current) :
    readNodes crates (j.closed.map fun file => .readable file.2) =
      .ok before := by
  obtain ⟨groups, hgroups, rfl⟩ := h.closed
  exact readNodes_of_forall₂ hgroups

theorem read (h : Stores (ReadsAs crates) j before current) :
    j.read crates = .ok (before ++ current) :=
  (LogStore.Represents.read_eq_ok j).mpr
    ⟨before, current, h.read_closed, h.current, rfl⟩

end Journal.Stores

/-! ## Whole lines -/

theorem WriteOutcome.written_prefix (line : Bytes) (write : WriteOutcome) :
    write.written line <+: line := by
  cases write with
  | writeFailed persisted reason => exact List.take_prefix persisted line
  | _ => exact List.prefix_rfl

theorem Journal.written_prefix (j : Journal) (entry : AuditEntry)
    (io : IoOutcome) :
    j.written crates entry io <+: entryLine crates entry := by
  rw [Journal.written]
  split_ifs
  · exact List.nil_prefix
  · exact io.write.written_prefix _

/-- Bytes that hold the whole text of an entry are its text or its line. -/
theorem eq_text_or_eq_line {entry : AuditEntry} {bytes : Bytes}
    (htext : asBytes (entryText crates entry) <+: bytes)
    (hline : bytes <+: entryLine crates entry) :
    bytes = asBytes (entryText crates entry) ∨
      bytes = entryLine crates entry := by
  obtain ⟨rest, rfl⟩ := htext
  rw [entryLine_eq, List.prefix_append_right_inj] at hline
  cases rest with
  | nil => exact Or.inl (List.append_nil _)
  | cons x rest =>
      right
      rw [List.cons_prefix_cons] at hline
      obtain ⟨rfl, hrest⟩ := hline
      rw [List.prefix_nil.mp hrest]
      rfl

/-- The whole text of an entry behind a terminated file is read with it. -/
theorem ReadsAs.append {content : Bytes} {entries : List AuditEntry}
    (h : ReadsAs crates content entries)
    (hterminated : Lines.Terminated newline content) {entry : AuditEntry}
    (hparse : ParsesBack crates entry) {bytes : Bytes}
    (htext : asBytes (entryText crates entry) <+: bytes)
    (hline : bytes <+: entryLine crates entry) :
    ReadsAs crates (content ++ bytes) (entries ++ [entry]) := by
  have hparse' : decodeEntry crates (entryText crates entry) = .ok entry :=
    hparse
  have hbytes : readFile crates (.readable bytes) = .ok [entry] := by
    rcases eq_text_or_eq_line htext hline with rfl | rfl
    · rw [readFile_entryText, hparse']
    · rw [readFile_entryLine, hparse']
  rw [ReadsAs, readFile_append crates hterminated, h, hbytes]
  rfl

end Chainlog
