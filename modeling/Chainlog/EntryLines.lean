import Chainlog.LogStore

/-!
# Lines of entries

An entry is stored as one line: its compact JSON, which holds no line break
and starts with a brace, and a newline.  A line behind a terminated file is
read on its own; without its newline it is still read, but whatever is appended
next joins it.
-/

namespace Chainlog

variable (crates : Crates)

/-- The JSON text of an entry. -/
def entryText (e : AuditEntry) : String := crates.serde.toText e.toDocument

/-- `serde_json` reads the stored text back as the same entry. -/
def ParsesBack (e : AuditEntry) : Prop :=
  decodeEntry crates (entryText crates e) = .ok e

/-- A parser that inverts printing up to a nesting limit reads back exactly the
entries within it. -/
theorem parsesBack_iff_of_invertsUpTo {limit : ℕ}
    (hserde : crates.serde.InvertsUpTo limit) (e : AuditEntry) :
    ParsesBack crates e ↔ e.toDocument.depth ≤ limit := by
  constructor
  · intro hparse
    by_contra hdeep
    obtain ⟨reason, hreject⟩ := (hserde e.toDocument).2 (by omega)
    simp [ParsesBack, decodeEntry, entryText, hreject, bind, Except.bind]
      at hparse
  · intro hdepth
    simp [ParsesBack, decodeEntry, entryText, (hserde e.toDocument).1 hdepth,
      bind, Except.bind]

theorem entryLine_eq (e : AuditEntry) :
    entryLine crates e = asBytes (entryText crates e) ++ [newline] := rfl

/-! ## One line -/

theorem entryText_printable (e : AuditEntry) :
    ∀ c ∈ (entryText crates e).toList, 32 ≤ c.toNat :=
  crates.serde.toText_printable _

theorem entryText_brace (e : AuditEntry) :
    ∃ rest, (entryText crates e).toList = '{' :: rest :=
  crates.serde.toText_object _

theorem newline_notMem_asBytes {s : String}
    (hs : ∀ c ∈ s.toList, 32 ≤ c.toNat) : newline ∉ asBytes s := by
  intro hmem
  have hbyte := toNat_of_mem_asBytes hs hmem
  exact absurd hbyte (by decide)

theorem stripLineEnd_of_notMem {s : String} (hs : '\n' ∉ s.toList) :
    stripLineEnd s = s := by
  unfold stripLineEnd
  split
  · next hrev =>
      refine absurd ?_ hs
      rw [← List.mem_reverse, hrev]
      exact List.mem_cons_self
  · next hrev =>
      refine absurd ?_ hs
      rw [← List.mem_reverse, hrev]
      exact List.mem_cons_self
  · rfl

/-- A final newline goes alone where no carriage return stands before it. -/
theorem stripLineEnd_append_newline {s : String}
    (hs : s.toList.getLast? ≠ some '\r') : stripLineEnd (s ++ "\n") = s := by
  have hlist : (s ++ "\n").toList.reverse = '\n' :: s.toList.reverse := by
    simp [String.toList_append]
  unfold stripLineEnd
  rw [hlist]
  split
  · next rest hrev =>
      refine absurd ?_ hs
      rw [← List.head?_reverse, (List.cons.inj hrev).2]
      rfl
  · next rest _ hrev =>
      rw [← (List.cons.inj hrev).2, List.reverse_reverse, String.ofList_toList]
  · next h => exact absurd rfl (h _)

theorem getLast?_ne_of_printable {s : String}
    (hs : ∀ c ∈ s.toList, 32 ≤ c.toNat) : s.toList.getLast? ≠ some '\r' := by
  intro hlast
  exact absurd (hs _ (List.mem_of_getLast? hlast)) (by decide)

theorem newline_notMem_of_printable {s : String}
    (hs : ∀ c ∈ s.toList, 32 ≤ c.toNat) : '\n' ∉ s.toList :=
  fun hmem => absurd (hs _ hmem) (by decide)

theorem asBytes_newline : asBytes "\n" = [newline] := by decide

theorem readLine_append_newline {s : String}
    (hs : s.toList.getLast? ≠ some '\r') :
    readLine (asBytes s ++ [newline]) = .ok s := by
  rw [← asBytes_newline, ← asBytes_append, readLine, fromUtf8_asBytes]
  exact congrArg Except.ok (stripLineEnd_append_newline hs)

theorem readLine_of_notMem {s : String} (hs : '\n' ∉ s.toList) :
    readLine (asBytes s) = .ok s := by
  rw [readLine, fromUtf8_asBytes]
  exact congrArg Except.ok (stripLineEnd_of_notMem hs)

theorem readLine_line {s : String} (hs : ∀ c ∈ s.toList, 32 ≤ c.toNat) :
    readLine (asBytes s ++ [newline]) = .ok s :=
  readLine_append_newline (getLast?_ne_of_printable hs)

theorem readLine_text {s : String} (hs : ∀ c ∈ s.toList, 32 ≤ c.toNat) :
    readLine (asBytes s) = .ok s :=
  readLine_of_notMem (newline_notMem_of_printable hs)

theorem isBlank_of_brace {s : String} {rest : List Char}
    (hs : s.toList = '{' :: rest) : isBlank s = false := by
  have hbrace : isWhitespace '{' = false := by decide
  simp [isBlank, hs, hbrace]

/-! ## Reading on -/

theorem readLines_append (left right : List Bytes) :
    readLines crates (left ++ right) =
      match readLines crates left with
      | .error err => .error err
      | .ok entries => (readLines crates right).map (entries ++ ·) := by
  induction left with
  | nil =>
      cases hright : readLines crates right <;>
        simp [readLines, hright, Except.map]
  | cons piece rest ih =>
      rw [List.cons_append, readLines, readLines]
      cases hline : readLine piece with
      | error err => rfl
      | ok line =>
          by_cases hblank : isBlank line
          · simpa only [hblank, if_true] using ih
          · simp only [hblank, Bool.false_eq_true, if_false]
            cases hdecode : decodeEntry crates line with
            | error reason => rfl
            | ok entry =>
                simp only [ih]
                cases readLines crates rest with
                | error err => rfl
                | ok entries =>
                    cases readLines crates right <;> rfl

/-- Bytes behind a terminated file are read on their own. -/
theorem readFile_append {content : Bytes}
    (hterminated : Lines.Terminated newline content) (more : Bytes) :
    readFile crates (.readable (content ++ more)) =
      match readFile crates (.readable content) with
      | .error err => .error err
      | .ok entries =>
          (readFile crates (.readable more)).map (entries ++ ·) := by
  simp only [readFile, Lines.pieces_append hterminated]
  exact readLines_append crates _ _

theorem readFile_single {piece : Bytes} {s : String}
    (hpieces : Lines.pieces newline piece = [piece])
    (hline : readLine piece = .ok s) (hblank : isBlank s = false) :
    readFile crates (.readable piece) =
      match decodeEntry crates s with
      | .ok entry => .ok [entry]
      | .error reason => .error (.serde reason) := by
  rw [readFile, hpieces, readLines, hline]
  simp only [hblank, Bool.false_eq_true, if_false]
  cases decodeEntry crates s <;> rfl

theorem asBytes_ne_nil_of_brace {s : String} {rest : List Char}
    (hs : s.toList = '{' :: rest) : asBytes s ≠ [] := by
  rw [asBytes_eq_flatMap, hs]
  simp [String.utf8EncodeChar_ne_nil]

theorem ne_nil_of_wholeText {e : AuditEntry} {bytes : Bytes}
    (hwhole : asBytes (entryText crates e) <+: bytes) : bytes ≠ [] := by
  rintro rfl
  obtain ⟨rest, hbrace⟩ := entryText_brace crates e
  exact asBytes_ne_nil_of_brace hbrace (List.prefix_nil.mp hwhole)

theorem readFile_entryLine (e : AuditEntry) :
    readFile crates (.readable (entryLine crates e)) =
      match decodeEntry crates (entryText crates e) with
      | .ok entry => .ok [entry]
      | .error reason => .error (.serde reason) := by
  obtain ⟨rest, hbrace⟩ := entryText_brace crates e
  exact readFile_single crates
    (Lines.pieces_line (newline_notMem_asBytes (entryText_printable crates e)))
    (readLine_line (entryText_printable crates e)) (isBlank_of_brace hbrace)

theorem readFile_entryText (e : AuditEntry) :
    readFile crates (.readable (asBytes (entryText crates e))) =
      match decodeEntry crates (entryText crates e) with
      | .ok entry => .ok [entry]
      | .error reason => .error (.serde reason) := by
  obtain ⟨rest, hbrace⟩ := entryText_brace crates e
  exact readFile_single crates
    (Lines.pieces_unterminated (asBytes_ne_nil_of_brace hbrace)
      (newline_notMem_asBytes (entryText_printable crates e)))
    (readLine_text (entryText_printable crates e)) (isBlank_of_brace hbrace)

/-! ## Cut and joined lines -/

theorem entryText_object (e : AuditEntry) :
    ∃ members, entryText crates e = crates.serde.toText (.object members) :=
  ⟨_, rfl⟩

theorem readFile_cut (htruncated : crates.serde.RejectsTruncated)
    (e : AuditEntry) {bytes : Bytes} (hne : bytes ≠ [])
    (hinit : bytes <+: asBytes (entryText crates e))
    (hcut : bytes ≠ asBytes (entryText crates e)) :
    ∃ err, readFile crates (.readable bytes) = .error err := by
  have hprintable := entryText_printable crates e
  have hpieces : Lines.pieces newline bytes = [bytes] :=
    Lines.pieces_unterminated hne fun hmem =>
      newline_notMem_asBytes hprintable (hinit.subset hmem)
  cases hutf : fromUtf8 bytes with
  | none =>
      exact ⟨.io "stream did not contain valid UTF-8", by
        simp [readFile, hpieces, readLines, readLine, hutf]⟩
  | some s =>
      obtain rfl := fromUtf8_eq_some.mp hutf
      obtain ⟨rest, hrest⟩ := exists_append_of_asBytes_prefix hinit
      have hs : ∀ c ∈ s.toList, 32 ≤ c.toNat := by
        intro c hc
        apply hprintable
        rw [hrest, String.toList_append]
        exact List.mem_append_left _ hc
      have hbrace : ∃ tail, s.toList = '{' :: tail := by
        obtain ⟨tail, htail⟩ := entryText_brace crates e
        rw [hrest, String.toList_append] at htail
        cases hlist : s.toList with
        | nil =>
            have hempty : s = "" := String.toList_inj.mp (by simpa using hlist)
            subst s
            exact absurd rfl hne
        | cons c cs =>
            rw [hlist, List.cons_append] at htail
            exact ⟨cs, by rw [(List.cons.inj htail).1]⟩
      have hproper : rest ≠ "" := by
        rintro rfl
        exact hcut (by rw [hrest, String.append_empty])
      obtain ⟨members, hobject⟩ := entryText_object crates e
      obtain ⟨reason, hreject⟩ :=
        htruncated members s rest (hobject.symm.trans hrest) hproper
      obtain ⟨tail, htail⟩ := hbrace
      refine ⟨.serde reason, ?_⟩
      rw [readFile_single crates hpieces (readLine_text hs)
        (isBlank_of_brace htail)]
      simp [decodeEntry, hreject, bind, Except.bind]

end Chainlog
