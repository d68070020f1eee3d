import Chainlog.EntryLines
import Chainlog.Reference

/-!
# Appending behind any content that can be read

The reader passes over blank lines and reads a last line without its newline.
A line that is appended joins whatever stands behind the last newline, and the
joined line is read as the new entry exactly where that is white space of JSON.
-/

namespace Chainlog

/-- The white space that a JSON text may start with. -/
def isJsonSpace (c : Char) : Bool :=
  c = ' ' || c = '\t' || c = '\n' || c = '\r'

def isJsonSpaceByte (b : UInt8) : Bool :=
  b = 0x20 || b = 0x09 || b = 0x0A || b = 0x0D

/-- `from_str` reads one value, with white space of JSON before it and no
second value behind it. -/
structure SerdeJson.ReadsOneValue (serde : SerdeJson) : Prop where
  skips : ∀ space text doc, space.toList.all isJsonSpace →
    serde.fromStr text = .ok doc → serde.fromStr (space ++ text) = .ok doc
  rejectsOther : ∀ (space : String) (c : Char) rest,
    space.toList.all isJsonSpace → isWhitespace c → ¬isJsonSpace c →
    ∃ reason, serde.fromStr (space ++ String.ofList (c :: rest)) = .error reason
  rejectsSecond : ∀ text doc rest, serde.fromStr text = .ok doc →
    ∃ reason,
      serde.fromStr (text ++ String.ofList ('{' :: rest)) = .error reason

/-- Only white space of JSON stands behind the last newline. -/
def EndsClean (content : Bytes) : Prop :=
  (Lines.remainder newline content).all isJsonSpaceByte

instance (content : Bytes) : Decidable (EndsClean content) :=
  inferInstanceAs (Decidable (_ = true))

/-! ## White space -/

theorem isWhitespace_of_isJsonSpace {c : Char} (hc : isJsonSpace c) :
    isWhitespace c := by
  simp only [isJsonSpace, Bool.or_eq_true, decide_eq_true_eq] at hc
  rcases hc with ((rfl | rfl) | rfl) | rfl <;> decide

theorem isJsonSpace_iff_toNat (c : Char) :
    isJsonSpace c ↔
      c.toNat = 32 ∨ c.toNat = 9 ∨ c.toNat = 10 ∨ c.toNat = 13 := by
  have hchar : ∀ d : Char, c = d ↔ c.toNat = d.toNat := fun d =>
    ⟨congrArg Char.toNat, Char.toNat_inj.mp⟩
  simp only [isJsonSpace, Bool.or_eq_true, decide_eq_true_eq, hchar]
  simp only [or_assoc]
  rfl

theorem isJsonSpaceByte_iff_toNat (b : UInt8) :
    isJsonSpaceByte b ↔
      b.toNat = 32 ∨ b.toNat = 9 ∨ b.toNat = 10 ∨ b.toNat = 13 := by
  have hbyte : ∀ d : UInt8, b = d ↔ b.toNat = d.toNat := fun d =>
    ⟨congrArg UInt8.toNat, UInt8.toNat_inj.mp⟩
  simp only [isJsonSpaceByte, Bool.or_eq_true, decide_eq_true_eq, hbyte]
  simp only [or_assoc]
  rfl

theorem utf8EncodeChar_of_isJsonSpace {c : Char} (hc : isJsonSpace c) :
    ∃ b, String.utf8EncodeChar c = [b] ∧ isJsonSpaceByte b := by
  simp only [isJsonSpace, Bool.or_eq_true, decide_eq_true_eq] at hc
  rcases hc with ((rfl | rfl) | rfl) | rfl <;> exact ⟨_, rfl, by decide⟩

theorem all_isJsonSpaceByte_asBytes (s : String) :
    (asBytes s).all isJsonSpaceByte ↔ s.toList.all isJsonSpace := by
  simp only [List.all_eq_true, asBytes_eq_flatMap, List.mem_flatMap]
  constructor
  · intro hbytes c hc
    obtain ⟨b, hb⟩ := List.exists_mem_of_ne_nil (String.utf8EncodeChar c)
      String.utf8EncodeChar_ne_nil
    have hspace := (isJsonSpaceByte_iff_toNat b).mp (hbytes b ⟨c, hc, hb⟩)
    have hascii := (toNat_of_mem_utf8EncodeChar hb).2
    rw [isJsonSpace_iff_toNat]
    omega
  · rintro hchars b ⟨c, hc, hb⟩
    obtain ⟨byte, hencode, hspace⟩ := utf8EncodeChar_of_isJsonSpace (hchars c hc)
    rw [hencode, List.mem_singleton] at hb
    rwa [hb]

theorem isBlank_of_all_isJsonSpace {s : String}
    (hs : s.toList.all isJsonSpace) : isBlank s := by
  rw [List.all_eq_true] at hs
  exact List.all_eq_true.mpr fun c hc => isWhitespace_of_isJsonSpace (hs c hc)

theorem exists_other_of_isBlank {s : String} (hblank : isBlank s)
    (hs : ¬s.toList.all isJsonSpace) :
    ∃ (space : String) (c : Char) (rest : List Char),
      s = space ++ String.ofList (c :: rest) ∧ space.toList.all isJsonSpace ∧
        isWhitespace c ∧ ¬isJsonSpace c := by
  have hdrop : s.toList.dropWhile isJsonSpace ≠ [] := by
    rw [Ne, List.dropWhile_eq_nil_iff]
    rwa [List.all_eq_true] at hs
  obtain ⟨c, rest, hsplit⟩ := List.exists_cons_of_ne_nil hdrop
  have hlist : s.toList = s.toList.takeWhile isJsonSpace ++ c :: rest := by
    rw [← hsplit, List.takeWhile_append_dropWhile]
  refine ⟨String.ofList (s.toList.takeWhile isJsonSpace), c, rest, ?_, ?_, ?_, ?_⟩
  · apply String.toList_inj.mp
    simpa only [String.toList_append, String.toList_ofList] using hlist
  · rw [String.toList_ofList]
    exact List.all_takeWhile
  · apply List.all_eq_true.mp hblank
    rw [hlist]
    simp
  · have hfirst := List.head_dropWhile_not isJsonSpace hdrop
    simpa [hsplit] using hfirst

theorem newline_notMem_iff (s : String) :
    newline ∉ asBytes s ↔ '\n' ∉ s.toList := by
  rw [asBytes_eq_flatMap, not_iff_not, List.mem_flatMap]
  constructor
  · rintro ⟨c, hc, hb⟩
    have hascii := (toNat_of_mem_utf8EncodeChar hb).2 (by decide)
    have hnewline : c = '\n' := Char.toNat_inj.mp hascii.symm
    rwa [← hnewline]
  · intro hmem
    exact ⟨'\n', hmem, by decide⟩

/-! ## The joined line -/

variable (crates : Crates)

theorem decodeEntry_eq_ok {line : String} {e : AuditEntry}
    (h : decodeEntry crates line = .ok e) :
    ∃ doc, crates.serde.fromStr line = .ok doc ∧
      AuditEntry.ofDocument doc = .ok e :=
  bind_eq_ok.mp h

theorem decodeEntry_of_fromStr_error {line reason : String}
    (h : crates.serde.fromStr line = .error reason) :
    decodeEntry crates line = .error reason := by
  simp [decodeEntry, h, bind, Except.bind]

theorem readFile_text_line {s : String} (hs : '\n' ∉ s.toList)
    (e : AuditEntry) :
    readFile crates (.readable (asBytes s ++ entryLine crates e)) =
      match decodeEntry crates (s ++ entryText crates e) with
      | .ok entry => .ok [entry]
      | .error reason => .error (.serde reason) := by
  have hbytes : asBytes s ++ entryLine crates e =
      asBytes (s ++ entryText crates e) ++ [newline] := by
    rw [entryLine_eq, asBytes_append, List.append_assoc]
  have hdelim : newline ∉ asBytes (s ++ entryText crates e) := by
    rw [asBytes_append, List.mem_append, not_or]
    exact ⟨(newline_notMem_iff s).mpr hs,
      newline_notMem_asBytes (entryText_printable crates e)⟩
  obtain ⟨rest, hbrace⟩ := entryText_brace crates e
  have hlast : (s ++ entryText crates e).toList.getLast? ≠ some '\r' := by
    have hne : (entryText crates e).toList ≠ [] := by simp [hbrace]
    rw [String.toList_append, List.getLast?_append_of_ne_nil _ hne]
    exact getLast?_ne_of_printable (entryText_printable crates e)
  have hblank : isBlank (s ++ entryText crates e) = false := by
    have hchar : isWhitespace '{' = false := by decide
    simp [isBlank, hbrace, hchar]
  rw [hbytes]
  exact readFile_single crates (Lines.pieces_line hdelim)
    (readLine_append_newline hlast) hblank

theorem decodeEntry_space_entryText (hserde : crates.serde.ReadsOneValue)
    {e : AuditEntry} (hparse : ParsesBack crates e) {space : String}
    (hspace : space.toList.all isJsonSpace) :
    decodeEntry crates (space ++ entryText crates e) = .ok e := by
  obtain ⟨doc, hdoc, hentry⟩ := decodeEntry_eq_ok crates hparse
  have hskip := hserde.skips space _ doc hspace hdoc
  simpa [decodeEntry, hskip, bind, Except.bind] using hentry

/-- Behind anything else that can be read, the entry's line cannot. -/
theorem decodeEntry_other_entryText (hserde : crates.serde.ReadsOneValue)
    (e : AuditEntry) {s : String} (hs : ¬s.toList.all isJsonSpace)
    (hread : isBlank s ∨ ∃ entry, decodeEntry crates s = .ok entry) :
    ∃ reason, decodeEntry crates (s ++ entryText crates e) = .error reason := by
  obtain ⟨tail, hbrace⟩ := entryText_brace crates e
  have htext : entryText crates e = String.ofList ('{' :: tail) :=
    String.toList_inj.mp (by rw [hbrace, String.toList_ofList])
  have hreject : ∃ reason,
      crates.serde.fromStr (s ++ entryText crates e) = .error reason := by
    rcases hread with hblank | ⟨entry, hdecode⟩
    · obtain ⟨space, c, rest, rfl, hspace, hwhite, hother⟩ :=
        exists_other_of_isBlank hblank hs
      have hjoin : space ++ String.ofList (c :: rest) ++ entryText crates e =
          space ++ String.ofList (c :: (rest ++ (entryText crates e).toList)) := by
        apply String.toList_inj.mp
        simp [String.toList_append]
      rw [hjoin]
      exact hserde.rejectsOther space c _ hspace hwhite hother
    · obtain ⟨doc, hdoc, _⟩ := decodeEntry_eq_ok crates hdecode
      rw [htext]
      exact hserde.rejectsSecond s doc tail hdoc
  obtain ⟨reason, hreason⟩ := hreject
  exact ⟨reason, decodeEntry_of_fromStr_error crates hreason⟩

/-- Where a file without newline can be read, it is empty or one text, which is
blank or an entry. -/
theorem exists_text_of_readFile {rest : Bytes} {entries : List AuditEntry}
    (hdelim : newline ∉ rest)
    (hread : readFile crates (.readable rest) = .ok entries) :
    ∃ s, rest = asBytes s ∧ '\n' ∉ s.toList ∧
      (isBlank s ∧ entries = [] ∨ ¬isBlank s ∧
        ∃ entry, decodeEntry crates s = .ok entry ∧ entries = [entry]) := by
  by_cases hempty : rest = []
  · subst hempty
    obtain rfl := Except.ok.inj hread
    exact ⟨"", rfl, by simp, Or.inl ⟨by decide, rfl⟩⟩
  · have hpieces := Lines.pieces_unterminated hempty hdelim
    cases hutf : fromUtf8 rest with
    | none => simp [readFile, hpieces, readLines, readLine, hutf] at hread
    | some s =>
        obtain rfl := fromUtf8_eq_some.mp hutf
        have hs := (newline_notMem_iff s).mp hdelim
        have hline := readLine_of_notMem hs
        refine ⟨s, rfl, hs, ?_⟩
        cases hblank : isBlank s with
        | true =>
            simp [readFile, hpieces, readLines, hline, hblank] at hread
            exact Or.inl ⟨rfl, hread⟩
        | false =>
            rw [readFile_single crates hpieces hline hblank] at hread
            cases hdecode : decodeEntry crates s with
            | error reason => simp [hdecode] at hread
            | ok entry =>
                rw [hdecode] at hread
                exact Or.inr ⟨by simp, entry, rfl, (Except.ok.inj hread).symm⟩

theorem readFile_remainder_line (hserde : crates.serde.ReadsOneValue)
    {e : AuditEntry} (hparse : ParsesBack crates e) {rest : Bytes}
    {entries : List AuditEntry} (hdelim : newline ∉ rest)
    (hread : readFile crates (.readable rest) = .ok entries) :
    (rest.all isJsonSpaceByte →
      readFile crates (.readable (rest ++ entryLine crates e)) =
        .ok (entries ++ [e])) ∧
    (¬rest.all isJsonSpaceByte → ∃ err,
      readFile crates (.readable (rest ++ entryLine crates e)) =
        .error err) := by
  obtain ⟨s, rfl, hs, hcontent⟩ := exists_text_of_readFile crates hdelim hread
  rw [readFile_text_line crates hs e]
  constructor
  · intro hclean
    have hspace := (all_isJsonSpaceByte_asBytes s).mp hclean
    rcases hcontent with ⟨_, rfl⟩ | ⟨hblank, _⟩
    · rw [decodeEntry_space_entryText crates hserde hparse hspace]
      rfl
    · exact absurd (isBlank_of_all_isJsonSpace hspace) hblank
  · intro hclean
    have hother : ¬s.toList.all isJsonSpace := fun hspace =>
      hclean ((all_isJsonSpaceByte_asBytes s).mpr hspace)
    have hkind : isBlank s ∨ ∃ entry, decodeEntry crates s = .ok entry :=
      hcontent.imp And.left fun ⟨_, entry, hdecode, _⟩ => ⟨entry, hdecode⟩
    obtain ⟨reason, hreject⟩ :=
      decodeEntry_other_entryText crates hserde e hother hkind
    rw [hreject]
    exact ⟨_, rfl⟩

theorem not_endsClean_entryText (e : AuditEntry) :
    ¬EndsClean (asBytes (entryText crates e)) := by
  obtain ⟨rest, hbrace⟩ := entryText_brace crates e
  rw [EndsClean, Lines.remainder_of_notMem
    (newline_notMem_asBytes (entryText_printable crates e)),
    all_isJsonSpaceByte_asBytes, hbrace]
  have hchar : isJsonSpace '{' = false := by decide
  simp [hchar]

/-- Appending behind a file that can be read. -/
theorem readFile_append_line (hserde : crates.serde.ReadsOneValue)
    {e : AuditEntry} (hparse : ParsesBack crates e) {content : Bytes}
    {entries : List AuditEntry}
    (hread : readFile crates (.readable content) = .ok entries) :
    (EndsClean content →
      readFile crates (.readable (content ++ entryLine crates e)) =
        .ok (entries ++ [e])) ∧
    (¬EndsClean content → ∃ err,
      readFile crates (.readable (content ++ entryLine crates e)) =
        .error err) := by
  obtain ⟨front, hfront, hsplit⟩ :=
    Lines.exists_terminated_append_remainder newline content
  unfold EndsClean
  have hdelim := Lines.notMem_remainder newline content
  generalize Lines.remainder newline content = rest at hsplit hdelim ⊢
  subst hsplit
  rw [readFile_append crates hfront] at hread
  rw [List.append_assoc, readFile_append crates hfront]
  cases hbefore : readFile crates (.readable front) with
  | error err => simp [hbefore] at hread
  | ok before =>
      cases hlast : readFile crates (.readable rest) with
      | error err => simp [hbefore, hlast, Except.map] at hread
      | ok last =>
          obtain rfl : before ++ last = entries := by
            simpa [hbefore, hlast, Except.map] using hread
          have hline := readFile_remainder_line crates hserde hparse hdelim hlast
          constructor
          · intro hclean
            rw [hline.1 hclean]
            simp [Except.map]
          · intro hclean
            obtain ⟨err, herr⟩ := hline.2 hclean
            rw [herr]
            exact ⟨err, rfl⟩

/-! ## A parser that skips white space -/

noncomputable def skippingParse (limit : ℕ) (text : String) :
    Except String Document :=
  referenceParse limit (String.ofList (text.toList.dropWhile isJsonSpace))

noncomputable def skippingSerde (limit : ℕ) : SerdeJson where
  toText := referenceText
  fromStr := skippingParse limit
  toText_printable := (referenceSerde limit).toText_printable
  toText_object := (referenceSerde limit).toText_object

noncomputable def skippingCrates : Crates where
  serde := skippingSerde 127
  blake3 := Blake3.hash

theorem referenceText_of_parse {limit : ℕ} {text : String} {doc : Document}
    (h : referenceParse limit text = .ok doc) : referenceText doc = text := by
  by_contra hne
  rw [referenceParse_of_ne] at h
  · cases h
  · intro other hother
    rw [← hother, referenceParse_text] at h
    split_ifs at h with hdepth
    rw [Except.ok.inj h] at hother
    exact hne hother

theorem isWhitespace_of_numberChar {c : Char} (hc : Json.numberChar c) :
    isWhitespace c = false := by
  simp only [Json.numberChar, Bool.or_eq_true, decide_eq_true_eq] at hc
  rcases hc with ((((h | rfl) | rfl) | rfl) | rfl) | rfl
  · simp only [Char.isDigit, Bool.and_eq_true, decide_eq_true_eq] at h
    have hlow : (48 : UInt32).toNat ≤ c.val.toNat := h.1
    have hhigh : c.val.toNat ≤ (57 : UInt32).toNat := h.2
    have hval : c.val.toNat = c.toNat := rfl
    simp only [UInt32.reduceToNat] at hlow hhigh
    simp only [isWhitespace, Bool.or_eq_false_iff, Bool.and_eq_false_iff,
      decide_eq_false_iff_not]
    omega
  all_goals decide

theorem head_referenceText (doc : Document) :
    ∃ c rest, (referenceText doc).toList = c :: rest ∧
      isWhitespace c = false := by
  obtain ⟨c, rest, hrender, hleader⟩ := Json.render_leader Number.printer doc
  refine ⟨c, rest, by rw [referenceText, String.toList_ofList, hrender], ?_⟩
  rcases hleader with hleader | ⟨_, hnumber⟩
  · cases doc with
    | bool b => cases b <;> (obtain rfl := Option.some.inj hleader; decide)
    | number n => cases hleader
    | _ => obtain rfl := Option.some.inj hleader; decide
  · exact isWhitespace_of_numberChar hnumber

theorem dropWhile_referenceText (doc : Document) :
    (referenceText doc).toList.dropWhile isJsonSpace =
      (referenceText doc).toList := by
  obtain ⟨c, rest, hlist, hwhite⟩ := head_referenceText doc
  rw [hlist, List.dropWhile_cons_of_neg]
  intro hspace
  rw [isWhitespace_of_isJsonSpace hspace] at hwhite
  cases hwhite

theorem skippingParse_text (limit : ℕ) (doc : Document) :
    skippingParse limit (referenceText doc) =
      referenceParse limit (referenceText doc) := by
  rw [skippingParse, dropWhile_referenceText, String.ofList_toList]

theorem skippingSerde_invertsUpTo (limit : ℕ) :
    (skippingSerde limit).InvertsUpTo limit := by
  intro doc
  obtain ⟨hread, hreject⟩ := referenceSerde_invertsUpTo limit doc
  refine ⟨fun hdepth => ?_, fun hdepth => ?_⟩
  · exact (skippingParse_text limit doc).trans (hread hdepth)
  · obtain ⟨reason, hreason⟩ := hreject hdepth
    exact ⟨reason, (skippingParse_text limit doc).trans hreason⟩

theorem skippingParse_other {limit : ℕ} {space : String} {c : Char}
    {rest : List Char} (hspace : space.toList.all isJsonSpace)
    (hwhite : isWhitespace c) (hother : ¬isJsonSpace c) :
    skippingParse limit (space ++ String.ofList (c :: rest)) =
      .error "expected value" := by
  have hdrop : (space ++ String.ofList (c :: rest)).toList.dropWhile
      isJsonSpace = c :: rest := by
    rw [String.toList_append, String.toList_ofList,
      List.dropWhile_append_of_pos (List.all_eq_true.mp hspace),
      List.dropWhile_cons_of_neg hother]
  rw [skippingParse, hdrop]
  apply referenceParse_of_ne
  intro doc hdoc
  obtain ⟨d, tail, hlist, hd⟩ := head_referenceText doc
  rw [hdoc, String.toList_ofList] at hlist
  obtain rfl := (List.cons.inj hlist).1
  rw [hwhite] at hd
  cases hd

theorem skippingParse_second {limit : ℕ} {text : String} {doc : Document}
    (hread : skippingParse limit text = .ok doc) (rest : List Char) :
    skippingParse limit (text ++ String.ofList ('{' :: rest)) =
      .error "expected value" := by
  have htext := referenceText_of_parse hread
  have hdrop : text.toList.dropWhile isJsonSpace =
      doc.render Number.printer := by
    have hlist := congrArg String.toList htext
    rwa [String.toList_ofList, referenceText, String.toList_ofList, eq_comm]
      at hlist
  have hne : text.toList.dropWhile isJsonSpace ≠ [] := by
    obtain ⟨c, tail, hrender, _⟩ := Json.render_leader Number.printer doc
    rw [hdrop, hrender]
    exact List.cons_ne_nil c tail
  have hjoin : (text ++ String.ofList ('{' :: rest)).toList.dropWhile
      isJsonSpace = doc.render Number.printer ++ '{' :: rest := by
    rw [String.toList_append, String.toList_ofList, List.dropWhile_append,
      if_neg (by simpa using hne), hdrop]
  rw [skippingParse, hjoin]
  apply referenceParse_of_ne
  intro other hother
  have hrender : doc.render Number.printer ++ '{' :: rest =
      other.render Number.printer ++ [] := by
    rw [List.append_nil]
    exact (String.ofList_injective hother).symm
  obtain ⟨_, hrest⟩ := Json.render_append_inj Number.printer doc other _ _
    (fun _ => ⟨Json.endsNumber_cons (by decide) rest, by simp [Json.EndsNumber]⟩)
    hrender
  cases hrest

theorem skippingSerde_readsOneValue (limit : ℕ) :
    (skippingSerde limit).ReadsOneValue where
  skips space text doc hspace hread := by
    have hdrop : (space ++ text).toList.dropWhile isJsonSpace =
        text.toList.dropWhile isJsonSpace := by
      rw [String.toList_append,
        List.dropWhile_append_of_pos (List.all_eq_true.mp hspace)]
    show skippingParse limit (space ++ text) = .ok doc
    rw [skippingParse, hdrop]
    exact hread
  rejectsOther space c rest hspace hwhite hother :=
    ⟨_, skippingParse_other hspace hwhite hother⟩
  rejectsSecond text doc rest hread := ⟨_, skippingParse_second hread rest⟩

end Chainlog
