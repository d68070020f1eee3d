import Mathlib.Data.List.DropRight
import Mathlib.Tactic

/-!
# Paths of URLs

How the text behind a host becomes the segments of a path.  White space at the
end and tabs and newlines anywhere are dropped, a question mark or a number
sign ends the path, both slashes separate, and dot segments are resolved.
Percent-decoding undoes what the parser encodes, and a text comes back exactly
if nothing in it has a meaning of its own.
-/

namespace UrlPath

/-! ## Percent-encoding -/

def hexDigit (n : ℕ) : Char :=
  if n < 10 then Char.ofNat (48 + n) else Char.ofNat (55 + n)

def hexValue (c : Char) : Option ℕ :=
  if 48 ≤ c.toNat ∧ c.toNat ≤ 57 then some (c.toNat - 48)
  else if 65 ≤ c.toNat ∧ c.toNat ≤ 70 then some (c.toNat - 55)
  else if 97 ≤ c.toNat ∧ c.toNat ≤ 102 then some (c.toNat - 87)
  else none

theorem hexValue_hexDigit : ∀ n < 16, hexValue (hexDigit n) = some n := by
  decide

def utf8 (text : List Char) : List UInt8 := text.flatMap String.utf8EncodeChar

/-- The escape of one byte. -/
def escape (b : UInt8) : List Char :=
  ['%', hexDigit (b.toNat / 16), hexDigit (b.toNat % 16)]

/-- Escape the UTF-8 bytes of the characters of a set. -/
def percentEncode (escaped : Char → Bool) (text : List Char) : List Char :=
  text.flatMap fun c =>
    if escaped c then (String.utf8EncodeChar c).flatMap escape else [c]

/-- The byte of an escape at the front of a text. -/
def escapedByte : List Char → Option UInt8
  | '%' :: high :: low :: _ =>
      match hexValue high, hexValue low with
      | some a, some b => some (UInt8.ofNat (16 * a + b))
      | _, _ => none
  | _ => none

/-- Read the escapes; a percent sign without two digits stands for itself. -/
def percentDecode : List Char → List UInt8
  | '%' :: high :: low :: rest =>
      match hexValue high, hexValue low with
      | some a, some b => UInt8.ofNat (16 * a + b) :: percentDecode rest
      | _, _ => String.utf8EncodeChar '%' ++ percentDecode (high :: low :: rest)
  | c :: rest => String.utf8EncodeChar c ++ percentDecode rest
  | [] => []

/-- No escape stands in the text. -/
def Unescaped (text : List Char) : Prop :=
  ∀ part, part <:+ text → escapedByte part = none

theorem utf8_cons (c : Char) (text : List Char) :
    utf8 (c :: text) = String.utf8EncodeChar c ++ utf8 text :=
  List.flatMap_cons

theorem percentDecode_of_escape {high low : Char} {a b : ℕ}
    (ha : hexValue high = some a) (hb : hexValue low = some b)
    (rest : List Char) :
    percentDecode ('%' :: high :: low :: rest) =
      UInt8.ofNat (16 * a + b) :: percentDecode rest := by
  rw [percentDecode, ha, hb]

theorem percentDecode_of_none {c : Char} {rest : List Char}
    (h : escapedByte (c :: rest) = none) :
    percentDecode (c :: rest) =
      String.utf8EncodeChar c ++ percentDecode rest := by
  by_cases hshape : ∃ high low tail, c = '%' ∧ rest = high :: low :: tail
  · obtain ⟨high, low, tail, rfl, rfl⟩ := hshape
    rw [percentDecode]
    split
    · next a b ha hb => simp [escapedByte, ha, hb] at h
    · rfl
  · rw [percentDecode]
    rintro high low tail rfl rfl
    exact hshape ⟨high, low, tail, rfl, rfl⟩

theorem percentDecode_of_ne {c : Char} (hc : c ≠ '%') (rest : List Char) :
    percentDecode (c :: rest) =
      String.utf8EncodeChar c ++ percentDecode rest := by
  apply percentDecode_of_none
  unfold escapedByte
  split
  · next heq => exact absurd (List.cons.inj heq).1 hc
  · rfl

theorem percentDecode_escape (b : UInt8) (rest : List Char) :
    percentDecode (escape b ++ rest) = b :: percentDecode rest := by
  have hlt := b.toNat_lt
  rw [escape, List.cons_append, List.cons_append, List.cons_append,
    List.nil_append, percentDecode_of_escape
      (hexValue_hexDigit _ (by omega)) (hexValue_hexDigit _ (by omega)),
    Nat.div_add_mod, UInt8.ofNat_toNat]

theorem percentDecode_escapes (bytes : List UInt8) (rest : List Char) :
    percentDecode (bytes.flatMap escape ++ rest) =
      bytes ++ percentDecode rest := by
  induction bytes with
  | nil => rfl
  | cons b bytes ih =>
      rw [List.flatMap_cons, List.append_assoc, percentDecode_escape, ih,
        List.cons_append]

/-- A set that leaves escapes as they are. -/
def KeepsEscapes (escaped : Char → Bool) : Prop :=
  ∀ c, escaped c → c ≠ '%' ∧ hexValue c = none

section Encoding

variable {escaped : Char → Bool}

theorem percentEncode_cons_of_escaped {c : Char} (hc : escaped c)
    (text : List Char) :
    percentEncode escaped (c :: text) =
      (String.utf8EncodeChar c).flatMap escape ++ percentEncode escaped text := by
  rw [percentEncode, List.flatMap_cons, if_pos hc]
  rfl

theorem percentEncode_cons_of_kept {c : Char} (hc : ¬escaped c)
    (text : List Char) :
    percentEncode escaped (c :: text) = c :: percentEncode escaped text := by
  rw [percentEncode, List.flatMap_cons, if_neg hc]
  rfl

/-- What the parser writes for a character starts with a percent sign, or is
the character. -/
theorem percentEncode_cons (escaped : Char → Bool) (c : Char)
    (text : List Char) :
    (escaped c = true ∧
      ∃ tail, percentEncode escaped (c :: text) = '%' :: tail) ∨
    (¬escaped c ∧
      percentEncode escaped (c :: text) = c :: percentEncode escaped text) := by
  by_cases hc : escaped c
  · left
    refine ⟨hc, ?_⟩
    rw [percentEncode_cons_of_escaped hc]
    obtain ⟨b, bytes, hbytes⟩ := List.exists_cons_of_ne_nil
      (String.utf8EncodeChar_ne_nil (c := c))
    rw [hbytes]
    exact ⟨_, rfl⟩
  · exact Or.inr ⟨hc, percentEncode_cons_of_kept hc text⟩

theorem escapedByte_of_high {high : Char} (h : hexValue high = none)
    (rest : List Char) : escapedByte ('%' :: high :: rest) = none := by
  cases rest with
  | nil => rfl
  | cons low rest => simp [escapedByte, h]

theorem escapedByte_of_low {low : Char} (h : hexValue low = none)
    (high : Char) (rest : List Char) :
    escapedByte ('%' :: high :: low :: rest) = none := by
  cases hhigh : hexValue high <;> simp [escapedByte, h, hhigh]

theorem escapedByte_percentEncode {text : List Char}
    (h : escapedByte ('%' :: text) = none) :
    escapedByte ('%' :: percentEncode escaped text) = none := by
  have hpercent : hexValue '%' = none := by decide
  cases text with
  | nil => rfl
  | cons high rest =>
      rcases percentEncode_cons escaped high rest with
        ⟨_, tail, htail⟩ | ⟨_, hkept⟩
      · rw [htail]
        exact escapedByte_of_high hpercent tail
      · rw [hkept]
        cases hhigh : hexValue high with
        | none => exact escapedByte_of_high hhigh _
        | some a =>
            cases rest with
            | nil => rfl
            | cons low rest =>
                rcases percentEncode_cons escaped low rest with
                  ⟨_, tail, htail⟩ | ⟨_, hkept⟩
                · rw [htail]
                  exact escapedByte_of_low hpercent high tail
                · rw [hkept]
                  cases hlow : hexValue low with
                  | none => exact escapedByte_of_low hlow high _
                  | some b => simp [escapedByte, hhigh, hlow] at h

theorem percentDecode_percentEncode_cons {c : Char} {rest : List Char}
    (h : escapedByte (c :: rest) = none)
    (ih : percentDecode (percentEncode escaped rest) = percentDecode rest) :
    percentDecode (percentEncode escaped (c :: rest)) =
      percentDecode (c :: rest) := by
  rw [percentDecode_of_none h]
  by_cases hc : escaped c
  · rw [percentEncode_cons_of_escaped hc, percentDecode_escapes, ih]
  · rw [percentEncode_cons_of_kept hc]
    by_cases hpercent : c = '%'
    · subst hpercent
      rw [percentDecode_of_none (escapedByte_percentEncode h), ih]
    · rw [percentDecode_of_ne hpercent, ih]

/-- Decoding undoes encoding, and reads the escapes that stood there before. -/
theorem percentDecode_percentEncode (hset : KeepsEscapes escaped)
    (text : List Char) :
    percentDecode (percentEncode escaped text) = percentDecode text := by
  induction text using percentDecode.induct with
  | case1 high low rest a b hb ha ih =>
      have hkept : ∀ c, hexValue c ≠ none ∨ c = '%' → ¬escaped c := by
        intro c hc hescaped
        obtain ⟨hne, hnone⟩ := hset c hescaped
        exact hc.elim (fun h => h hnone) fun h => hne h
      rw [percentEncode_cons_of_kept (hkept '%' (Or.inr rfl)),
        percentEncode_cons_of_kept (hkept high (Or.inl (by simp [ha]))),
        percentEncode_cons_of_kept (hkept low (Or.inl (by simp [hb]))),
        percentDecode_of_escape ha hb, percentDecode_of_escape ha hb, ih]
  | case2 high low rest hdigits ih =>
      refine percentDecode_percentEncode_cons ?_ ih
      cases hhigh : hexValue high with
      | none => exact escapedByte_of_high hhigh _
      | some a =>
          cases hlow : hexValue low with
          | none => exact escapedByte_of_low hlow high rest
          | some b => exact absurd hlow (hdigits a b hhigh)
  | case3 c rest hshape ih =>
      refine percentDecode_percentEncode_cons ?_ ih
      unfold escapedByte
      split
      · next heq =>
          obtain ⟨rfl, rfl⟩ := List.cons.inj heq
          exact absurd rfl (hshape _ _ _ rfl)
      · rfl
  | case4 => rfl

end Encoding

/-! ## Texts that stand for themselves -/

theorem length_utf8_cons (c : Char) (text : List Char) :
    (utf8 text).length < (utf8 (c :: text)).length := by
  rw [utf8_cons, List.length_append]
  have hpos := List.length_pos_of_ne_nil (String.utf8EncodeChar_ne_nil (c := c))
  omega

theorem escapedByte_eq_some {text : List Char} {b : UInt8}
    (h : escapedByte text = some b) :
    ∃ high low rest, text = '%' :: high :: low :: rest ∧
      percentDecode text = b :: percentDecode rest := by
  unfold escapedByte at h
  split at h
  · next high low rest =>
      split at h
      · next x y hx hy =>
          refine ⟨high, low, rest, rfl, ?_⟩
          rw [percentDecode_of_escape hx hy, Option.some.inj h]
      · cases h
  · cases h

theorem length_percentDecode_le (text : List Char) :
    (percentDecode text).length ≤ (utf8 text).length := by
  induction text using percentDecode.induct with
  | case1 high low rest a b hb ha ih =>
      have hpercent := length_utf8_cons '%' (high :: low :: rest)
      have hhigh := length_utf8_cons high (low :: rest)
      have hlow := length_utf8_cons low rest
      rw [percentDecode_of_escape ha hb, List.length_cons]
      omega
  | case2 high low rest hdigits ih =>
      rw [percentDecode, utf8_cons]
      split
      · next a b ha hb => exact absurd hb (hdigits a b ha)
      · simpa using ih
  | case3 c rest hshape ih =>
      rw [percentDecode, utf8_cons]
      · simpa using ih
      · exact hshape
  | case4 => exact Nat.le_refl _

theorem length_percentDecode_lt {text : List Char} {b : UInt8}
    (h : escapedByte text = some b) :
    (percentDecode text).length < (utf8 text).length := by
  obtain ⟨high, low, rest, rfl, hdecode⟩ := escapedByte_eq_some h
  have hpercent := length_utf8_cons '%' (high :: low :: rest)
  have hhigh := length_utf8_cons high (low :: rest)
  have hlow := length_utf8_cons low rest
  have hrest := length_percentDecode_le rest
  rw [hdecode, List.length_cons]
  omega

theorem unescaped_cons {c : Char} {text : List Char} :
    Unescaped (c :: text) ↔ escapedByte (c :: text) = none ∧ Unescaped text := by
  constructor
  · intro h
    exact ⟨h _ (List.suffix_refl _),
      fun part hpart => h part (hpart.trans (List.suffix_cons c text))⟩
  · rintro ⟨hfront, hrest⟩ part hpart
    rcases List.suffix_cons_iff.mp hpart with rfl | hpart
    · exact hfront
    · exact hrest part hpart

/-- A text is its own decoding exactly if it holds no escape. -/
theorem percentDecode_eq_utf8_iff (text : List Char) :
    percentDecode text = utf8 text ↔ Unescaped text := by
  induction text with
  | nil =>
      refine iff_of_true rfl fun part hpart => ?_
      rw [List.suffix_nil.mp hpart]
      rfl
  | cons c text ih =>
      rw [unescaped_cons]
      cases hfront : escapedByte (c :: text) with
      | some b =>
          refine iff_of_false (fun h => ?_) fun h => by cases h.1
          exact absurd (congrArg List.length h)
            (Nat.ne_of_lt (length_percentDecode_lt hfront))
      | none =>
          rw [percentDecode_of_none hfront, utf8_cons,
            List.append_cancel_left_eq, ih]
          simp

/-! ## Segments -/

/-- Controls and the space, which are dropped at the end of a URL. -/
def isBlankEnd (c : Char) : Bool := c.toNat ≤ 32

def isDropped (c : Char) : Bool := c = '\t' || c = '\n' || c = '\r'

/-- Where the query or the fragment starts. -/
def endsPath (c : Char) : Bool := c = '?' || c = '#'

def isSlash (c : Char) : Bool := c = '/' || c = '\\'

/-- What is left of the text as path. -/
def clean (text : List Char) : List Char :=
  ((text.rdropWhile isBlankEnd).filter (!isDropped ·)).takeWhile (!endsPath ·)

def isSingleDot (segment : List Char) : Bool :=
  segment.map Char.toLower ∈ [['.'], ['%', '2', 'e']]

def isDoubleDot (segment : List Char) : Bool :=
  segment.map Char.toLower ∈
    [['.', '.'], ['.', '%', '2', 'e'], ['%', '2', 'e', '.'],
      ['%', '2', 'e', '%', '2', 'e']]

/-- Resolve the dot segments; one at the end leaves an empty segment. -/
def resolve (path : List (List Char)) : List (List Char) → List (List Char)
  | [] => path
  | [last] =>
      if isDoubleDot last then path.dropLast ++ [[]]
      else if isSingleDot last then path ++ [[]]
      else path ++ [last]
  | segment :: rest =>
      if isDoubleDot segment then resolve path.dropLast rest
      else if isSingleDot segment then resolve path rest
      else resolve (path ++ [segment]) rest

/-- The segments of the path that a text behind a host is read as. -/
def path (escaped : Char → Bool) (text : List Char) : List (List Char) :=
  resolve []
    (((clean text).splitOnP isSlash).tail.map (percentEncode escaped))

/-- What stands behind the last slash of the path. -/
def lastSegment (text : List Char) : List Char :=
  (clean text).rtakeWhile (!isSlash ·)

theorem exists_resolve_eq (path front : List (List Char)) (last : List Char) :
    ∃ kept, resolve path (front ++ [last]) = kept ++ [last] ∨
      resolve path (front ++ [last]) = kept ++ [[]] := by
  induction front generalizing path with
  | nil =>
      rw [List.nil_append, resolve]
      split_ifs
      · exact ⟨_, Or.inr rfl⟩
      · exact ⟨_, Or.inr rfl⟩
      · exact ⟨_, Or.inl rfl⟩
  | cons segment front ih =>
      have hrest : front ++ [last] ≠ [] := by simp
      rw [List.cons_append, resolve]
      · split_ifs
        · exact ih _
        · exact ih _
        · exact ih _
      · exact hrest

theorem exists_splitOnP_eq (p : Char → Bool) (text : List Char) :
    ∃ front, text.splitOnP p = front ++ [text.rtakeWhile (!p ·)] := by
  have hlast : ∀ c ∈ text.rtakeWhile (!p ·), p c = false := by
    intro c hc
    simpa using List.mem_rtakeWhile_imp hc
  have hsplit := List.rdropWhile_append_rtakeWhile (p := (!p ·)) (l := text)
  cases hfront : text.rdropWhile (!p ·) using List.reverseRecOn with
  | nil =>
      rw [hfront, List.nil_append] at hsplit
      rw [hsplit] at hlast ⊢
      exact ⟨[], List.splitOnP_eq_singleton hlast⟩
  | append_singleton front c =>
      have hslash : p c := by
        have hne : text.rdropWhile (!p ·) ≠ [] := by simp [hfront]
        have hc := List.rdropWhile_last_not (!p ·) text hne
        simpa [hfront] using hc
      rw [hfront, List.append_assoc, List.singleton_append] at hsplit
      refine ⟨front.splitOnP p, ?_⟩
      rw [← List.splitOnP_eq_singleton hlast,
        ← List.splitOnP_append_cons front _ hslash, hsplit]

theorem rdropWhile_append_cons {p : Char → Bool} {c : Char} (hc : p c = false)
    (front back : List Char) :
    (front ++ c :: back).rdropWhile p = front ++ c :: back.rdropWhile p := by
  unfold List.rdropWhile
  rw [List.reverse_append, List.reverse_cons, List.append_assoc,
    List.dropWhile_append]
  split_ifs with hempty
  · have hnil : back.reverse.dropWhile p = [] := by simpa using hempty
    rw [List.singleton_append, List.dropWhile_cons_of_neg (by simp [hc]), hnil]
    simp
  · simp

theorem clean_append_slash {front : List Char}
    (hfront : ∀ c ∈ front, endsPath c = false) (back : List Char) :
    clean (front ++ '/' :: back) =
      front.filter (!isDropped ·) ++ '/' :: clean back := by
  unfold clean
  rw [rdropWhile_append_cons (by decide), List.filter_append, List.filter_cons_of_pos (by decide),
    List.takeWhile_append_of_pos, List.takeWhile_cons_of_pos (by decide)]
  intro c hc
  simp [hfront c (List.mem_of_mem_filter hc)]

/-- The path of a text ends with what its last segment is encoded as, or with
an empty segment. -/
theorem exists_path_eq (escaped : Char → Bool) {front : List Char}
    (hfront : ∀ c ∈ front, endsPath c = false) (back : List Char) :
    ∃ kept, path escaped (front ++ '/' :: back) =
        kept ++ [percentEncode escaped (lastSegment back)] ∨
      path escaped (front ++ '/' :: back) = kept ++ [[]] := by
  obtain ⟨inner, hback⟩ := exists_splitOnP_eq isSlash (clean back)
  have htail : ((clean (front ++ '/' :: back)).splitOnP isSlash).tail =
      ((front.filter (!isDropped ·)).splitOnP isSlash).tail ++ inner ++
        [lastSegment back] := by
    rw [clean_append_slash hfront, List.splitOnP_append_cons _ _ (by decide),
      hback, List.tail_append_of_ne_nil (List.splitOnP_ne_nil _ _),
      List.append_assoc]
    rfl
  unfold path
  rw [htail, List.map_append, List.map_singleton]
  exact exists_resolve_eq [] _ _

/-- Nothing in the text has a meaning of its own in a URL. -/
structure Verbatim (text : List Char) : Prop where
  plain : ∀ c ∈ text, isSlash c = false ∧ endsPath c = false ∧
    isDropped c = false
  ending : ∀ c ∈ text.getLast?, isBlankEnd c = false
  unescaped : Unescaped text

theorem lastSegment_of_plain {text : List Char}
    (hplain : ∀ c ∈ text, isSlash c = false ∧ endsPath c = false ∧
      isDropped c = false)
    (hending : ∀ c ∈ text.getLast?, isBlankEnd c = false) :
    lastSegment text = text := by
  have hdrop : text.rdropWhile isBlankEnd = text := by
    rw [List.rdropWhile_eq_self_iff]
    intro hne
    have hlast := hending _ (List.getLast?_eq_some_getLast hne)
    simp [hlast]
  have hfilter : text.filter (!isDropped ·) = text := by
    rw [List.filter_eq_self]
    intro c hc
    simp [(hplain c hc).2.2]
  have htake : text.takeWhile (!endsPath ·) = text := by
    rw [List.takeWhile_eq_self_iff]
    intro c hc
    simp [(hplain c hc).2.1]
  rw [lastSegment, clean, hdrop, hfilter, htake, List.rtakeWhile_eq_self_iff]
  intro c hc
  simp [(hplain c hc).1]

theorem lastSegment_sublist (text : List Char) :
    (lastSegment text).Sublist text :=
  (List.rtakeWhile_suffix _ _).sublist.trans
    ((List.takeWhile_sublist _).trans
      (List.filter_sublist.trans (List.rdropWhile_prefix _ _).sublist))

theorem plain_of_lastSegment {text : List Char}
    (h : lastSegment text = text) :
    (∀ c ∈ text, isSlash c = false ∧ endsPath c = false ∧
        isDropped c = false) ∧
      ∀ c ∈ text.getLast?, isBlankEnd c = false := by
  have hclean : text.Sublist (clean text) := by
    have hsuffix := List.rtakeWhile_suffix (!isSlash ·) (clean text)
    rw [← lastSegment, h] at hsuffix
    exact hsuffix.sublist
  have hfiltered : text.Sublist
      ((text.rdropWhile isBlankEnd).filter (!isDropped ·)) :=
    hclean.trans (List.takeWhile_sublist _)
  have hdrop : text.rdropWhile isBlankEnd = text :=
    (List.rdropWhile_prefix _ _).sublist.antisymm
      (hfiltered.trans List.filter_sublist)
  rw [hdrop] at hfiltered
  have hfilter : text.filter (!isDropped ·) = text :=
    List.filter_sublist.antisymm hfiltered
  have htake : clean text = text := by
    refine List.Sublist.antisymm ?_ hclean
    rw [clean, hdrop, hfilter]
    exact List.takeWhile_sublist _
  refine ⟨fun c hc => ⟨?_, ?_, ?_⟩, fun c hc => ?_⟩
  · rw [← h] at hc
    simpa using List.mem_rtakeWhile_imp hc
  · rw [← htake] at hc
    simpa using List.mem_takeWhile_imp hc
  · simpa using List.filter_eq_self.mp hfilter c hc
  · have hne : text ≠ [] := by
      rintro rfl
      cases hc
    have hlast := List.rdropWhile_eq_self_iff.mp hdrop hne
    rw [List.getLast?_eq_some_getLast hne, Option.mem_some] at hc
    rw [← hc]
    simpa using hlast

theorem length_utf8_le_of_sublist {part text : List Char}
    (hsub : part.Sublist text) : (utf8 part).length ≤ (utf8 text).length := by
  induction hsub with
  | slnil => exact Nat.le_refl _
  | cons c _ ih => exact ih.trans (length_utf8_cons c _).le
  | cons_cons c _ ih =>
      rw [utf8_cons, utf8_cons, List.length_append, List.length_append]
      omega

theorem eq_of_sublist_of_length_utf8 {part text : List Char}
    (hsub : part.Sublist text)
    (hlen : (utf8 text).length ≤ (utf8 part).length) : part = text := by
  induction hsub with
  | slnil => rfl
  | @cons part text c hrest ih =>
      have hle := length_utf8_le_of_sublist hrest
      have hlt := length_utf8_cons c text
      omega
  | cons_cons c hrest ih =>
      rw [utf8_cons, utf8_cons, List.length_append, List.length_append] at hlen
      rw [ih (by omega)]

/-- The last segment decodes to the text exactly if the text is verbatim. -/
theorem percentDecode_lastSegment_iff (text : List Char) :
    percentDecode (lastSegment text) = utf8 text ↔ Verbatim text := by
  constructor
  · intro h
    have hwhole : lastSegment text = text := by
      apply eq_of_sublist_of_length_utf8 (lastSegment_sublist text)
      rw [← h]
      exact length_percentDecode_le _
    obtain ⟨hplain, hending⟩ := plain_of_lastSegment hwhole
    rw [hwhole] at h
    exact ⟨hplain, hending, (percentDecode_eq_utf8_iff text).mp h⟩
  · intro h
    rw [lastSegment_of_plain h.plain h.ending]
    exact (percentDecode_eq_utf8_iff text).mpr h.unescaped

/-! ## Texts that nothing is escaped in -/

theorem mem_of_mem_splitOnP {p : Char → Bool} {text piece : List Char}
    (hpiece : piece ∈ text.splitOnP p) {c : Char} (hc : c ∈ piece) :
    c ∈ text := by
  induction text generalizing piece with
  | nil =>
      rw [List.splitOnP_nil, List.mem_singleton] at hpiece
      rw [hpiece] at hc
      cases hc
  | cons d text ih =>
      rw [List.splitOnP_cons_eq_if_modifyHead] at hpiece
      split_ifs at hpiece
      · rcases List.mem_cons.mp hpiece with rfl | hrest
        · cases hc
        · exact List.mem_cons_of_mem _ (ih hrest hc)
      · cases hsplit : text.splitOnP p with
        | nil => exact absurd hsplit (List.splitOnP_ne_nil _ _)
        | cons first rest =>
            rw [hsplit] at ih hpiece
            rcases List.mem_cons.mp hpiece with rfl | hrest
            · rcases List.mem_cons.mp hc with rfl | hfirst
              · exact List.mem_cons_self
              · exact List.mem_cons_of_mem _ (ih List.mem_cons_self hfirst)
            · exact List.mem_cons_of_mem _
                (ih (List.mem_cons_of_mem _ hrest) hc)

theorem percentEncode_of_kept {escaped : Char → Bool} {text : List Char}
    (hkept : ∀ c ∈ text, escaped c = false) :
    percentEncode escaped text = text := by
  induction text with
  | nil => rfl
  | cons c text ih =>
      rw [percentEncode_cons_of_kept (by simp [hkept c List.mem_cons_self]),
        ih fun d hd => hkept d (List.mem_cons_of_mem _ hd)]

/-- A set that holds none of the characters escapes nothing. -/
theorem path_of_kept {escaped : Char → Bool} {text : List Char}
    (hkept : ∀ c ∈ text, escaped c = false) :
    path escaped text = path (fun _ => false) text := by
  unfold path
  congr 1
  apply List.map_congr_left
  intro piece hpiece
  rw [percentEncode_of_kept, percentEncode_of_kept fun _ _ => rfl]
  intro c hc
  apply hkept
  have hclean : c ∈ clean text :=
    mem_of_mem_splitOnP (List.mem_of_mem_tail hpiece) hc
  exact (List.rdropWhile_prefix isBlankEnd text).subset
    (List.mem_of_mem_filter (List.takeWhile_subset _ hclean))

/-! ## Queries -/

/-- What stands between the first question mark and the fragment. -/
def query (text : List Char) : Option (List Char) :=
  ((text.takeWhile (· ≠ '#')).dropWhile (· ≠ '?')).tail?

theorem takeWhile_append_cons {p : Char → Bool} {front back : List Char}
    (hfront : ∀ c ∈ front, p c = true) {d : Char} (hd : p d = false) :
    (front ++ d :: back).takeWhile p = front := by
  rw [List.takeWhile_append_of_pos hfront, List.takeWhile_cons_of_neg (by simp [hd]),
    List.append_nil]

theorem clean_of_visible {text : List Char}
    (hvisible : ∀ c ∈ text, isBlankEnd c = false) :
    clean text = text.takeWhile (!endsPath ·) := by
  have hkept : text.rdropWhile isBlankEnd = text := by
    cases htext : text using List.reverseRecOn with
    | nil => rfl
    | append_singleton front c =>
        rw [List.rdropWhile_concat_neg]
        simp [hvisible c (by simp [htext])]
  have hstays : text.filter (!isDropped ·) = text := by
    rw [List.filter_eq_self]
    intro c hc
    by_contra hdropped
    have hblank : isBlankEnd c = true := by
      simp only [isDropped, Bool.not_eq_true, Bool.not_eq_false',
        Bool.or_eq_true, decide_eq_true_eq] at hdropped
      rcases hdropped with (rfl | rfl) | rfl <;> decide
    rw [hvisible c hc] at hblank
    cases hblank
  rw [clean, hkept, hstays]

/-- A query behind a path leaves the path as it is. -/
theorem path_append_query (escaped : Char → Bool) {front back : List Char}
    (hfront : ∀ c ∈ front, isBlankEnd c = false ∧ endsPath c = false)
    (hback : ∀ c ∈ back, isBlankEnd c = false ∧ c ≠ '#') :
    path escaped (front ++ '?' :: back) = path escaped front ∧
      query (front ++ '?' :: back) = some back := by
  have hends : ∀ c ∈ front, (!endsPath c) = true := by
    intro c hc
    rw [(hfront c hc).2]
    rfl
  have hvisible : ∀ c ∈ front ++ '?' :: back, isBlankEnd c = false := by
    intro c hc
    rcases List.mem_append.mp hc with hc | hc
    · exact (hfront c hc).1
    · rcases List.mem_cons.mp hc with rfl | hc
      · decide
      · exact (hback c hc).1
  have hclean : clean (front ++ '?' :: back) = clean front := by
    rw [clean_of_visible hvisible, clean_of_visible fun c hc => (hfront c hc).1,
      takeWhile_append_cons hends (by decide), List.takeWhile_eq_self_iff.mpr hends]
  have hfragment : ∀ c ∈ front ++ '?' :: back, decide (c ≠ '#') = true := by
    intro c hc
    rcases List.mem_append.mp hc with hc | hc
    · have hc := (hfront c hc).2
      simp only [endsPath, Bool.or_eq_false_iff, decide_eq_false_iff_not] at hc
      simpa using hc.2
    · rcases List.mem_cons.mp hc with rfl | hc
      · decide
      · simpa using (hback c hc).2
  have hmark : ∀ c ∈ front, decide (c ≠ '?') = true := by
    intro c hc
    have hc := (hfront c hc).2
    simp only [endsPath, Bool.or_eq_false_iff, decide_eq_false_iff_not] at hc
    simpa using hc.1
  constructor
  · rw [path, path, hclean]
  · rw [query, List.takeWhile_eq_self_iff.mpr hfragment,
      List.dropWhile_append_of_pos hmark]
    simp

end UrlPath
