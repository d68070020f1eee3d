import Chainlog.Foundation.LengthPrefix
import Mathlib.Data.List.DropRight
import Mathlib.Tactic

/-!
# Shared helpers

Byte buffers, the text functions of the standard library the crate relies on,
the big-endian integer encodings, and `push_field`, the length-prefixed field
every hash and signature input is built from.
-/

namespace Chainlog

abbrev Bytes := List UInt8

/-- `u64::to_be_bytes`. -/
def u64ToBeBytes (n : UInt64) : Bytes :=
  [7, 6, 5, 4, 3, 2, 1, 0].map fun place =>
    UInt8.ofNat (n.toNat / 256 ^ place)

/-- `i64::to_be_bytes`: the two's complement bits, big-endian. -/
def i64ToBeBytes (n : Int64) : Bytes := u64ToBeBytes n.toUInt64

/-- `str::as_bytes`. -/
def asBytes (s : String) : Bytes := s.toByteArray.data.toList

/-- `str::from_utf8`. -/
def fromUtf8 (bytes : Bytes) : Option String :=
  String.fromUTF8? ⟨bytes.toArray⟩

/-- `char::is_whitespace`: the Unicode `White_Space` property. -/
def isWhitespace (c : Char) : Bool :=
  let n := c.toNat
  (9 ≤ n && n ≤ 13) || n = 0x20 || n = 0x85 || n = 0xA0 || n = 0x1680 ||
    (0x2000 ≤ n && n ≤ 0x200A) || n = 0x2028 || n = 0x2029 || n = 0x202F ||
    n = 0x205F || n = 0x3000

/-- `line.trim().is_empty()`. -/
def isBlank (line : String) : Bool := line.toList.all isWhitespace

/-- `str::trim`. -/
def trim (s : String) : String :=
  String.ofList ((s.toList.dropWhile isWhitespace).rdropWhile isWhitespace)

/-- Append a length-prefixed field to a buffer.  The length is cast with
`as u64`. -/
def pushField (buf bytes : Bytes) : Bytes :=
  buf ++ u64ToBeBytes (UInt64.ofNat bytes.length) ++ bytes

@[simp] theorem u64ToBeBytes_length (n : UInt64) :
    (u64ToBeBytes n).length = 8 := rfl

theorem isWhitespace_of_graphic {c : Char} (hlow : 32 < c.toNat)
    (hhigh : c.toNat < 128) : isWhitespace c = false := by
  unfold isWhitespace
  simp only [Bool.or_eq_false_iff, Bool.and_eq_false_iff, decide_eq_false_iff_not]
  omega

theorem trim_eq_self {s : String}
    (hs : ∀ c ∈ s.toList, isWhitespace c = false) : trim s = s := by
  have hfront : s.toList.dropWhile isWhitespace = s.toList := by
    apply List.dropWhile_eq_self_iff.mpr
    intro hlen
    simpa using hs _ (List.getElem_mem hlen)
  have hback : s.toList.rdropWhile isWhitespace = s.toList := by
    apply List.rdropWhile_eq_self_iff.mpr
    intro hne
    simpa using hs _ (List.getLast_mem hne)
  rw [trim, hfront, hback]
  exact String.ofList_toList

theorem div_eq_of_byte {m n place : Nat}
    (habove : m / 256 ^ (place + 1) = n / 256 ^ (place + 1))
    (hbyte : m / 256 ^ place % 256 = n / 256 ^ place % 256) :
    m / 256 ^ place = n / 256 ^ place := by
  rw [pow_succ, ← Nat.div_div_eq_div_mul, ← Nat.div_div_eq_div_mul] at habove
  rw [← Nat.div_add_mod (m / 256 ^ place) 256, habove, hbyte, Nat.div_add_mod]

theorem u64ToBeBytes_injective : Function.Injective u64ToBeBytes := by
  intro m n heq
  have hbyte : ∀ place ∈ [7, 6, 5, 4, 3, 2, 1, 0],
      m.toNat / 256 ^ place % 256 = n.toNat / 256 ^ place % 256 := by
    intro place hplace
    have hcast := List.map_inj_left.mp heq place hplace
    simpa [← UInt8.toNat_inj] using hcast
  have hagree : ∀ above, above ≤ 8 →
      m.toNat / 256 ^ (8 - above) = n.toNat / 256 ^ (8 - above) := by
    intro above
    induction above with
    | zero =>
        intro _
        have hm : m.toNat < 256 ^ (8 - 0) := m.toNat_lt
        have hn : n.toNat < 256 ^ (8 - 0) := n.toNat_lt
        rw [Nat.div_eq_of_lt hm, Nat.div_eq_of_lt hn]
    | succ above ih =>
        intro hle
        apply div_eq_of_byte
        · have hplace : 8 - (above + 1) + 1 = 8 - above := by omega
          rw [hplace]
          exact ih (by omega)
        · apply hbyte
          simp only [List.mem_cons, List.not_mem_nil, or_false]
          omega
  apply UInt64.toNat_inj.mp
  simpa using hagree 8 (by omega)

theorem i64ToBeBytes_injective : Function.Injective i64ToBeBytes := by
  intro m n heq
  have hbits : m.toUInt64 = n.toUInt64 := u64ToBeBytes_injective heq
  calc
    m = m.toUInt64.toInt64 := (Int64.toInt64_toUInt64 m).symm
    _ = n.toUInt64.toInt64 := congrArg UInt64.toInt64 hbits
    _ = n := Int64.toInt64_toUInt64 n

theorem asBytes_injective : Function.Injective asBytes := by
  intro s t heq
  apply String.toByteArray_inj.mp
  apply ByteArray.ext
  exact Array.toList_inj.mp heq

@[simp] theorem fromUtf8_asBytes (s : String) : fromUtf8 (asBytes s) = some s := by
  have harray : (⟨(asBytes s).toArray⟩ : ByteArray) = s.toByteArray := by
    simp [asBytes]
  simp [fromUtf8, String.fromUTF8?, harray, s.isValidUTF8, String.fromUTF8]

theorem fromUtf8_eq_some {bytes : Bytes} {s : String} :
    fromUtf8 bytes = some s ↔ bytes = asBytes s := by
  constructor
  · intro h
    unfold fromUtf8 String.fromUTF8? at h
    split at h
    · obtain rfl := Option.some.inj h
      simp [asBytes, String.fromUTF8]
    · cases h
  · rintro rfl
    exact fromUtf8_asBytes s

/-- The UTF-8 encoding, character by character. -/
theorem asBytes_eq_flatMap (s : String) :
    asBytes s = s.toList.flatMap String.utf8EncodeChar := by
  have hencode : s.toByteArray = s.toList.utf8Encode :=
    String.utf8Encode_toList.symm
  simp [asBytes, hencode, List.utf8Encode]

/-- A byte of an encoded character is below 248, and ASCII bytes encode
themselves. -/
theorem toNat_of_mem_utf8EncodeChar {c : Char} {b : UInt8}
    (hb : b ∈ String.utf8EncodeChar c) :
    b.toNat < 248 ∧ (b.toNat < 128 → b.toNat = c.toNat) := by
  have hval : c.val.toNat = c.toNat := rfl
  simp only [String.utf8EncodeChar, hval] at hb
  split_ifs at hb <;>
    simp only [List.mem_cons, List.not_mem_nil, or_false] at hb
  · subst b
    simp only [UInt8.toNat_ofNat']
    omega
  all_goals
    rcases hb with rfl | rfl | rfl | rfl <;> simp only [UInt8.toNat_ofNat'] <;> omega

/-- Encoded characters form a prefix code. -/
theorem utf8EncodeChar_append_inj {c d : Char} {s t : Bytes}
    (h : String.utf8EncodeChar c ++ s = String.utf8EncodeChar d ++ t) :
    c = d ∧ s = t := by
  have hdecode : ∀ (x : Char) (u : Bytes),
      (String.utf8EncodeChar x ++ u).toByteArray.utf8DecodeChar? 0 = some x := by
    intro x u
    rw [List.toByteArray_append]
    exact ByteArray.utf8DecodeChar?_utf8EncodeChar_append
  have hread := hdecode c s
  rw [h, hdecode d t] at hread
  obtain rfl := Option.some.inj hread
  exact ⟨rfl, List.append_cancel_left h⟩

/-- A UTF-8 text at the front of another is a front part of it. -/
theorem exists_append_of_asBytes_prefix {s t : String}
    (h : asBytes s <+: asBytes t) : ∃ rest, t = s ++ rest := by
  have hlist : ∀ (a b : List Char) (rest : Bytes),
      a.flatMap String.utf8EncodeChar ++ rest =
        b.flatMap String.utf8EncodeChar → a <+: b := by
    intro a
    induction a with
    | nil => intro b rest _; exact List.nil_prefix
    | cons c a ih =>
        intro b rest hbytes
        cases b with
        | nil =>
            simp [String.utf8EncodeChar_ne_nil] at hbytes
        | cons d b =>
            rw [List.flatMap_cons, List.flatMap_cons, List.append_assoc]
              at hbytes
            obtain ⟨rfl, hrest⟩ := utf8EncodeChar_append_inj hbytes
            exact List.cons_prefix_cons.mpr ⟨rfl, ih b rest hrest⟩
  obtain ⟨rest, hrest⟩ := h
  rw [asBytes_eq_flatMap, asBytes_eq_flatMap] at hrest
  obtain ⟨chars, hchars⟩ := hlist _ _ rest hrest
  refine ⟨String.ofList chars, String.toList_inj.mp ?_⟩
  simp [← hchars]

theorem toNat_of_mem_asBytes {s : String}
    (hs : ∀ c ∈ s.toList, 32 ≤ c.toNat) {b : UInt8} (hb : b ∈ asBytes s) :
    32 ≤ b.toNat := by
  rw [asBytes_eq_flatMap, List.mem_flatMap] at hb
  obtain ⟨c, hc, hbc⟩ := hb
  have hascii := (toNat_of_mem_utf8EncodeChar hbc).2
  have hprint := hs c hc
  omega

/-- The byte `0xFF` starts no UTF-8 text. -/
theorem fromUtf8_cons_ff (rest : Bytes) : fromUtf8 (0xFF :: rest) = none := by
  cases hread : fromUtf8 (0xFF :: rest) with
  | none => rfl
  | some s =>
      have hmem : (0xFF : UInt8) ∈ asBytes s := by
        rw [← fromUtf8_eq_some.mp hread]
        exact List.mem_cons_self
      rw [asBytes_eq_flatMap, List.mem_flatMap] at hmem
      obtain ⟨c, _, hc⟩ := hmem
      exact absurd (toNat_of_mem_utf8EncodeChar hc).1 (by decide)

@[simp] theorem asBytes_append (s t : String) :
    asBytes (s ++ t) = asBytes s ++ asBytes t := by
  simp [asBytes]

/-- The eight-byte length header of `pushField`. -/
def fieldHeader : LengthPrefix.Header UInt8 where
  encode n := u64ToBeBytes (UInt64.ofNat n)
  width := 8
  bound := 2 ^ 64
  width_pos := by decide
  length_encode _ := rfl
  encode_inj m n hm hn heq := by
    have hcast := congrArg UInt64.toNat (u64ToBeBytes_injective heq)
    rwa [UInt64.toNat_ofNat_of_lt' hm, UInt64.toNat_ofNat_of_lt' hn] at hcast

theorem pushField_eq_frame (buf bytes : Bytes) :
    pushField buf bytes = buf ++ fieldHeader.frame bytes := by
  simp [pushField, LengthPrefix.Header.frame, fieldHeader]

/-- Pushing fields in order appends their frames. -/
theorem foldl_pushField (buf : Bytes) (fields : List Bytes) :
    fields.foldl pushField buf = buf ++ fieldHeader.frames fields := by
  induction fields generalizing buf with
  | nil => simp
  | cons field rest ih =>
      rw [List.foldl_cons, ih, pushField_eq_frame,
        LengthPrefix.Header.frames_cons, List.append_assoc]

/-- Whatever the fields hold, the buffer tells where each of them ends. -/
theorem pushField_uniquelyDecodable (buf : Bytes) {left right : List Bytes}
    (hleft : ∀ field ∈ left, field.length < 2 ^ 64)
    (hright : ∀ field ∈ right, field.length < 2 ^ 64) :
    (left.foldl pushField buf = right.foldl pushField buf ↔ left = right) ∧
      (left.foldl pushField buf <+: right.foldl pushField buf ↔
        left <+: right) := by
  rw [foldl_pushField, foldl_pushField, List.append_cancel_left_eq,
    List.prefix_append_right_inj]
  exact ⟨fieldHeader.frames_inj hleft hright,
    fieldHeader.frames_prefix_iff hleft hright⟩

/-- A field that looks like the header of an empty one is not read as one. -/
theorem pushField_uniquelyDecodable_header :
    [[], []].foldl pushField [] ≠ [u64ToBeBytes 0].foldl pushField [] ∧
      ¬[[], []].foldl pushField [] <+: [u64ToBeBytes 0].foldl pushField [] := by
  have hfits : ∀ field ∈ ([[], []] : List Bytes), field.length < 2 ^ 64 := by
    simp
  have hfits' : ∀ field ∈ [u64ToBeBytes 0], field.length < 2 ^ 64 := by simp
  obtain ⟨hdecode, hinit⟩ := pushField_uniquelyDecodable [] hfits hfits'
  rw [ne_eq, hdecode, hinit]
  decide

end Chainlog
