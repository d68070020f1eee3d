import Mathlib.Data.String.Basic
import Mathlib.Tactic

/-!
# Decimal texts of a fixed width

Among digit texts of one length, the lexicographic order is the order of the
numbers they stand for.  A number that fits has exactly one such text, its
digits behind leading zeros.
-/

namespace Decimal

/-- Every character is a decimal digit. -/
def Numeral (text : List Char) : Prop := ∀ c ∈ text, c.isDigit = true

/-- The number that a digit text stands for. -/
def value (text : List Char) : ℕ := Nat.ofDigitChars 10 text 0

/-- The digits of a number behind as many zeros as make up the width. -/
def pad (width n : ℕ) : List Char :=
  List.replicate (width - (Nat.toDigits 10 n).length) '0' ++ Nat.toDigits 10 n

def digit (c : Char) : ℕ := c.toNat - '0'.toNat

theorem toNat_eq_digit {c : Char} (hc : c.isDigit = true) :
    c.toNat = 48 + digit c ∧ digit c < 10 := by
  obtain ⟨hlow, hhigh⟩ := Char.isDigit_iff_toNat.mp hc
  have hzero : '0'.toNat = 48 := rfl
  have hnine : '9'.toNat = 57 := rfl
  unfold digit
  omega

theorem lt_iff_digit_lt {c d : Char} (hc : c.isDigit = true)
    (hd : d.isDigit = true) : c < d ↔ digit c < digit d := by
  have horder : c < d ↔ c.toNat < d.toNat := Iff.rfl
  rw [horder, (toNat_eq_digit hc).1, (toNat_eq_digit hd).1]
  omega

theorem eq_iff_digit_eq {c d : Char} (hc : c.isDigit = true)
    (hd : d.isDigit = true) : c = d ↔ digit c = digit d := by
  rw [← Char.toNat_inj, (toNat_eq_digit hc).1, (toNat_eq_digit hd).1]
  omega

@[simp] theorem value_nil : value [] = 0 := by
  simp [value]

theorem value_cons (c : Char) (text : List Char) :
    value (c :: text) = 10 ^ text.length * digit c + value text := by
  rw [value, Nat.ofDigitChars_cons, Nat.ofDigitChars_eq_ofDigitChars_zero]
  simp [value, digit]

theorem Numeral.head {c : Char} {text : List Char} (h : Numeral (c :: text)) :
    c.isDigit = true :=
  h c List.mem_cons_self

theorem Numeral.tail {c : Char} {text : List Char} (h : Numeral (c :: text)) :
    Numeral text := fun d hd => h d (List.mem_cons_of_mem c hd)

theorem Numeral.value_lt {text : List Char} (h : Numeral text) :
    value text < 10 ^ text.length := by
  induction text with
  | nil => simp
  | cons c text ih =>
      have hrest : value text < 10 ^ text.length := ih h.tail
      have hdigit : digit c + 1 ≤ 10 := (toNat_eq_digit h.head).2
      calc
        value (c :: text) = 10 ^ text.length * digit c + value text :=
          value_cons c text
        _ < 10 ^ text.length * digit c + 10 ^ text.length := by omega
        _ = 10 ^ text.length * (digit c + 1) := by ring
        _ ≤ 10 ^ text.length * 10 := Nat.mul_le_mul_left _ hdigit
        _ = 10 ^ (c :: text).length := by rw [List.length_cons, pow_succ]

/-- A smaller leading digit outweighs whatever follows. -/
theorem value_cons_lt {c d : Char} {left right : List Char}
    (hleft : Numeral left) (hlength : left.length = right.length)
    (hlt : digit c < digit d) : value (c :: left) < value (d :: right) := by
  have hrest : value left < 10 ^ left.length := hleft.value_lt
  rw [value_cons, value_cons, ← hlength]
  calc
    10 ^ left.length * digit c + value left <
        10 ^ left.length * digit c + 10 ^ left.length := by omega
    _ = 10 ^ left.length * (digit c + 1) := by ring
    _ ≤ 10 ^ left.length * digit d := Nat.mul_le_mul_left _ hlt
    _ ≤ 10 ^ left.length * digit d + value right := Nat.le_add_right _ _

theorem lt_iff_value_lt {left right : List Char} (hleft : Numeral left)
    (hright : Numeral right) (hlength : left.length = right.length) :
    left < right ↔ value left < value right := by
  induction left generalizing right with
  | nil =>
      obtain rfl : right = [] := List.eq_nil_of_length_eq_zero hlength.symm
      simp
  | cons c left ih =>
      cases right with
      | nil => cases hlength
      | cons d right =>
          have hlength' : left.length = right.length := by
            simpa using hlength
          have hrest := ih hleft.tail hright.tail hlength'
          rw [List.cons_lt_cons_iff, hrest,
            lt_iff_digit_lt hleft.head hright.head,
            eq_iff_digit_eq hleft.head hright.head]
          rcases lt_trichotomy (digit c) (digit d) with hlt | heq | hgt
          · have hvalue := value_cons_lt hleft.tail hlength' hlt
            simp [hlt, hvalue]
          · rw [value_cons, value_cons, heq, hlength']
            simp
          · have hvalue := value_cons_lt hright.tail hlength'.symm hgt
            omega

theorem eq_of_value_eq {left right : List Char} (hleft : Numeral left)
    (hright : Numeral right) (hlength : left.length = right.length)
    (hvalue : value left = value right) : left = right := by
  rcases lt_trichotomy left right with hlt | heq | hgt
  · have hless := (lt_iff_value_lt hleft hright hlength).mp hlt
    omega
  · exact heq
  · have hless := (lt_iff_value_lt hright hleft hlength.symm).mp hgt
    omega

/-- Texts of one length compare as they do between equal texts. -/
theorem append_lt_append_iff {left right : List Char} (start rest : List Char)
    (hlength : left.length = right.length) :
    start ++ (left ++ rest) < start ++ (right ++ rest) ↔ left < right := by
  induction start with
  | nil =>
      induction left generalizing right with
      | nil =>
          obtain rfl : right = [] := List.eq_nil_of_length_eq_zero hlength.symm
          simp
      | cons c left ih =>
          cases right with
          | nil => cases hlength
          | cons d right =>
              have hlength' : left.length = right.length := by
                simpa using hlength
              have hrest := ih hlength'
              simp only [List.nil_append] at hrest
              simp only [List.nil_append, List.cons_append,
                List.cons_lt_cons_iff, hrest]
  | cons c start ih =>
      rw [List.cons_append, List.cons_append, List.cons_lt_cons_iff, ih]
      simp

/-! ## Leading zeros -/

theorem numeral_pad (width n : ℕ) : Numeral (pad width n) := by
  intro c hc
  rcases List.mem_append.mp hc with hzero | hdigit
  · rw [List.eq_of_mem_replicate hzero]
    decide
  · exact Nat.isDigit_of_mem_toDigits (by decide) (by decide) hdigit

@[simp] theorem value_pad (width n : ℕ) : value (pad width n) = n := by
  rw [value, pad, Nat.ofDigitChars_append, Nat.ofDigitChars_replicate_zero,
    Nat.mul_zero, Nat.ofDigitChars_ten_toDigits]

theorem length_pad {width n : ℕ} (hwidth : 0 < width) (hn : n < 10 ^ width) :
    (pad width n).length = width := by
  have hdigits : (Nat.toDigits 10 n).length ≤ width :=
    (Nat.length_toDigits_le_iff (by decide) hwidth).mpr hn
  rw [pad, List.length_append, List.length_replicate]
  omega

theorem pad_lt_pad_iff {width m n : ℕ} (hwidth : 0 < width)
    (hm : m < 10 ^ width) (hn : n < 10 ^ width) :
    pad width m < pad width n ↔ m < n := by
  have hlength : (pad width m).length = (pad width n).length := by
    rw [length_pad hwidth hm, length_pad hwidth hn]
  rw [lt_iff_value_lt (numeral_pad width m) (numeral_pad width n) hlength,
    value_pad, value_pad]

/-- A digit text is the padded text of its number exactly if it has the
width. -/
theorem eq_pad_iff {width : ℕ} {text : List Char} (hwidth : 0 < width)
    (htext : Numeral text) (hvalue : value text < 10 ^ width) :
    text = pad width (value text) ↔ text.length = width := by
  have hlength := length_pad hwidth hvalue
  constructor
  · intro h
    rw [← hlength, ← h]
  · intro h
    exact eq_of_value_eq htext (numeral_pad _ _) (h.trans hlength.symm)
      (value_pad _ _).symm

end Decimal
