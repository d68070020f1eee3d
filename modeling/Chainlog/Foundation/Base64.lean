import Mathlib.Data.List.Basic
import Mathlib.Tactic

/-!
# Base64

The standard alphabet with canonical padding, three bytes to four characters.
The reader accepts what the writer writes, and neither stray bits nor misplaced
padding.
-/

namespace Base64

def digit (n : ℕ) : Char :=
  if n < 26 then Char.ofNat (65 + n)
  else if n < 52 then Char.ofNat (71 + n)
  else if n < 62 then Char.ofNat (n - 4)
  else if n = 62 then '+'
  else '/'

def value (c : Char) : Option ℕ :=
  if 65 ≤ c.toNat ∧ c.toNat ≤ 90 then some (c.toNat - 65)
  else if 97 ≤ c.toNat ∧ c.toNat ≤ 122 then some (c.toNat - 71)
  else if 48 ≤ c.toNat ∧ c.toNat ≤ 57 then some (c.toNat + 4)
  else if c = '+' then some 62
  else if c = '/' then some 63
  else none

/-- The four characters of a group of three bytes. -/
def group (a b c : UInt8) : List Char :=
  [digit (a.toNat / 4), digit (a.toNat % 4 * 16 + b.toNat / 16),
    digit (b.toNat % 16 * 4 + c.toNat / 64), digit (c.toNat % 64)]

def encode : List UInt8 → List Char
  | [] => []
  | [a] => [digit (a.toNat / 4), digit (a.toNat % 4 * 16), '=', '=']
  | [a, b] =>
      [digit (a.toNat / 4), digit (a.toNat % 4 * 16 + b.toNat / 16),
        digit (b.toNat % 16 * 4), '=']
  | a :: b :: c :: rest => group a b c ++ encode rest

def firstByte (w x : ℕ) : UInt8 := UInt8.ofNat (w * 4 + x / 16)

def secondByte (x y : ℕ) : UInt8 := UInt8.ofNat (x % 16 * 16 + y / 4)

def thirdByte (y z : ℕ) : UInt8 := UInt8.ofNat (y % 4 * 64 + z)

/-- Read four characters; padding ends the text. -/
def readGroup (w x y z : Char) (last : Bool) : Option (List UInt8) := do
  let w ← value w
  let x ← value x
  if y = '=' then
    if last ∧ z = '=' ∧ x % 16 = 0 then some [firstByte w x] else none
  else
    let y ← value y
    if z = '=' then
      if last ∧ y % 4 = 0 then some [firstByte w x, secondByte x y] else none
    else
      let z ← value z
      some [firstByte w x, secondByte x y, thirdByte y z]

def decode : List Char → Option (List UInt8)
  | [] => some []
  | w :: x :: y :: z :: rest => do
      let bytes ← readGroup w x y z rest.isEmpty
      let more ← decode rest
      return bytes ++ more
  | _ => none

theorem value_digit : ∀ n < 64, value (digit n) = some n := by decide

theorem digit_ne_pad : ∀ n < 64, digit n ≠ '=' := by decide

theorem digit_graphic : ∀ n < 64, 32 < (digit n).toNat ∧ (digit n).toNat < 128 := by
  decide

theorem firstByte_eq (a : UInt8) {n : ℕ} (hn : n < 16) :
    firstByte (a.toNat / 4) (a.toNat % 4 * 16 + n) = a := by
  have ha := a.toNat_lt
  apply UInt8.toNat_inj.mp
  rw [firstByte, UInt8.toNat_ofNat']
  omega

theorem secondByte_eq (b : UInt8) (m : ℕ) {n : ℕ} (hn : n < 4) :
    secondByte (m * 16 + b.toNat / 16) (b.toNat % 16 * 4 + n) = b := by
  have hb := b.toNat_lt
  apply UInt8.toNat_inj.mp
  rw [secondByte, UInt8.toNat_ofNat']
  omega

theorem thirdByte_eq (c : UInt8) (m : ℕ) :
    thirdByte (m * 4 + c.toNat / 64) (c.toNat % 64) = c := by
  have hc := c.toNat_lt
  apply UInt8.toNat_inj.mp
  rw [thirdByte, UInt8.toNat_ofNat']
  omega

theorem readGroup_group (a b c : UInt8) (last : Bool) :
    readGroup (digit (a.toNat / 4)) (digit (a.toNat % 4 * 16 + b.toNat / 16))
        (digit (b.toNat % 16 * 4 + c.toNat / 64)) (digit (c.toNat % 64)) last =
      some [a, b, c] := by
  have ha := a.toNat_lt
  have hb := b.toNat_lt
  have hc := c.toNat_lt
  have hy := digit_ne_pad (b.toNat % 16 * 4 + c.toNat / 64) (by omega)
  have hz := digit_ne_pad (c.toNat % 64) (by omega)
  unfold readGroup
  rw [value_digit _ (by omega), value_digit _ (by omega),
    value_digit _ (by omega), value_digit _ (by omega)]
  simp only [bind, Option.bind, if_neg hy, if_neg hz]
  rw [firstByte_eq a (by omega), secondByte_eq b _ (by omega), thirdByte_eq]

theorem readGroup_one (a : UInt8) :
    readGroup (digit (a.toNat / 4)) (digit (a.toNat % 4 * 16)) '=' '=' true =
      some [a] := by
  have ha := a.toNat_lt
  have hfirst : firstByte (a.toNat / 4) (a.toNat % 4 * 16) = a :=
    firstByte_eq a (n := 0) (by omega)
  unfold readGroup
  rw [value_digit _ (by omega), value_digit _ (by omega)]
  simp [hfirst]

theorem readGroup_two (a b : UInt8) :
    readGroup (digit (a.toNat / 4)) (digit (a.toNat % 4 * 16 + b.toNat / 16))
        (digit (b.toNat % 16 * 4)) '=' true = some [a, b] := by
  have ha := a.toNat_lt
  have hb := b.toNat_lt
  have hy := digit_ne_pad (b.toNat % 16 * 4) (by omega)
  have hfirst := firstByte_eq a (n := b.toNat / 16) (by omega)
  have hsecond : secondByte (a.toNat % 4 * 16 + b.toNat / 16)
      (b.toNat % 16 * 4) = b := secondByte_eq b _ (n := 0) (by omega)
  have hbits : b.toNat % 16 * 4 % 4 = 0 := by omega
  unfold readGroup
  rw [value_digit _ (by omega), value_digit _ (by omega),
    value_digit _ (by omega)]
  simp only [bind, Option.bind, if_neg hy, hfirst, hsecond, hbits]
  rfl

/-- What is written is read back. -/
theorem decode_encode (bytes : List UInt8) : decode (encode bytes) = some bytes := by
  induction bytes using encode.induct with
  | case1 => rfl
  | case2 a => simp [encode, decode, readGroup_one]
  | case3 a b => simp [encode, decode, readGroup_two]
  | case4 a b c rest ih =>
      rw [encode, group]
      simp only [List.cons_append, List.nil_append, decode, readGroup_group, ih]
      rfl

theorem length_encode (bytes : List UInt8) :
    (encode bytes).length = (bytes.length + 2) / 3 * 4 := by
  induction bytes using encode.induct with
  | case1 => rfl
  | case2 a => simp [encode]
  | case3 a b => simp [encode]
  | case4 a b c rest ih =>
      simp only [encode, group, List.length_append, List.length_cons,
        List.length_nil, ih]
      omega

theorem eq_digit_of_value {c : Char} {n : ℕ} (h : value c = some n) :
    n < 64 ∧ c = digit n := by
  have hchar : ∀ m, m = c.toNat → Char.ofNat m = c := by
    rintro m rfl
    exact Char.ofNat_toNat c
  unfold value at h
  split_ifs at h with hupper hlower hnum hplus hslash <;>
    obtain rfl := Option.some.inj h <;> unfold digit
  · rw [if_pos (by omega)]
    exact ⟨by omega, (hchar _ (by omega)).symm⟩
  · rw [if_neg (by omega), if_pos (by omega)]
    exact ⟨by omega, (hchar _ (by omega)).symm⟩
  · rw [if_neg (by omega), if_neg (by omega), if_pos (by omega)]
    exact ⟨by omega, (hchar _ (by omega)).symm⟩
  · exact ⟨by omega, hplus⟩
  · exact ⟨by omega, hslash⟩

/-- A group that is read is the one its bytes are written as; padding is read
at the end only. -/
theorem readGroup_eq_some {w x y z : Char} {last : Bool} {bytes : List UInt8}
    (h : readGroup w x y z last = some bytes) :
    [w, x, y, z] = encode bytes ∧ (last = true ∨ bytes.length = 3) := by
  unfold readGroup at h
  obtain ⟨m, hw, hafter⟩ := Option.bind_eq_some_iff.mp h
  obtain ⟨n, hx, hrest⟩ := Option.bind_eq_some_iff.mp hafter
  clear h hafter
  obtain ⟨hm, rfl⟩ := eq_digit_of_value hw
  obtain ⟨hn, rfl⟩ := eq_digit_of_value hx
  have hfirst : (firstByte m n).toNat = m * 4 + n / 16 := by
    rw [firstByte, UInt8.toNat_ofNat']
    omega
  by_cases hy : y = '='
  · rw [if_pos hy] at hrest
    split_ifs at hrest with hpad
    obtain ⟨hlast, hz, hbits⟩ := hpad
    obtain rfl := Option.some.inj hrest
    refine ⟨?_, Or.inl hlast⟩
    have hm' : (m * 4 + n / 16) / 4 = m := by omega
    have hn' : (m * 4 + n / 16) % 4 * 16 = n := by omega
    rw [encode, hfirst, hm', hn', hy, hz]
  · rw [if_neg hy] at hrest
    obtain ⟨k, hk, hthree⟩ := Option.bind_eq_some_iff.mp hrest
    clear hrest
    obtain ⟨hklt, rfl⟩ := eq_digit_of_value hk
    have hsecond : (secondByte n k).toNat = n % 16 * 16 + k / 4 := by
      rw [secondByte, UInt8.toNat_ofNat']
      omega
    have hm' : (m * 4 + n / 16) / 4 = m := by omega
    have hn' : (m * 4 + n / 16) % 4 * 16 + (n % 16 * 16 + k / 4) / 16 = n := by
      omega
    by_cases hz : z = '='
    · rw [if_pos hz] at hthree
      split_ifs at hthree with hpad
      obtain ⟨hlast, hbits⟩ := hpad
      obtain rfl := Option.some.inj hthree
      refine ⟨?_, Or.inl hlast⟩
      have hk' : (n % 16 * 16 + k / 4) % 16 * 4 = k := by omega
      rw [encode, hfirst, hsecond, hm', hn', hk', hz]
    · rw [if_neg hz] at hthree
      obtain ⟨l, hl, hall⟩ := Option.bind_eq_some_iff.mp hthree
      obtain ⟨hllt, rfl⟩ := eq_digit_of_value hl
      obtain rfl := Option.some.inj hall
      have hthird : (thirdByte k l).toNat = k % 4 * 64 + l := by
        rw [thirdByte, UInt8.toNat_ofNat']
        omega
      have hk' : (n % 16 * 16 + k / 4) % 16 * 4 + (k % 4 * 64 + l) / 64 = k := by
        omega
      have hl' : (k % 4 * 64 + l) % 64 = l := by omega
      refine ⟨?_, Or.inr rfl⟩
      rw [encode, group, hfirst, hsecond, hthird, hm', hn', hk', hl']
      rfl

/-- What is read is written back: no other text stands for the same bytes. -/
theorem eq_encode_of_decode {text : List Char} {bytes : List UInt8}
    (h : decode text = some bytes) : text = encode bytes := by
  induction text using decode.induct generalizing bytes with
  | case1 =>
      obtain rfl := Option.some.inj h
      rfl
  | case2 w x y z rest ih =>
      rw [decode] at h
      obtain ⟨front, hfront, hafter⟩ := Option.bind_eq_some_iff.mp h
      obtain ⟨more, hmore, hboth⟩ := Option.bind_eq_some_iff.mp hafter
      obtain rfl := Option.some.inj hboth
      obtain ⟨hgroup, hend⟩ := readGroup_eq_some hfront
      have hrest := ih hmore
      rcases hend with hlast | hthree
      · obtain rfl := List.isEmpty_iff.mp hlast
        obtain rfl := Option.some.inj hmore
        rw [List.append_nil]
        exact hgroup
      · obtain ⟨a, b, c, rfl⟩ := List.length_eq_three.mp hthree
        rw [List.cons_append, List.cons_append, List.cons_append,
          List.nil_append, encode, ← hrest]
        rw [encode, encode, List.append_nil] at hgroup
        rw [← hgroup]
        rfl
  | case3 text hnil hcons => exact absurd h (by simp [decode])

theorem mem_encode {bytes : List UInt8} {d : Char} (hd : d ∈ encode bytes) :
    d = '=' ∨ ∃ n < 64, d = digit n := by
  induction bytes using encode.induct with
  | case1 => simp [encode] at hd
  | case2 a =>
      have ha := a.toNat_lt
      simp only [encode, List.mem_cons, List.not_mem_nil, or_false] at hd
      rcases hd with rfl | rfl | rfl | rfl
      · exact Or.inr ⟨_, by omega, rfl⟩
      · exact Or.inr ⟨_, by omega, rfl⟩
      · exact Or.inl rfl
      · exact Or.inl rfl
  | case3 a b =>
      have ha := a.toNat_lt
      have hb := b.toNat_lt
      simp only [encode, List.mem_cons, List.not_mem_nil, or_false] at hd
      rcases hd with rfl | rfl | rfl | rfl
      · exact Or.inr ⟨_, by omega, rfl⟩
      · exact Or.inr ⟨_, by omega, rfl⟩
      · exact Or.inr ⟨_, by omega, rfl⟩
      · exact Or.inl rfl
  | case4 a b c rest ih =>
      have ha := a.toNat_lt
      have hb := b.toNat_lt
      have hc := c.toNat_lt
      simp only [encode, group, List.cons_append, List.nil_append,
        List.mem_cons] at hd
      rcases hd with rfl | rfl | rfl | rfl | hd
      · exact Or.inr ⟨_, by omega, rfl⟩
      · exact Or.inr ⟨_, by omega, rfl⟩
      · exact Or.inr ⟨_, by omega, rfl⟩
      · exact Or.inr ⟨_, by omega, rfl⟩
      · exact ih hd

theorem encode_graphic {bytes : List UInt8} {d : Char} (hd : d ∈ encode bytes) :
    32 < d.toNat ∧ d.toNat < 128 := by
  rcases mem_encode hd with rfl | ⟨n, hn, rfl⟩
  · decide
  · exact digit_graphic n hn

end Base64
