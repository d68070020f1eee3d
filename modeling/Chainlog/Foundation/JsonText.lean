import Chainlog.Foundation.JsonDocument

/-!
# Compact JSON text

The compact printer writes no white space outside strings and escapes quotes,
backslashes and control characters.  Its output can be read in one way: a
document at the front of a text determines itself and the rest of the text.
The printer of numbers is a parameter; it has to write tokens over a number
alphabet and tell numbers apart.
-/

namespace Json

variable {ν : Type}

/-! ## Strings -/

def hexDigit (n : ℕ) : Char :=
  if n < 10 then Char.ofNat (48 + n) else Char.ofNat (87 + n)

/-- One character inside a string literal. -/
def escapeChar (c : Char) : List Char :=
  if c = '"' then ['\\', '"']
  else if c = '\\' then ['\\', '\\']
  else if c.toNat = 8 then ['\\', 'b']
  else if c.toNat = 9 then ['\\', 't']
  else if c.toNat = 10 then ['\\', 'n']
  else if c.toNat = 12 then ['\\', 'f']
  else if c.toNat = 13 then ['\\', 'r']
  else if c.toNat < 32 then
    ['\\', 'u', '0', '0', hexDigit (c.toNat / 16), hexDigit (c.toNat % 16)]
  else [c]

/-- A string literal without its opening quote. -/
def stringTail : List Char → List Char
  | [] => ['"']
  | c :: rest => escapeChar c ++ stringTail rest

def quote (s : String) : List Char := '"' :: stringTail s.toList

def Plain (c : Char) : Prop := c ≠ '"' ∧ c ≠ '\\' ∧ 32 ≤ c.toNat

theorem escapeChar_of_plain {c : Char} (h : Plain c) : escapeChar c = [c] := by
  obtain ⟨hquote, hslash, hprint⟩ := h
  simp only [escapeChar, if_neg hquote, if_neg hslash]
  split_ifs <;> first | rfl | omega

theorem escapeChar_cases (c : Char) :
    (Plain c ∧ escapeChar c = [c]) ∨
      ∃ rest, escapeChar c = '\\' :: rest ∧ (c = '"' ∨ c = '\\' ∨ c.toNat < 32) := by
  by_cases hplain : Plain c
  · exact Or.inl ⟨hplain, escapeChar_of_plain hplain⟩
  · right
    have hspecial : c = '"' ∨ c = '\\' ∨ c.toNat < 32 := by
      by_contra hnot
      simp only [not_or, not_lt] at hnot
      exact hplain ⟨hnot.1, hnot.2.1, hnot.2.2⟩
    simp only [escapeChar]
    split_ifs <;> first
      | exact ⟨_, rfl, hspecial⟩
      | (exfalso; simp_all)

def hexValue (c : Char) : ℕ :=
  if c.toNat < 58 then c.toNat - 48 else c.toNat - 87

private theorem hexValue_hexDigit : ∀ n < 16, hexValue (hexDigit n) = n := by
  decide

/-- Read one character of a string literal back. -/
def unescape : List Char → Option (Char × List Char)
  | '\\' :: '"' :: s => some ('"', s)
  | '\\' :: '\\' :: s => some ('\\', s)
  | '\\' :: 'b' :: s => some (Char.ofNat 8, s)
  | '\\' :: 't' :: s => some (Char.ofNat 9, s)
  | '\\' :: 'n' :: s => some (Char.ofNat 10, s)
  | '\\' :: 'f' :: s => some (Char.ofNat 12, s)
  | '\\' :: 'r' :: s => some (Char.ofNat 13, s)
  | '\\' :: 'u' :: '0' :: '0' :: high :: low :: s =>
      some (Char.ofNat (16 * hexValue high + hexValue low), s)
  | c :: s => some (c, s)
  | [] => none

theorem unescape_of_ne {c : Char} (hc : c ≠ '\\') (s : List Char) :
    unescape (c :: s) = some (c, s) := by
  unfold unescape
  split <;> simp_all

theorem unescape_escapeChar (c : Char) (s : List Char) :
    unescape (escapeChar c ++ s) = some (c, s) := by
  have hcode : ∀ n, c.toNat = n → Char.ofNat n = c := by
    rintro n rfl
    exact Char.ofNat_toNat c
  unfold escapeChar
  split
  · subst c; rfl
  split
  · subst c; rfl
  split
  · rw [← hcode 8 (by assumption)]; rfl
  split
  · rw [← hcode 9 (by assumption)]; rfl
  split
  · rw [← hcode 10 (by assumption)]; rfl
  split
  · rw [← hcode 12 (by assumption)]; rfl
  split
  · rw [← hcode 13 (by assumption)]; rfl
  split
  · next hcontrol =>
      have hhigh := hexValue_hexDigit (c.toNat / 16) (by omega)
      have hlow := hexValue_hexDigit (c.toNat % 16) (by omega)
      simp only [List.cons_append, List.nil_append, unescape, hhigh, hlow]
      rw [hcode _ (by omega)]
  · next hslash _ _ _ _ _ _ => exact unescape_of_ne hslash s

/-- Escapes form a prefix code. -/
theorem escapeChar_append_inj {c d : Char} {s t : List Char}
    (h : escapeChar c ++ s = escapeChar d ++ t) : c = d ∧ s = t := by
  have hread := congrArg unescape h
  rw [unescape_escapeChar, unescape_escapeChar] at hread
  simpa using hread

theorem stringTail_append_inj {a b s t : List Char}
    (h : stringTail a ++ s = stringTail b ++ t) : a = b ∧ s = t := by
  have hquote : ∀ (c : Char) (rest : List Char),
      ∃ x xs, escapeChar c ++ rest = x :: xs ∧ x ≠ '"' := by
    intro c rest
    rcases escapeChar_cases c with ⟨hplain, heq⟩ | ⟨tail, heq, _⟩
    · exact ⟨c, rest, by simp [heq], hplain.1⟩
    · exact ⟨'\\', tail ++ rest, by simp [heq], by decide⟩
  induction a generalizing b with
  | nil =>
      cases b with
      | nil => simpa [stringTail] using h
      | cons d b =>
          obtain ⟨x, xs, hx, hne⟩ := hquote d (stringTail b ++ t)
          simp only [stringTail, List.append_assoc, hx, List.cons_append] at h
          exact absurd (List.cons.inj h).1.symm hne
  | cons c a ih =>
      cases b with
      | nil =>
          obtain ⟨x, xs, hx, hne⟩ := hquote c (stringTail a ++ s)
          simp only [stringTail, List.append_assoc, hx, List.cons_append] at h
          exact absurd (List.cons.inj h).1 hne
      | cons d b =>
          simp only [stringTail, List.append_assoc] at h
          obtain ⟨rfl, hrest⟩ := escapeChar_append_inj h
          obtain ⟨rfl, hst⟩ := ih hrest
          exact ⟨rfl, hst⟩

theorem quote_append_inj {a b : String} {s t : List Char}
    (h : quote a ++ s = quote b ++ t) : a = b ∧ s = t := by
  simp only [quote, List.cons_append, List.cons.injEq, true_and] at h
  obtain ⟨hlist, hst⟩ := stringTail_append_inj h
  exact ⟨String.toList_inj.mp hlist, hst⟩

/-! ## Numbers -/

/-- The characters of a JSON number. -/
def numberChar (c : Char) : Bool :=
  c.isDigit || c = '-' || c = '+' || c = '.' || c = 'e' || c = 'E'

/-- A printer of numbers that writes non-empty number tokens and tells
numbers apart. -/
structure NumberPrinter (ν : Type) where
  print : ν → List Char
  print_ne_nil : ∀ n, print n ≠ []
  print_chars : ∀ n, ∀ c ∈ print n, numberChar c
  print_inj : Function.Injective print

/-- The text does not go on with a number character. -/
def EndsNumber (s : List Char) : Prop := ∀ c ∈ s.head?, ¬numberChar c

theorem takeWhile_numberChar {token s : List Char}
    (htoken : ∀ c ∈ token, numberChar c) (hs : EndsNumber s) :
    (token ++ s).takeWhile numberChar = token := by
  rw [List.takeWhile_append_of_pos htoken]
  cases s with
  | nil => simp
  | cons c rest =>
      have hc : ¬numberChar c := hs c rfl
      simp [hc]

theorem NumberPrinter.append_inj (numbers : NumberPrinter ν) {m n : ν}
    {s t : List Char} (hs : EndsNumber s) (ht : EndsNumber t)
    (h : numbers.print m ++ s = numbers.print n ++ t) : m = n ∧ s = t := by
  have htokens : numbers.print m = numbers.print n := by
    rw [← takeWhile_numberChar (numbers.print_chars m) hs, h,
      takeWhile_numberChar (numbers.print_chars n) ht]
  obtain rfl := numbers.print_inj htokens
  exact ⟨rfl, List.append_cancel_left h⟩

/-! ## Documents -/

variable (numbers : NumberPrinter ν)

mutual
def render : Json ν → List Char
  | .null => ['n', 'u', 'l', 'l']
  | .bool true => ['t', 'r', 'u', 'e']
  | .bool false => ['f', 'a', 'l', 's', 'e']
  | .number n => numbers.print n
  | .string s => quote s
  | .array [] => ['[', ']']
  | .array (item :: rest) => '[' :: (render item ++ renderItems rest)
  | .object [] => ['{', '}']
  | .object ((key, value) :: rest) =>
      '{' :: (quote key ++ ':' :: (render value ++ renderMembers rest))

/-- The items after the first, and the closing bracket. -/
def renderItems : List (Json ν) → List Char
  | [] => [']']
  | item :: rest => ',' :: (render item ++ renderItems rest)

/-- The members after the first, and the closing brace. -/
def renderMembers : List (String × Json ν) → List Char
  | [] => ['}']
  | (key, value) :: rest =>
      ',' :: (quote key ++ ':' :: (render value ++ renderMembers rest))
end

/-- The kind of a document, as its first character shows it. -/
def leader : Json ν → Option Char
  | .null => some 'n'
  | .bool true => some 't'
  | .bool false => some 'f'
  | .number _ => none
  | .string _ => some '"'
  | .array _ => some '['
  | .object _ => some '{'

theorem render_leader (doc : Json ν) :
    ∃ c rest, render numbers doc = c :: rest ∧
      (doc.leader = some c ∨ doc.leader = none ∧ numberChar c) := by
  cases doc with
  | null => exact ⟨_, _, by rw [render], Or.inl rfl⟩
  | bool b => cases b <;> exact ⟨_, _, by rw [render], Or.inl rfl⟩
  | number n =>
      rw [render]
      cases htoken : numbers.print n with
      | nil => exact absurd htoken (numbers.print_ne_nil n)
      | cons c rest =>
          exact ⟨c, rest, rfl, Or.inr ⟨rfl,
            numbers.print_chars n c (by simp [htoken])⟩⟩
  | string s => exact ⟨_, _, by rw [render, quote], Or.inl rfl⟩
  | array items =>
      cases items <;> exact ⟨_, _, by rw [render], Or.inl rfl⟩
  | object members =>
      rcases members with _ | ⟨⟨key, value⟩, rest⟩ <;>
        exact ⟨_, _, by rw [render], Or.inl rfl⟩

theorem leader_not_numberChar {doc : Json ν} {c : Char}
    (h : doc.leader = some c) : ¬numberChar c := by
  cases doc with
  | null => obtain rfl := Option.some.inj h; decide
  | bool b => cases b <;> (obtain rfl := Option.some.inj h; decide)
  | number n => simp [leader] at h
  | string s => obtain rfl := Option.some.inj h; decide
  | array items => obtain rfl := Option.some.inj h; decide
  | object members => obtain rfl := Option.some.inj h; decide

/-- Texts that agree start documents of one kind. -/
theorem leader_eq_of_render_append {left right : Json ν} {s t : List Char}
    (h : render numbers left ++ s = render numbers right ++ t) :
    left.leader = right.leader := by
  obtain ⟨c, cs, hc, hcl⟩ := render_leader numbers left
  obtain ⟨d, ds, hd, hdl⟩ := render_leader numbers right
  rw [hc, hd, List.cons_append, List.cons_append] at h
  obtain rfl := (List.cons.inj h).1
  rcases hcl with hl | ⟨hl, hnum⟩ <;> rcases hdl with hr | ⟨hr, hnum'⟩
  · rw [hl, hr]
  · exact absurd hnum' (leader_not_numberChar hl)
  · exact absurd hnum (leader_not_numberChar hr)
  · rw [hl, hr]

theorem leader_ne_closing (doc : Json ν) :
    doc.leader ≠ some ']' ∧ doc.leader ≠ some '}' := by
  cases doc with
  | bool b => cases b <;> simp [leader]
  | _ => simp [leader]

theorem render_ne_bracket (doc : Json ν) (rest s : List Char) :
    render numbers doc ++ rest ≠ ']' :: s := by
  obtain ⟨c, cs, hc, hcl⟩ := render_leader numbers doc
  rw [hc, List.cons_append]
  intro h
  obtain rfl := (List.cons.inj h).1
  rcases hcl with hl | ⟨_, hnum⟩
  · exact (leader_ne_closing doc).1 hl
  · exact absurd hnum (by decide)

theorem endsNumber_cons {c : Char} (hc : ¬numberChar c) (s : List Char) :
    EndsNumber (c :: s) := by
  simpa [EndsNumber] using hc

theorem endsNumber_renderItems (items : List (Json ν)) (s : List Char) :
    EndsNumber (renderItems numbers items ++ s) := by
  cases items <;> rw [renderItems] <;>
    exact endsNumber_cons (by decide) _

theorem endsNumber_renderMembers (members : List (String × Json ν))
    (s : List Char) : EndsNumber (renderMembers numbers members ++ s) := by
  rcases members with _ | ⟨⟨key, value⟩, rest⟩ <;> rw [renderMembers] <;>
    exact endsNumber_cons (by decide) _

mutual
/-- A document at the front of a text determines itself and the rest.  Only a
number needs to know where it ends. -/
theorem render_append_inj : ∀ (left right : Json ν) (s t : List Char),
    (left.leader = none → EndsNumber s ∧ EndsNumber t) →
      render numbers left ++ s = render numbers right ++ t →
        left = right ∧ s = t
  | left, right, s, t, hends, h => by
      have hleader := leader_eq_of_render_append numbers h
      match left, right, hends, h, hleader with
      | .null, .null, hends, h, _ =>
          exact ⟨rfl, List.append_cancel_left h⟩
      | .bool true, .bool true, hends, h, _ =>
          exact ⟨rfl, List.append_cancel_left h⟩
      | .bool false, .bool false, hends, h, _ =>
          exact ⟨rfl, List.append_cancel_left h⟩
      | .number m, .number n, hends, h, _ =>
          rw [render, render] at h
          obtain ⟨hs, ht⟩ := hends rfl
          obtain ⟨rfl, hst⟩ := numbers.append_inj hs ht h
          exact ⟨rfl, hst⟩
      | .string a, .string b, hends, h, _ =>
          rw [render, render] at h
          obtain ⟨rfl, hst⟩ := quote_append_inj h
          exact ⟨rfl, hst⟩
      | .array [], .array [], hends, h, _ =>
          exact ⟨rfl, List.append_cancel_left h⟩
      | .array [], .array (item :: rest), hends, h, _ =>
          rw [render, render] at h
          simp only [List.cons_append, List.nil_append, List.append_assoc,
            List.cons.injEq, true_and] at h
          exact absurd h.symm (render_ne_bracket numbers item _ _)
      | .array (item :: rest), .array [], hends, h, _ =>
          rw [render, render] at h
          simp only [List.cons_append, List.nil_append, List.append_assoc,
            List.cons.injEq, true_and] at h
          exact absurd h (render_ne_bracket numbers item _ _)
      | .array (item :: rest), .array (other :: others), hends, h, _ =>
          rw [render, render] at h
          simp only [List.cons_append, List.append_assoc, List.cons.injEq,
            true_and] at h
          obtain ⟨rfl, htail⟩ := render_append_inj item other _ _
            (fun _ => ⟨endsNumber_renderItems numbers rest s,
              endsNumber_renderItems numbers others t⟩) h
          obtain ⟨rfl, hst⟩ := renderItems_append_inj rest others s t htail
          exact ⟨rfl, hst⟩
      | .object [], .object [], hends, h, _ =>
          exact ⟨rfl, List.append_cancel_left h⟩
      | .object [], .object ((key, value) :: rest), hends, h, _ =>
          rw [render, render] at h
          simp [quote] at h
      | .object ((key, value) :: rest), .object [], hends, h, _ =>
          rw [render, render] at h
          simp [quote] at h
      | .object ((key, value) :: rest), .object ((key', value') :: rest'),
          hends, h, _ =>
          rw [render, render] at h
          simp only [List.cons_append, List.append_assoc, List.cons.injEq,
            true_and] at h
          obtain ⟨rfl, hvalue⟩ := quote_append_inj h
          simp only [List.cons.injEq, true_and] at hvalue
          obtain ⟨rfl, htail⟩ := render_append_inj value value' _ _
            (fun _ => ⟨endsNumber_renderMembers numbers rest s,
              endsNumber_renderMembers numbers rest' t⟩) hvalue
          obtain ⟨rfl, hst⟩ := renderMembers_append_inj rest rest' s t htail
          exact ⟨rfl, hst⟩

theorem renderItems_append_inj :
    ∀ (left right : List (Json ν)) (s t : List Char),
      renderItems numbers left ++ s = renderItems numbers right ++ t →
        left = right ∧ s = t
  | [], [], s, t, h => ⟨rfl, List.append_cancel_left h⟩
  | [], _ :: _, s, t, h => by
      rw [renderItems, renderItems] at h
      simp at h
  | _ :: _, [], s, t, h => by
      rw [renderItems, renderItems] at h
      simp at h
  | item :: rest, other :: others, s, t, h => by
      rw [renderItems, renderItems] at h
      simp only [List.cons_append, List.append_assoc, List.cons.injEq,
        true_and] at h
      obtain ⟨rfl, htail⟩ := render_append_inj item other _ _
        (fun _ => ⟨endsNumber_renderItems numbers rest s,
          endsNumber_renderItems numbers others t⟩) h
      obtain ⟨rfl, hst⟩ := renderItems_append_inj rest others s t htail
      exact ⟨rfl, hst⟩

theorem renderMembers_append_inj :
    ∀ (left right : List (String × Json ν)) (s t : List Char),
      renderMembers numbers left ++ s = renderMembers numbers right ++ t →
        left = right ∧ s = t
  | [], [], s, t, h => ⟨rfl, List.append_cancel_left h⟩
  | [], (_, _) :: _, s, t, h => by
      rw [renderMembers, renderMembers] at h
      simp at h
  | (_, _) :: _, [], s, t, h => by
      rw [renderMembers, renderMembers] at h
      simp at h
  | (key, value) :: rest, (key', value') :: rest', s, t, h => by
      rw [renderMembers, renderMembers] at h
      simp only [List.cons_append, List.append_assoc, List.cons.injEq,
        true_and] at h
      obtain ⟨rfl, hvalue⟩ := quote_append_inj h
      simp only [List.cons.injEq, true_and] at hvalue
      obtain ⟨rfl, htail⟩ := render_append_inj value value' _ _
        (fun _ => ⟨endsNumber_renderMembers numbers rest s,
          endsNumber_renderMembers numbers rest' t⟩) hvalue
      obtain ⟨rfl, hst⟩ := renderMembers_append_inj rest rest' s t htail
      exact ⟨rfl, hst⟩
end

theorem render_injective : Function.Injective (render numbers) := by
  intro left right h
  have hends : EndsNumber ([] : List Char) := by simp [EndsNumber]
  exact (render_append_inj numbers left right [] [] (fun _ => ⟨hends, hends⟩)
    (by simpa using h)).1

/-- No text of an object is a proper prefix of another document's text. -/
theorem render_object_append_eq {members : List (String × Json ν)}
    {doc : Json ν} {s : List Char}
    (h : render numbers (.object members) ++ s = render numbers doc) :
    .object members = doc ∧ s = [] :=
  render_append_inj numbers (.object members) doc s []
    (fun hnone => by simp [leader] at hnone) (by simpa using h)

/-! ## Printable output -/

theorem escapeChar_printable (c : Char) :
    ∀ d ∈ escapeChar c, 32 ≤ d.toNat := by
  have hhex : ∀ n < 16, 32 ≤ (hexDigit n).toNat := by decide
  intro d hd
  unfold escapeChar at hd
  split_ifs at hd <;>
    simp only [List.mem_cons, List.not_mem_nil, or_false] at hd
  case pos => rcases hd with rfl | rfl <;> decide
  case pos => rcases hd with rfl | rfl <;> decide
  case pos => rcases hd with rfl | rfl <;> decide
  case pos => rcases hd with rfl | rfl <;> decide
  case pos => rcases hd with rfl | rfl <;> decide
  case pos => rcases hd with rfl | rfl <;> decide
  case pos => rcases hd with rfl | rfl <;> decide
  case pos =>
    rcases hd with rfl | rfl | rfl | rfl | rfl | rfl
    · decide
    · decide
    · decide
    · decide
    · exact hhex _ (by omega)
    · exact hhex _ (by omega)
  case neg hprint => subst d; omega

theorem quote_printable (s : String) : ∀ c ∈ quote s, 32 ≤ c.toNat := by
  have htail : ∀ chars : List Char, ∀ c ∈ stringTail chars, 32 ≤ c.toNat := by
    intro chars
    induction chars with
    | nil => simp [stringTail]
    | cons x rest ih =>
        intro c hc
        rcases List.mem_append.mp hc with h | h
        · exact escapeChar_printable x c h
        · exact ih c h
  intro c hc
  rcases List.mem_cons.mp hc with rfl | h
  · decide
  · exact htail _ c h

theorem numberChar_printable {c : Char} (hc : numberChar c) : 32 ≤ c.toNat := by
  simp only [numberChar, Bool.or_eq_true, decide_eq_true_eq] at hc
  rcases hc with ((((h | rfl) | rfl) | rfl) | rfl) | rfl
  · simp only [Char.isDigit, Bool.and_eq_true, decide_eq_true_eq] at h
    have h48 : (48 : UInt32).toNat ≤ c.val.toNat := h.1
    have hval : c.val.toNat = c.toNat := rfl
    simp at h48
    omega
  all_goals decide

mutual
/-- The compact text has no control characters, hence no line breaks. -/
theorem render_printable : ∀ (doc : Json ν), ∀ c ∈ render numbers doc,
    32 ≤ c.toNat
  | .null => by simp [render]
  | .bool true => by simp [render]
  | .bool false => by simp [render]
  | .number n => by
      rw [render]
      exact fun c hc => numberChar_printable (numbers.print_chars n c hc)
  | .string s => by rw [render]; exact quote_printable s
  | .array [] => by simp [render]
  | .array (item :: rest) => by
      rw [render]
      simp only [List.mem_cons, List.mem_append]
      rintro c (rfl | h | h)
      · decide
      · exact render_printable item c h
      · exact renderItems_printable rest c h
  | .object [] => by simp [render]
  | .object ((key, value) :: rest) => by
      rw [render]
      simp only [List.mem_cons, List.mem_append]
      rintro c (rfl | h | rfl | h | h)
      · decide
      · exact quote_printable key c h
      · decide
      · exact render_printable value c h
      · exact renderMembers_printable rest c h

theorem renderItems_printable : ∀ (items : List (Json ν)),
    ∀ c ∈ renderItems numbers items, 32 ≤ c.toNat
  | [] => by simp [renderItems]
  | item :: rest => by
      rw [renderItems]
      simp only [List.mem_cons, List.mem_append]
      rintro c (rfl | h | h)
      · decide
      · exact render_printable item c h
      · exact renderItems_printable rest c h

theorem renderMembers_printable : ∀ (members : List (String × Json ν)),
    ∀ c ∈ renderMembers numbers members, 32 ≤ c.toNat
  | [] => by simp [renderMembers]
  | (key, value) :: rest => by
      rw [renderMembers]
      simp only [List.mem_cons, List.mem_append]
      rintro c (rfl | h | rfl | h | h)
      · decide
      · exact quote_printable key c h
      · decide
      · exact render_printable value c h
      · exact renderMembers_printable rest c h
end

end Json
