import Mathlib.Data.List.DropRight
import Mathlib.Data.List.Induction
import Mathlib.Tactic.Common

/-!
# Delimited lines

A byte stream is read line by line by cutting it after every delimiter.  The
last piece may lack its delimiter.  Appending behaves well exactly after a
terminated stream: the new bytes then start a piece of their own.
-/

namespace Lines

variable {α : Type*} [DecidableEq α]

/-- The pieces of a stream, each ending with its delimiter except possibly
the last. -/
def pieces (delim : α) : List α → List (List α)
  | [] => []
  | x :: rest =>
      if x = delim then [x] :: pieces delim rest
      else
        match pieces delim rest with
        | [] => [[x]]
        | piece :: others => (x :: piece) :: others

/-- The stream is empty or ends with the delimiter. -/
def Terminated (delim : α) (xs : List α) : Prop :=
  ∀ x ∈ xs.getLast?, x = delim

instance (delim : α) (xs : List α) : Decidable (Terminated delim xs) :=
  inferInstanceAs (Decidable (∀ x ∈ xs.getLast?, x = delim))

@[simp] theorem pieces_nil (delim : α) : pieces delim [] = [] := rfl

omit [DecidableEq α] in
@[simp] theorem terminated_nil (delim : α) : Terminated delim [] := by
  simp [Terminated]

omit [DecidableEq α] in
@[simp] theorem terminated_append_delim (delim : α) (xs : List α) :
    Terminated delim (xs ++ [delim]) := by
  simp [Terminated]

omit [DecidableEq α] in
theorem Terminated.append {delim : α} {xs ys : List α}
    (hxs : Terminated delim xs) (hys : Terminated delim ys) :
    Terminated delim (xs ++ ys) := by
  cases ys using List.reverseRecOn with
  | nil => simpa using hxs
  | append_singleton ys y =>
      simpa [Terminated, ← List.append_assoc] using hys

omit [DecidableEq α] in
theorem Terminated.tail {delim x y : α} {xs : List α}
    (h : Terminated delim (x :: y :: xs)) : Terminated delim (y :: xs) := by
  simpa [Terminated, List.getLast?_cons_cons] using h

omit [DecidableEq α] in
theorem not_terminated_of_notMem {delim : α} {line : List α}
    (hline : line ≠ []) (hdelim : delim ∉ line) (xs : List α) :
    ¬Terminated delim (xs ++ line) := by
  cases line using List.reverseRecOn with
  | nil => exact absurd rfl hline
  | append_singleton line x =>
      intro hterminated
      have hx : x = delim :=
        hterminated x (by simp [← List.append_assoc])
      exact hdelim (by simp [hx])

theorem pieces_cons (delim x : α) (xs : List α) :
    ∃ piece others, pieces delim (x :: xs) = piece :: others ∧
      ∃ rest, piece = x :: rest := by
  simp only [pieces]
  split_ifs
  · exact ⟨[x], pieces delim xs, rfl, [], rfl⟩
  · cases pieces delim xs with
    | nil => exact ⟨[x], [], rfl, [], rfl⟩
    | cons piece others => exact ⟨x :: piece, others, rfl, piece, rfl⟩

/-- Bytes that follow a terminated stream start a piece of their own. -/
theorem pieces_append {delim : α} {xs : List α}
    (hxs : Terminated delim xs) (ys : List α) :
    pieces delim (xs ++ ys) = pieces delim xs ++ pieces delim ys := by
  induction xs with
  | nil => simp
  | cons x rest ih =>
      cases rest with
      | nil =>
          have hx : x = delim := hxs x (by simp)
          simp [pieces, hx]
      | cons y rest =>
          have hrest := ih hxs.tail
          obtain ⟨piece, others, hpieces, _⟩ := pieces_cons delim y rest
          rw [List.cons_append, pieces, hrest, pieces.eq_def delim (x :: _)]
          simp only
          split_ifs
          · simp
          · simp [hpieces]

theorem pieces_line {delim : α} {line : List α} (hline : delim ∉ line) :
    pieces delim (line ++ [delim]) = [line ++ [delim]] := by
  induction line with
  | nil => simp [pieces]
  | cons x rest ih =>
      simp only [List.mem_cons, not_or] at hline
      rw [List.cons_append, pieces, ih hline.2]
      simp [Ne.symm hline.1]

theorem pieces_unterminated {delim : α} {line : List α}
    (hne : line ≠ []) (hline : delim ∉ line) :
    pieces delim line = [line] := by
  induction line with
  | nil => exact absurd rfl hne
  | cons x rest ih =>
      simp only [List.mem_cons, not_or] at hline
      cases rest with
      | nil => simp [pieces, Ne.symm hline.1]
      | cons y rest =>
          rw [pieces, ih (by simp) hline.2]
          simp [Ne.symm hline.1]

/-- What stands behind the last delimiter. -/
def remainder (delim : α) (xs : List α) : List α :=
  xs.rtakeWhile fun x => x ≠ delim

theorem notMem_remainder (delim : α) (xs : List α) :
    delim ∉ remainder delim xs := by
  intro hmem
  have hne := List.mem_rtakeWhile_imp hmem
  simp at hne

theorem remainder_of_notMem {delim : α} {xs : List α} (hxs : delim ∉ xs) :
    remainder delim xs = xs := by
  apply List.rtakeWhile_eq_self_iff.mpr
  rintro x hx
  exact decide_eq_true fun heq => hxs (heq ▸ hx)

/-- A stream is a terminated one with its remainder behind. -/
theorem exists_terminated_append_remainder (delim : α) (xs : List α) :
    ∃ front, Terminated delim front ∧ xs = front ++ remainder delim xs := by
  refine ⟨xs.rdropWhile fun x => x ≠ delim, ?_,
    (List.rdropWhile_append_rtakeWhile).symm⟩
  intro x hx
  by_cases hfront : xs.rdropWhile (fun x => decide (x ≠ delim)) = []
  · rw [hfront] at hx
    simp at hx
  · have hlast := List.rdropWhile_last_not _ xs hfront
    rw [List.getLast?_eq_some_getLast hfront, Option.mem_some] at hx
    rw [← hx]
    simpa using hlast

end Lines
