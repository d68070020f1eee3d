import Mathlib.Algebra.Order.Floor.Div
import Mathlib.Tactic

/-!
# Rows in chunks

A row that is written chunk by chunk: every chunk but the last holds `size`
items, and a new one is begun with an item only.  The chunks are then the row
cut at the multiples of the size.
-/

namespace Chunks

variable {α : Type*}

/-- Full chunks, and a last one that has room or is full too. -/
structure Filled (size : ℕ) (full : List (List α)) (last : List α) : Prop where
  whole : ∀ chunk ∈ full, chunk.length = size
  room : last.length ≤ size
  started : full = [] ∨ last ≠ []

namespace Filled

variable {size : ℕ} {full : List (List α)} {last : List α}

theorem nil (size : ℕ) : Filled size ([] : List (List α)) [] where
  whole := by simp
  room := Nat.zero_le _
  started := Or.inl rfl

theorem push (h : Filled size full last) (hroom : last.length < size) (a : α) :
    Filled size full (last ++ [a]) where
  whole := h.whole
  room := by
    rw [List.length_append, List.length_singleton]
    omega
  started := Or.inr (by simp)

theorem roll (h : Filled size full last) (hsize : 1 ≤ size)
    (hfull : last.length = size) (a : α) :
    Filled size (full ++ [last]) [a] where
  whole := by
    intro chunk hchunk
    rcases List.mem_append.mp hchunk with hold | hnew
    · exact h.whole chunk hold
    · rw [List.mem_singleton.mp hnew]
      exact hfull
  room := hsize
  started := Or.inr (List.cons_ne_nil a [])

theorem length_flatten (h : Filled size full last) :
    full.flatten.length = full.length * size := by
  have hwhole := h.whole
  clear h
  induction full with
  | nil => simp
  | cons chunk full ih =>
      rw [List.flatten_cons, List.length_append, List.length_cons,
        hwhole chunk List.mem_cons_self,
        ih fun other hother => hwhole other (List.mem_cons_of_mem _ hother)]
      ring

theorem length_row (h : Filled size full last) :
    (full.flatten ++ last).length = full.length * size + last.length := by
  rw [List.length_append, h.length_flatten]

theorem last_ne_nil (h : Filled size full last)
    (hrow : full.flatten ++ last ≠ []) : last ≠ [] := by
  rcases h.started with rfl | hlast
  · simpa using hrow
  · exact hlast

theorem length_chunks (h : Filled size full last)
    (hrow : full.flatten ++ last ≠ []) :
    full.length + 1 = (full.flatten ++ last).length ⌈/⌉ size := by
  have hlast := List.length_pos_iff.mpr (h.last_ne_nil hrow)
  have hroom := h.room
  have hsize : 0 < size := by omega
  rw [Nat.ceilDiv_eq_add_pred_div, h.length_row]
  symm
  rw [Nat.div_eq_iff hsize]
  constructor
  · rw [Nat.add_mul]
    omega
  · rw [Nat.add_mul]
    omega

theorem chunk_ne_nil (h : Filled size full last) (hsize : 1 ≤ size)
    (hrow : full.flatten ++ last ≠ []) :
    ∀ chunk ∈ full ++ [last], chunk ≠ [] := by
  intro chunk hchunk
  rcases List.mem_append.mp hchunk with hfull | hlast
  · have hlength := h.whole chunk hfull
    rintro rfl
    rw [List.length_nil] at hlength
    omega
  · rw [List.mem_singleton.mp hlast]
    exact h.last_ne_nil hrow

/-- The chunks are the pieces of the row. -/
theorem getElem_chunks (h : Filled size full last) {i : ℕ}
    (hi : i < (full ++ [last]).length) :
    (full ++ [last])[i] =
      ((full.flatten ++ last).drop (i * size)).take size := by
  have hwhole := h.whole
  have hroom := h.room
  clear h
  induction full generalizing i with
  | nil =>
      obtain rfl : i = 0 := by simpa using hi
      simp [List.take_of_length_le hroom]
  | cons chunk full ih =>
      have hlength := hwhole chunk List.mem_cons_self
      cases i with
      | zero => simp [← hlength]
      | succ i =>
          have hrest := @ih i (by simpa using hi) fun other hother =>
            hwhole other (List.mem_cons_of_mem _ hother)
          have hstep : (i + 1) * size = chunk.length + i * size := by
            rw [hlength]
            ring
          rw [List.flatten_cons, List.append_assoc, hstep,
            List.drop_length_add_append]
          simpa using hrest

end Filled

end Chunks
