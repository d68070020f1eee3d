import Mathlib.Data.List.Sort
import Mathlib.Tactic

/-!
# Retention

A row is pruned from the front: its first item goes while the item behind it
satisfies a predicate, so that the last one always stays.  Sorting an
unordered collection is stable, so removing items before or after it gives
the same row.
-/

namespace Retention

variable {α : Type*}

/-- What is left of a row. -/
def retained (p : α → Prop) [DecidablePred p] : List α → List α
  | first :: next :: rest =>
      if p next then retained p (next :: rest) else first :: next :: rest
  | row => row

variable {p : α → Prop} [DecidablePred p]

theorem retained_suffix (row : List α) : retained p row <:+ row := by
  induction row using retained.induct (p := p) with
  | case1 first next rest hnext ih =>
      rw [retained, if_pos hnext]
      exact ih.trans (List.suffix_cons first _)
  | case2 first next rest hnext =>
      rw [retained, if_neg hnext]
  | case3 row hrow =>
      rw [retained]
      exact hrow

theorem retained_ne_nil {row : List α} (hrow : row ≠ []) :
    retained p row ≠ [] := by
  induction row using retained.induct (p := p) with
  | case1 first next rest hnext ih =>
      rw [retained, if_pos hnext]
      exact ih (List.cons_ne_nil next rest)
  | case2 first next rest hnext =>
      rw [retained, if_neg hnext]
      exact hrow
  | case3 row hshort =>
      rw [retained]
      · exact hrow
      · exact hshort

/-- Of the items that go, each has a successor that satisfies the predicate;
the first that stays is the last or has one that does not. -/
theorem exists_retained_eq_drop (row : List α) :
    ∃ k, retained p row = row.drop k ∧
      (∀ i < k, ∃ h : i + 1 < row.length, p row[i + 1]) ∧
      ∀ h : k + 1 < row.length, ¬p row[k + 1] := by
  induction row using retained.induct (p := p) with
  | case1 first next rest hnext ih =>
      obtain ⟨k, hdrop, hbefore, hafter⟩ := ih
      refine ⟨k + 1, ?_, ?_, ?_⟩
      · rw [retained, if_pos hnext, hdrop]
        rfl
      · intro i hi
        cases i with
        | zero => exact ⟨by simp, hnext⟩
        | succ i =>
            obtain ⟨hlt, hp⟩ := hbefore i (by omega)
            exact ⟨by simpa using hlt, hp⟩
      · intro hlt
        exact hafter (by simpa using hlt)
  | case2 first next rest hnext =>
      refine ⟨0, by rw [retained, if_neg hnext]; rfl, ?_, fun _ => hnext⟩
      intro i hi
      omega
  | case3 row hshort =>
      refine ⟨0, ?_, ?_, ?_⟩
      · rw [retained]
        · rfl
        · exact hshort
      · intro i hi
        omega
      · intro hlt
        obtain _ | ⟨first, _ | ⟨next, rest⟩⟩ := row
        · simp at hlt
        · simp at hlt
        · exact absurd rfl (hshort first next rest)

/-- Removing the first items by a label that tells the items apart. -/
theorem filter_notMem_take {β : Type*} [DecidableEq β] {label : α → β}
    {row : List α} (hlabels : (row.map label).Nodup) (k : ℕ) :
    row.filter (fun a => decide (label a ∉ (row.take k).map label)) =
      row.drop k := by
  rw [← List.take_append_drop k row, List.map_append,
    List.nodup_append] at hlabels
  have hleft : (row.take k).filter
      (fun a => decide (label a ∉ (row.take k).map label)) = [] := by
    rw [List.filter_eq_nil_iff]
    intro a ha hremains
    exact of_decide_eq_true hremains (List.mem_map_of_mem ha)
  have hright : (row.drop k).filter
      (fun a => decide (label a ∉ (row.take k).map label)) = row.drop k := by
    rw [List.filter_eq_self]
    intro a ha
    rw [decide_eq_true_iff]
    intro hmem
    exact hlabels.2.2 _ hmem _ (List.mem_map_of_mem ha) rfl
  calc row.filter (fun a => decide (label a ∉ (row.take k).map label))
      = (row.take k ++ row.drop k).filter
          (fun a => decide (label a ∉ (row.take k).map label)) := by
        rw [List.take_append_drop]
    _ = row.drop k := by
        rw [List.filter_append, hleft, hright, List.nil_append]

/-! ## Stability -/

variable {r : α → α → Prop} [DecidableRel r]

theorem filter_orderedInsert (htrans : ∀ a b c, r a b → r b c → r a c)
    (q : α → Bool) (a : α) {row : List α} (hsorted : row.Pairwise r) :
    (row.orderedInsert r a).filter q =
      if q a then (row.filter q).orderedInsert r a else row.filter q := by
  induction row with
  | nil => by_cases hq : q a <;> simp [hq]
  | cons b row ih =>
      rw [List.pairwise_cons] at hsorted
      by_cases hab : r a b
      · rw [List.orderedInsert_cons, if_pos hab]
        by_cases hq : q a
        · rw [if_pos hq, List.filter_cons_of_pos hq]
          have hall : ∀ c ∈ (b :: row).filter q, r a c := by
            intro c hc
            rcases List.mem_cons.mp (List.mem_of_mem_filter hc) with rfl | hmem
            · exact hab
            · exact htrans a b c hab (hsorted.1 c hmem)
          cases hfilter : (b :: row).filter q with
          | nil => rfl
          | cons c rest =>
              rw [List.orderedInsert_cons, if_pos]
              exact hall c (by rw [hfilter]; exact List.mem_cons_self)
        · rw [if_neg hq, List.filter_cons_of_neg hq]
      · rw [List.orderedInsert_cons, if_neg hab]
        by_cases hqb : q b
        · rw [List.filter_cons_of_pos hqb, ih hsorted.2,
            List.filter_cons_of_pos hqb]
          by_cases hq : q a
          · rw [if_pos hq, if_pos hq, List.orderedInsert_cons, if_neg hab]
          · rw [if_neg hq, if_neg hq]
        · rw [List.filter_cons_of_neg hqb, ih hsorted.2,
            List.filter_cons_of_neg hqb]

theorem pairwise_insertionSort (htrans : ∀ a b c, r a b → r b c → r a c)
    (htotal : ∀ a b, r a b ∨ r b a) (row : List α) :
    (row.insertionSort r).Pairwise r := by
  have : IsTrans α r := ⟨htrans⟩
  have : Std.Total r := ⟨htotal⟩
  exact List.pairwise_insertionSort r row

theorem filter_insertionSort (htrans : ∀ a b c, r a b → r b c → r a c)
    (htotal : ∀ a b, r a b ∨ r b a) (q : α → Bool) (row : List α) :
    (row.insertionSort r).filter q = (row.filter q).insertionSort r := by
  induction row with
  | nil => rfl
  | cons a row ih =>
      rw [List.insertionSort_cons, filter_orderedInsert htrans q a
        (pairwise_insertionSort htrans htotal row), ih]
      by_cases hq : q a
      · rw [if_pos hq, List.filter_cons_of_pos hq, List.insertionSort_cons]
      · rw [if_neg hq, List.filter_cons_of_neg hq]

end Retention
