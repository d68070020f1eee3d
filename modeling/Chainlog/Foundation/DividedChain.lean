import Chainlog.Foundation.HashChain

/-!
# Divided chains

A chain may be kept in groups, each under the position at which it starts.
Groups can be dropped from the front: what is left is a divided chain that
starts where the dropped records finish.
-/

namespace HashChain

variable {E I H C : Type*} (shape : Shape E I H C)

namespace Shape

/-- The groups continue a chain one after the other, each under the position
its first record has to carry. -/
def Divided : I × H → List I → List (List E) → Prop
  | _, [], [] => True
  | start, name :: names, group :: groups =>
      name = start.1 ∧ shape.Follows start group ∧
        Divided (shape.finish start group) names groups
  | _, _, _ => False

variable {shape} {start : I × H} {names : List I} {groups : List (List E)}

theorem divided_cons {name : I} {group : List E} :
    shape.Divided start (name :: names) (group :: groups) ↔
      name = start.1 ∧ shape.Follows start group ∧
        shape.Divided (shape.finish start group) names groups := Iff.rfl

theorem Divided.length_eq (h : shape.Divided start names groups) :
    names.length = groups.length := by
  induction names generalizing start groups with
  | nil =>
      cases groups with
      | nil => rfl
      | cons group groups => exact absurd h id
  | cons name names ih =>
      cases groups with
      | nil => exact absurd h id
      | cons group groups =>
          rw [List.length_cons, List.length_cons, ih h.2.2]

theorem divided_append {names' : List I} {groups' : List (List E)}
    (hlength : names.length = groups.length) :
    shape.Divided start (names ++ names') (groups ++ groups') ↔
      shape.Divided start names groups ∧
        shape.Divided (shape.finish start groups.flatten) names' groups' := by
  induction names generalizing start groups with
  | nil =>
      obtain rfl : groups = [] := List.length_eq_zero_iff.mp hlength.symm
      simp [Divided]
  | cons name names ih =>
      cases groups with
      | nil => simp at hlength
      | cons group groups =>
          rw [List.cons_append, List.cons_append, List.flatten_cons,
            finish_append, divided_cons, divided_cons,
            ih (by simpa using hlength)]
          constructor
          · rintro ⟨hname, hgroup, hleft, hright⟩
            exact ⟨⟨hname, hgroup, hleft⟩, hright⟩
          · rintro ⟨⟨hname, hgroup, hleft⟩, hright⟩
            exact ⟨hname, hgroup, hleft, hright⟩

theorem divided_singleton {name : I} {group : List E} :
    shape.Divided start [name] [group] ↔
      name = start.1 ∧ shape.Follows start group := by
  simp [Divided]

theorem Divided.follows (h : shape.Divided start names groups) :
    shape.Follows start groups.flatten := by
  induction names generalizing start groups with
  | nil =>
      cases groups with
      | nil => exact trivial
      | cons group groups => exact absurd h id
  | cons name names ih =>
      cases groups with
      | nil => exact absurd h id
      | cons group groups =>
          rw [List.flatten_cons, follows_append]
          exact ⟨h.2.1, ih h.2.2⟩

theorem Divided.drop (h : shape.Divided start names groups) (k : ℕ) :
    shape.Divided (shape.finish start (groups.take k).flatten) (names.drop k)
      (groups.drop k) := by
  have hlength : (names.take k).length = (groups.take k).length := by
    rw [List.length_take, List.length_take, h.length_eq]
  rw [← List.take_append_drop k names, ← List.take_append_drop k groups,
    divided_append hlength] at h
  exact h.2

/-- A group's name is the position behind all groups before it. -/
theorem Divided.name_eq (h : shape.Divided start names groups) {i : ℕ}
    (hi : i < names.length) :
    names[i] = (shape.finish start (groups.take i).flatten).1 := by
  have hdrop := h.drop i
  have hi' : i < groups.length := h.length_eq ▸ hi
  rw [List.drop_eq_getElem_cons hi, List.drop_eq_getElem_cons hi'] at hdrop
  exact hdrop.1

end Shape

end HashChain
