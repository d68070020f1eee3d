import Mathlib.Logic.Function.Basic
import Mathlib.Tactic

/-!
# A shared store with private copies

Clients hold private copies of a store that they share.  A client answers from
its copy and changes the store beside it, and nothing tells the other clients.
-/

namespace SharedStore

universe u v w

variable {ι : Type u} {κ : Type v} {ν : Type w}

structure State (ι : Type u) (κ : Type v) (ν : Type w) where
  store : κ → Option ν
  copy : ι → κ → Option ν

inductive Action (ι : Type u) (κ : Type v) (ν : Type w) where
  /-- The client takes another copy. -/
  | refill (i : ι) (view : κ → Option ν)
  /-- The client changes the store and its own copy. -/
  | write (i : ι) (k : κ) (held : Option ν)
  /-- A write that failed: the store alone is left with something. -/
  | spoil (k : κ) (left : Option ν)

namespace Action

/-- The action changes the store at a key. -/
def Writes (k : κ) : Action ι κ ν → Prop
  | refill _ _ => False
  | write _ k' _ => k' = k
  | spoil k' _ => k' = k

/-- The action brings a value in from outside. -/
def Brings (value : ν) : Action ι κ ν → Prop
  | refill _ _ => False
  | write _ _ held => held = some value
  | spoil _ left => left = some value

end Action

namespace State

/-- What a client holds at a key is what the store holds there. -/
def Backed (s : State ι κ ν) (k : κ) : Prop :=
  ∀ i value, s.copy i k = some value → s.store k = some value

/-- No other client holds anything at a key. -/
def Alone (s : State ι κ ν) (i : ι) (k : κ) : Prop :=
  ∀ j, j ≠ i → s.copy j k = none

/-- A value is nowhere at a key. -/
def Withdrawn (s : State ι κ ν) (k : κ) (value : ν) : Prop :=
  s.store k ≠ some value ∧ ∀ i, s.copy i k ≠ some value

/-- Every value held anywhere is of a set. -/
def Within (s : State ι κ ν) (values : Set ν) : Prop :=
  (∀ k value, s.store k = some value → value ∈ values) ∧
    ∀ i k value, s.copy i k = some value → value ∈ values

variable [DecidableEq ι] [DecidableEq κ]

def apply (s : State ι κ ν) : Action ι κ ν → State ι κ ν
  | .refill i view => { s with copy := Function.update s.copy i view }
  | .write i k held =>
      { store := Function.update s.store k held
        copy := Function.update s.copy i (Function.update (s.copy i) k held) }
  | .spoil k left => { s with store := Function.update s.store k left }

/-- A new copy holds what the store or the old copy holds. -/
def Honest (s : State ι κ ν) : Action ι κ ν → Prop
  | .refill i view => ∀ k value, view k = some value →
      s.store k = some value ∨ s.copy i k = some value
  | _ => True

/-- Where an action changes a key, no other client holds anything at it. -/
def Exclusive (s : State ι κ ν) (k : κ) : Action ι κ ν → Prop
  | .refill _ _ => True
  | .write i k' _ => k' = k → s.Alone i k
  | .spoil k' _ => k' = k → ∀ i, s.copy i k = none

variable {s : State ι κ ν} {k : κ} {value : ν} {action : Action ι κ ν}

theorem store_apply (hkeep : ¬ action.Writes k) :
    (s.apply action).store k = s.store k := by
  cases action with
  | refill i view => rfl
  | write i k' held => exact Function.update_of_ne (Ne.symm hkeep) _ _
  | spoil k' left => exact Function.update_of_ne (Ne.symm hkeep) _ _

theorem store_write (i : ι) (k k' : κ) (held : Option ν) :
    (s.apply (.write i k' held)).store k =
      if k = k' then held else s.store k :=
  Function.update_apply _ _ _ _

theorem copy_write (i j : ι) (k k' : κ) (held : Option ν) :
    (s.apply (.write i k' held)).copy j k =
      if j = i ∧ k = k' then held else s.copy j k := by
  unfold apply
  by_cases hj : j = i
  · subst hj
    by_cases hk : k = k'
    · subst hk
      simp
    · simp [hk]
  · simp [hj]

theorem store_spoil (k k' : κ) (left : Option ν) :
    (s.apply (.spoil k' left)).store k = if k = k' then left else s.store k :=
  Function.update_apply _ _ _ _

/-- What is in a new copy was in the store or in the old copy. -/
theorem held_of_refill {i j : ι} {view : κ → Option ν}
    (hhonest : s.Honest (.refill i view))
    (hheld : (s.apply (.refill i view)).copy j k = some value) :
    s.store k = some value ∨ s.copy j k = some value := by
  unfold apply at hheld
  by_cases hj : j = i
  · subst hj
    simp only [Function.update_self] at hheld
    exact hhonest k value hheld
  · simp only [Function.update_of_ne hj] at hheld
    exact Or.inr hheld

theorem Backed.apply (hbacked : s.Backed k) (hhonest : s.Honest action)
    (halone : s.Exclusive k action) : (s.apply action).Backed k := by
  intro j value hheld
  cases action with
  | refill i view =>
      rcases held_of_refill hhonest hheld with hstore | hcopy
      · exact hstore
      · exact hbacked j value hcopy
  | write i k' held =>
      rw [copy_write] at hheld
      rw [store_write]
      by_cases hk : k = k'
      · subst hk
        by_cases hj : j = i
        · rw [if_pos ⟨hj, rfl⟩] at hheld
          rw [if_pos rfl, hheld]
        · rw [if_neg fun h => hj h.1, halone rfl j hj] at hheld
          cases hheld
      · rw [if_neg fun h => hk h.2] at hheld
        rw [if_neg hk]
        exact hbacked j value hheld
  | spoil k' left =>
      rw [store_spoil]
      by_cases hk : k = k'
      · subst hk
        exact absurd (hheld.symm.trans (halone rfl j)) (by simp)
      · rw [if_neg hk]
        exact hbacked j value hheld

theorem Withdrawn.apply (hgone : s.Withdrawn k value)
    (hhonest : s.Honest action)
    (hfresh : action.Writes k → ¬ action.Brings value) :
    (s.apply action).Withdrawn k value := by
  obtain ⟨hstore, hcopy⟩ := hgone
  cases action with
  | refill i view =>
      refine ⟨hstore, fun j hheld => ?_⟩
      rcases held_of_refill hhonest hheld with h | h
      · exact hstore h
      · exact hcopy j h
  | write i k' held =>
      constructor
      · rw [store_write]
        split_ifs with hk
        · exact hfresh hk.symm
        · exact hstore
      · intro j
        rw [copy_write]
        split_ifs with hk
        · exact hfresh hk.2.symm
        · exact hcopy j
  | spoil k' left =>
      refine ⟨?_, hcopy⟩
      rw [store_spoil]
      split_ifs with hk
      · exact hfresh hk.symm
      · exact hstore

/-- A client that empties a key no other client holds leaves nothing there. -/
theorem withdrawn_write_none {i : ι} (halone : s.Alone i k) :
    (s.apply (.write i k none)).Withdrawn k value := by
  constructor
  · rw [store_write, if_pos rfl]
    simp
  · intro j
    rw [copy_write]
    by_cases hj : j = i
    · rw [if_pos ⟨hj, rfl⟩]
      simp
    · rw [if_neg fun h => hj h.1, halone j hj]
      simp

theorem Within.apply {values values' : Set ν} (hwithin : s.Within values)
    (hhonest : s.Honest action) (hgrow : values ⊆ values')
    (hbrings : ∀ value, action.Brings value → value ∈ values') :
    (s.apply action).Within values' := by
  obtain ⟨hstore, hcopy⟩ := hwithin
  cases action with
  | refill i view =>
      refine ⟨fun k value h => hgrow (hstore k value h), ?_⟩
      intro j k value hheld
      rcases held_of_refill hhonest hheld with h | h
      · exact hgrow (hstore k value h)
      · exact hgrow (hcopy j k value h)
  | write i k' held =>
      constructor
      · intro k value hheld
        rw [store_write] at hheld
        split_ifs at hheld
        · exact hbrings value hheld
        · exact hgrow (hstore k value hheld)
      · intro j k value hheld
        rw [copy_write] at hheld
        split_ifs at hheld
        · exact hbrings value hheld
        · exact hgrow (hcopy j k value hheld)
  | spoil k' left =>
      refine ⟨?_, fun j k value h => hgrow (hcopy j k value h)⟩
      intro k value hheld
      rw [store_spoil] at hheld
      split_ifs at hheld
      · exact hbrings value hheld
      · exact hgrow (hstore k value hheld)

end State

end SharedStore
