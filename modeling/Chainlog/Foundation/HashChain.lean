import Mathlib.Data.List.Basic
import Mathlib.Tactic

/-!
# Hash-linked chains

A chained record names its own position, the digest of its predecessor and the
digest of its own contents.  `Follows` says that a list of records continues a
chain from an expected position and an expected predecessor digest.  Positions
come from any type with a successor; a rank into the naturals is only assumed
where positions have to be told apart.
-/

namespace HashChain

/-- How the links of a chained record are read. -/
structure Shape (E I H C : Type*) where
  index : E → I
  link : E → H
  digest : E → H
  content : E → C
  hash : C → H
  next : I → I

variable {E I H C : Type*} (shape : Shape E I H C)

namespace Shape

/-- The record's stored digest is the digest of its contents. -/
def Sealed (e : E) : Prop := shape.hash (shape.content e) = shape.digest e

/-- What the record after `e` has to carry. -/
def after (e : E) : I × H := (shape.next (shape.index e), shape.digest e)

/-- The records continue a chain whose next record must carry `start`. -/
def Follows : I × H → List E → Prop
  | _, [] => True
  | start, e :: rest =>
      (shape.index e = start.1 ∧ shape.link e = start.2 ∧ shape.Sealed e) ∧
        Follows (shape.after e) rest

/-- What the record after the whole list has to carry. -/
def finish (start : I × H) : List E → I × H
  | [] => start
  | e :: rest => finish (shape.after e) rest

@[simp] theorem follows_nil (start : I × H) : shape.Follows start [] := trivial

@[simp] theorem follows_cons (start : I × H) (e : E) (rest : List E) :
    shape.Follows start (e :: rest) ↔
      (shape.index e = start.1 ∧ shape.link e = start.2 ∧ shape.Sealed e) ∧
        shape.Follows (shape.after e) rest := Iff.rfl

@[simp] theorem finish_nil (start : I × H) : shape.finish start [] = start := rfl

@[simp] theorem finish_cons (start : I × H) (e : E) (rest : List E) :
    shape.finish start (e :: rest) = shape.finish (shape.after e) rest := rfl

@[simp] theorem finish_append (start : I × H) (left right : List E) :
    shape.finish start (left ++ right) =
      shape.finish (shape.finish start left) right := by
  induction left generalizing start with
  | nil => rfl
  | cons e rest ih => exact ih (shape.after e)

/-- A chain can be cut anywhere. -/
theorem follows_append (start : I × H) (left right : List E) :
    shape.Follows start (left ++ right) ↔
      shape.Follows start left ∧
        shape.Follows (shape.finish start left) right := by
  induction left generalizing start with
  | nil => simp
  | cons e rest ih =>
      rw [List.cons_append, follows_cons, follows_cons, ih, finish_cons]
      exact and_assoc.symm

theorem Follows.of_prefix {shape : Shape E I H C} {start : I × H}
    {left right : List E}
    (h : shape.Follows start right) (hinit : left <+: right) :
    shape.Follows start left := by
  obtain ⟨suffix, rfl⟩ := hinit
  exact ((shape.follows_append start left suffix).mp h).1

theorem Follows.sealed {shape : Shape E I H C} {start : I × H}
    {records : List E} (h : shape.Follows start records)
    {e : E} (he : e ∈ records) : shape.Sealed e := by
  induction records generalizing start with
  | nil => simp at he
  | cons first rest ih =>
      rcases List.mem_cons.mp he with rfl | hrest
      · exact h.1.2.2
      · exact ih h.2 hrest

/-! ## Positions -/

/-- A rank that grows by one at every record of the list. -/
def Ranked (rank : I → ℕ) (records : List E) : Prop :=
  ∀ e ∈ records, rank (shape.next (shape.index e)) = rank (shape.index e) + 1

variable {shape}

theorem Ranked.tail {rank : I → ℕ} {e : E} {rest : List E}
    (h : shape.Ranked rank (e :: rest)) : shape.Ranked rank rest :=
  fun other hother => h other (List.mem_cons_of_mem e hother)

theorem Follows.rank_getElem {rank : I → ℕ} {start : I × H}
    {records : List E}
    (h : shape.Follows start records) (hrank : shape.Ranked rank records)
    (k : ℕ) (hk : k < records.length) :
    rank (shape.index records[k]) = rank start.1 + k := by
  induction records generalizing start k with
  | nil => simp at hk
  | cons e rest ih =>
      cases k with
      | zero => simp [h.1.1]
      | succ k =>
          have hstep : rank (shape.next (shape.index e)) = rank start.1 + 1 := by
            rw [hrank e List.mem_cons_self, h.1.1]
          have htail := ih h.2 hrank.tail k (by simpa using hk)
          simp only [List.getElem_cons_succ]
          rw [htail]
          simp only [after, hstep]
          omega

/-- A chain made of another chain's records, in whatever order and however
often, is a prefix of it. -/
theorem Follows.prefix_of_subset {rank : I → ℕ} {start : I × H}
    {whole part : List E}
    (hwhole : shape.Follows start whole) (hrank : shape.Ranked rank whole)
    (hpart : shape.Follows start part) (hsubset : part ⊆ whole) :
    part <+: whole := by
  have hpartRank : shape.Ranked rank part :=
    fun e he => hrank e (hsubset he)
  have hposition : ∀ k (hk : k < part.length),
      ∃ hk' : k < whole.length, whole[k] = part[k] := by
    intro k hk
    obtain ⟨j, hj, hje⟩ :=
      List.getElem_of_mem (hsubset (List.getElem_mem hk))
    have hrankEq : rank start.1 + j = rank start.1 + k := by
      rw [← hwhole.rank_getElem hrank j hj,
        ← hpart.rank_getElem hpartRank k hk, hje]
    have hjk : j = k := by omega
    subst j
    exact ⟨hj, hje⟩
  rw [List.prefix_iff_getElem]
  have hlength : part.length ≤ whole.length := by
    rcases Nat.eq_zero_or_pos part.length with hzero | hpos
    · omega
    · obtain ⟨hlast, _⟩ := hposition (part.length - 1) (by omega)
      omega
  exact ⟨hlength, fun k hk => ((hposition k hk).2).symm⟩

/-! ## Commitment -/

/-- No two records of the two lists have distinct contents with one digest. -/
def NoCollision (shape : Shape E I H C) (left right : List E) : Prop :=
  ∀ e ∈ left, ∀ f ∈ right,
    shape.hash (shape.content e) = shape.hash (shape.content f) →
      shape.content e = shape.content f

end Shape

end HashChain
