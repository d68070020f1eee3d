import Mathlib.Data.List.Basic

/-!
# Length-prefixed fields

A field is written as a fixed-width header holding its length, followed by its
contents.  The header only has to be injective below a bound; from that alone
the concatenation of any number of fields can be read back in one way.
-/

namespace LengthPrefix

variable {α : Type*}

/-- A fixed-width encoding of lengths, injective below `bound`. -/
structure Header (α : Type*) where
  encode : ℕ → List α
  width : ℕ
  bound : ℕ
  width_pos : 0 < width
  length_encode : ∀ n, (encode n).length = width
  encode_inj : ∀ m n, m < bound → n < bound → encode m = encode n → m = n

namespace Header

variable (header : Header α)

/-- One field behind its length. -/
def frame (field : List α) : List α :=
  header.encode field.length ++ field

/-- A field whose length the header can represent. -/
def Fits (field : List α) : Prop := field.length < header.bound

/-- Fields written one after the other. -/
def frames (fields : List (List α)) : List α :=
  fields.flatMap header.frame

@[simp] theorem frames_nil : header.frames [] = [] := rfl

@[simp] theorem frames_cons (field : List α) (fields : List (List α)) :
    header.frames (field :: fields) =
      header.frame field ++ header.frames fields := rfl

@[simp] theorem frames_append (left right : List (List α)) :
    header.frames (left ++ right) =
      header.frames left ++ header.frames right := by
  simp [frames]

theorem frame_ne_nil (field : List α) : header.frame field ≠ [] := by
  intro hnil
  have hlength := congrArg List.length hnil
  have hpos := header.width_pos
  simp only [frame, List.length_append, header.length_encode,
    List.length_nil] at hlength
  omega

/-- A framed field at the front of a buffer determines itself and the rest. -/
theorem frame_append_inj
    {left right leftRest rightRest : List α}
    (hleft : header.Fits left) (hright : header.Fits right)
    (heq : header.frame left ++ leftRest =
      header.frame right ++ rightRest) :
    left = right ∧ leftRest = rightRest := by
  simp only [frame, List.append_assoc] at heq
  have hheaders : (header.encode left.length).length =
      (header.encode right.length).length := by
    rw [header.length_encode, header.length_encode]
  obtain ⟨hencode, hrest⟩ := List.append_inj heq hheaders
  have hlength : left.length = right.length :=
    header.encode_inj _ _ hleft hright hencode
  exact List.append_inj hrest hlength

/-- The buffer of one list of fields is a prefix of another's only when the
list is a prefix of the other. -/
theorem frames_prefix
    {left right : List (List α)}
    (hleft : ∀ field ∈ left, header.Fits field)
    (hright : ∀ field ∈ right, header.Fits field)
    (hinit : header.frames left <+: header.frames right) :
    left <+: right := by
  induction left generalizing right with
  | nil => exact List.nil_prefix
  | cons field rest ih =>
      obtain ⟨suffix, hsuffix⟩ := hinit
      cases right with
      | nil =>
          have hnil : header.frame field = [] := by
            rw [frames_cons, frames_nil, List.append_assoc] at hsuffix
            exact (List.append_eq_nil_iff.mp hsuffix).1
          exact absurd hnil (header.frame_ne_nil field)
      | cons other others =>
          rw [frames_cons, frames_cons, List.append_assoc] at hsuffix
          obtain ⟨hfield, hrest⟩ := header.frame_append_inj
            (hleft field List.mem_cons_self)
            (hright other List.mem_cons_self) hsuffix
          subst other
          have htail : rest <+: others :=
            ih (fun f hf => hleft f (List.mem_cons_of_mem field hf))
              (fun f hf => hright f (List.mem_cons_of_mem field hf))
              ⟨suffix, hrest⟩
          exact (List.prefix_cons_inj field).mpr htail

theorem frames_injective
    {left right : List (List α)}
    (hleft : ∀ field ∈ left, header.Fits field)
    (hright : ∀ field ∈ right, header.Fits field)
    (heq : header.frames left = header.frames right) :
    left = right := by
  have hforward : left <+: right :=
    header.frames_prefix hleft hright (heq ▸ List.prefix_rfl)
  have hbackward : right <+: left :=
    header.frames_prefix hright hleft (heq ▸ List.prefix_rfl)
  exact hforward.eq_of_length_le hbackward.length_le

theorem frames_inj
    {left right : List (List α)}
    (hleft : ∀ field ∈ left, header.Fits field)
    (hright : ∀ field ∈ right, header.Fits field) :
    header.frames left = header.frames right ↔ left = right := by
  constructor
  · exact header.frames_injective hleft hright
  · exact congrArg header.frames

theorem frames_prefix_iff
    {left right : List (List α)}
    (hleft : ∀ field ∈ left, header.Fits field)
    (hright : ∀ field ∈ right, header.Fits field) :
    header.frames left <+: header.frames right ↔ left <+: right := by
  constructor
  · exact header.frames_prefix hleft hright
  · rintro ⟨rest, rfl⟩
    rw [frames_append]
    exact List.prefix_append _ _

end Header

end LengthPrefix
