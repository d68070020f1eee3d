import Chainlog.Util

/-!
# Errors

`chainlog_core::Error` with its display texts.  The errors of the standard
library and of third-party crates enter by their texts.
-/

namespace Chainlog

inductive Error where
  | io (reason : String)
  | serde (reason : String)
  | crypto (reason : String)
  | key (reason : String)
  | base64 (reason : String)
  | integrity (seq : UInt64) (reason : String)
  | writerGone (reason : String)
  | config (reason : String)
  deriving DecidableEq, Repr

namespace Error

/-- The text that `thiserror` derives. -/
def display : Error → String
  | io reason => s!"i/o error: {reason}"
  | serde reason => s!"serialization error: {reason}"
  | crypto reason => s!"crypto error: {reason}"
  | key reason => s!"key provider error: {reason}"
  | base64 reason => s!"base64 decode error: {reason}"
  | integrity seq reason =>
      s!"chain integrity violation at seq {seq}: {reason}"
  | writerGone reason => s!"audit log writer is not available: {reason}"
  | config reason => s!"invalid configuration: {reason}"

end Error

abbrev Result (α : Type) := Except Error α

instance decEqExcept {ε α : Type} [DecidableEq ε] [DecidableEq α] :
    DecidableEq (Except ε α)
  | .ok a, .ok b => decidable_of_iff (a = b) (by simp)
  | .error e, .error f => decidable_of_iff (e = f) (by simp)
  | .ok _, .error _ => isFalse (by simp)
  | .error _, .ok _ => isFalse (by simp)

section Except

variable {ε ε' α β : Type}

/-- A computation returns where both of its parts do. -/
theorem bind_eq_ok {x : Except ε α} {f : α → Except ε β} {b : β} :
    (x >>= f) = .ok b ↔ ∃ a, x = .ok a ∧ f a = .ok b := by
  cases x with
  | error e => simp [bind, Except.bind]
  | ok a => simp [bind, Except.bind]

theorem mapError_eq_ok {x : Except ε α} {f : ε → ε'} {a : α} :
    x.mapError f = .ok a ↔ x = .ok a := by
  cases x <;> simp [Except.mapError]

end Except

end Chainlog
