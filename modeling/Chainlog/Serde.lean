import Chainlog.Error
import Chainlog.Foundation.JsonText

/-!
# Serialization interface

`serde_json` is a third-party crate.  Its printer and parser are parameters
over JSON documents; what the derived `Serialize` and `Deserialize`
implementations of this repository do with documents is modelled.
-/

namespace Chainlog

/-- `serde_json::Number`: a finite float is held by its bits. -/
inductive Number where
  | posInt (n : UInt64)
  | negInt (n : { i : Int64 // i < 0 })
  | float (bits : { b : UInt64 // b &&& 0x7FF0000000000000 ≠ 0x7FF0000000000000 })
  deriving DecidableEq

abbrev Document := Json Number

/-- `serde_json::Value`: its objects are ordered maps. -/
def Value := { doc : Document // doc.Sorted }

namespace Value

def null : Value := ⟨.null, by simp [Json.Sorted]⟩

instance : Inhabited Value := ⟨null⟩

def toDocument (value : Value) : Document := value.val

/-- `Deserialize for Value`: later duplicate keys replace earlier ones. -/
def ofDocument (doc : Document) : Value := ⟨doc.sortKeys, doc.sortKeys_sorted⟩

@[simp] theorem ofDocument_toDocument (value : Value) :
    ofDocument value.toDocument = value :=
  Subtype.ext (Json.sortKeys_eq_self value.val value.property)

theorem toDocument_injective : Function.Injective toDocument :=
  Subtype.val_injective

def depth (value : Value) : ℕ := value.toDocument.depth

end Value

/-- The printer and the parser of `serde_json`.  The printer writes no control
characters, and an object starts with its brace. -/
structure SerdeJson where
  /-- The text written by `to_string` and, as UTF-8, by `to_vec`. -/
  toText : Document → String
  /-- `from_str`, up to the document that the target type is built from. -/
  fromStr : String → Except String Document
  toText_printable : ∀ doc, ∀ c ∈ (toText doc).toList, 32 ≤ c.toNat
  toText_object : ∀ members, ∃ rest,
    (toText (.object members)).toList = '{' :: rest

namespace SerdeJson

variable (serde : SerdeJson)

/-- `serde_json::to_vec`. -/
def toVec (doc : Document) : Bytes := asBytes (serde.toText doc)

/-- Distinct documents are printed as distinct texts. -/
def PrintsInjectively : Prop := Function.Injective serde.toText

/-- `from_str` rejects exactly the documents nested deeper than `limit` and
otherwise inverts printing. -/
def InvertsUpTo (limit : ℕ) : Prop :=
  ∀ doc : Document,
    (doc.depth ≤ limit → serde.fromStr (serde.toText doc) = .ok doc) ∧
      (limit < doc.depth → ∃ reason,
        serde.fromStr (serde.toText doc) = .error reason)

/-- A text that stops inside an object is rejected. -/
def RejectsTruncated : Prop :=
  ∀ members text rest, serde.toText (.object members) = text ++ rest →
    rest ≠ "" → ∃ reason, serde.fromStr text = .error reason

variable {serde}

theorem toVec_injective (h : serde.PrintsInjectively) :
    Function.Injective serde.toVec :=
  fun _ _ heq => h (asBytes_injective heq)

end SerdeJson

/-! ## Derived deserialization -/

/-- The member of a struct under a field name.  A repeated field is an
error of the derived visitor. -/
def structField (members : List (String × Document)) (name : String) :
    Except String (Option Document) :=
  match members.filter fun member => member.1 = name with
  | [] => .ok none
  | [member] => .ok (some member.2)
  | _ => .error s!"duplicate field {name}"

/-- The members a derived struct visitor sees.  Besides an object it accepts
an array that lists the fields in order. -/
def structMembers (fields : List String) :
    Document → Except String (List (String × Document))
  | .object members => .ok members
  | .array items =>
      if items.length ≤ fields.length then .ok (fields.zip items)
      else .error "trailing characters"
  | _ => .error "invalid type"

def readString : Document → Except String String
  | .string s => .ok s
  | _ => .error "invalid type: expected a string"

def readU64 : Document → Except String UInt64
  | .number (.posInt n) => .ok n
  | _ => .error "invalid type: expected u64"

def readI64 : Document → Except String Int64
  | .number (.posInt n) =>
      if n.toNat < 2 ^ 63 then .ok n.toInt64
      else .error "invalid value: expected i64"
  | .number (.negInt n) => .ok n.val
  | _ => .error "invalid type: expected i64"

/-- `Option<T>`: `null` reads as `None`. -/
def readOption {α : Type} (read : Document → Except String α) :
    Document → Except String (Option α)
  | .null => .ok none
  | doc => (read doc).map some

/-- A field without a default. -/
def required {α : Type} (members : List (String × Document)) (name : String)
    (read : Document → Except String α) : Except String α := do
  match ← structField members name with
  | some doc => read doc
  | none => .error s!"missing field {name}"

/-- A field marked `#[serde(default)]`. -/
def defaulted {α : Type} (members : List (String × Document)) (name : String)
    (default : α) (read : Document → Except String α) : Except String α := do
  match ← structField members name with
  | some doc => read doc
  | none => .ok default

/-- `Serialize for i64`. -/
def i64Document (t : Int64) : Document :=
  if h : t < 0 then .number (.negInt ⟨t, h⟩) else .number (.posInt t.toUInt64)

theorem readI64_i64Document (t : Int64) : readI64 (i64Document t) = .ok t := by
  unfold i64Document
  split
  · rfl
  · next hneg =>
      have hle : 0 ≤ t.toBitVec.toInt := by
        simpa [Int64.lt_iff_toInt_lt] using hneg
      have hlt : t.toUInt64.toNat < 2 ^ 63 := by
        have hcond := BitVec.toInt_eq_toNat_cond t.toBitVec
        have hnat : t.toUInt64.toNat = t.toBitVec.toNat := rfl
        have hbound := t.toBitVec.isLt
        split at hcond <;> omega
      rw [readI64, if_pos hlt, Int64.toInt64_toUInt64]

end Chainlog
