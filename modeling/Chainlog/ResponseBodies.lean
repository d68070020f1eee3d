import Chainlog.Api
import Chainlog.Foundation.JsonMembers
import Chainlog.HeadCheckpoints
import Chainlog.Reloading

/-!
# Bodies of responses

The JSON that the handlers answer with and the types that the client reads it
as.  A struct prints its fields in declaration order; what `json!` builds is an
ordered map, the structs in it included.  Everything but stored data is read
back as it was, as long as the counts fit a `usize`.
-/

namespace Chainlog

/-! ## Reading -/

def readBool : Document → Except String Bool
  | .bool b => .ok b
  | _ => .error "invalid type: expected a boolean"

def usizeDocument (n : ℕ) : Document := .number (.posInt (UInt64.ofNat n))

def readUsize (doc : Document) : Except String ℕ :=
  (readU64 doc).map UInt64.toNat

def readItems {α : Type} (read : Document → Except String α) :
    List Document → Except String (List α)
  | [] => .ok []
  | doc :: rest => do
      let item ← read doc
      let items ← readItems read rest
      return item :: items

/-- `Deserialize for Vec<T>`. -/
def readVec {α : Type} (read : Document → Except String α) :
    Document → Except String (List α)
  | .array items => readItems read items
  | _ => .error "invalid type: expected a sequence"

/-- `Deserialize for (u64, String)`. -/
def readHead : Document → Except String (UInt64 × String)
  | .array [seq, hash] => do
      let seq ← readU64 seq
      let hash ← readString hash
      return (seq, hash)
  | _ => .error "invalid type: expected a tuple of size 2"

theorem readUsize_usizeDocument {n : ℕ} (hn : n < 2 ^ 64) :
    readUsize (usizeDocument n) = .ok n := by
  rw [readUsize, usizeDocument, readU64, Except.map,
    UInt64.toNat_ofNat_of_lt' hn]

theorem readItems_map {α β : Type} {read : Document → Except String β}
    {write : α → Document} {kept : α → β} {items : List α}
    (hread : ∀ item ∈ items, read (write item) = .ok (kept item)) :
    readItems read (items.map write) = .ok (items.map kept) := by
  induction items with
  | nil => rfl
  | cons item rest ih =>
      have hrest := ih fun other hmem =>
        hread other (List.mem_cons_of_mem _ hmem)
      rw [List.map_cons, readItems, hread item List.mem_cons_self, hrest]
      rfl

/-! ## Structs in ordered maps -/

theorem structField_perm {members others : List (String × Document)}
    (h : members.Perm others) (name : String) :
    structField members name = structField others name := by
  have hfilter := h.filter fun member => member.1 = name
  unfold structField
  generalize members.filter (fun member => member.1 = name) = left at hfilter
  generalize others.filter (fun member => member.1 = name) = right at hfilter
  have hlength := hfilter.length_eq
  rcases left with _ | ⟨first, _ | ⟨second, rest⟩⟩
  · rw [List.nil_perm.mp hfilter]
  · rw [List.singleton_perm.mp hfilter]
  · rcases right with _ | ⟨a, _ | ⟨b, back⟩⟩
    · simp at hlength
    · simp at hlength
    · rfl

theorem structField_onValue (change : Document → Document)
    (members : List (String × Document)) (name : String) :
    structField (members.map (Json.onValue change)) name =
      (structField members name).map (Option.map change) := by
  have hfilter : (members.map (Json.onValue change)).filter
      (fun member => member.1 = name) =
        (members.filter fun member => member.1 = name).map
          (Json.onValue change) := by
    rw [List.filter_map]
    rfl
  unfold structField
  rw [hfilter]
  generalize members.filter (fun member => member.1 = name) = found
  rcases found with _ | ⟨first, _ | ⟨second, rest⟩⟩ <;> rfl

theorem structField_sorted {members : List (String × Document)}
    (hkeys : (members.map Prod.fst).Nodup) (name : String) :
    structField (Json.sortMembers members []) name =
      (structField members name).map (Option.map Json.sortKeys) := by
  rw [structField_perm (Json.perm_sorted hkeys), structField_onValue]

theorem required_sorted {α : Type} {members : List (String × Document)}
    (hkeys : (members.map Prod.fst).Nodup) (name : String)
    (read : Document → Except String α) :
    required (Json.sortMembers members []) name read =
      required members name (read ∘ Json.sortKeys) := by
  rw [required, required, structField_sorted hkeys]
  rcases structField members name with reason | _ | doc <;> rfl

theorem defaulted_sorted {α : Type} {members : List (String × Document)}
    (hkeys : (members.map Prod.fst).Nodup) (name : String) (default : α)
    (read : Document → Except String α) :
    defaulted (Json.sortMembers members []) name default read =
      defaulted members name default (read ∘ Json.sortKeys) := by
  rw [defaulted, defaulted, structField_sorted hkeys]
  rcases structField members name with reason | _ | doc <;> rfl

/-- `json!` of an object. -/
def jsonObject (members : List (String × Document)) : Document :=
  (Value.ofDocument (.object members)).toDocument

theorem jsonObject_eq (members : List (String × Document)) :
    jsonObject members = .object (Json.sortMembers members []) := by
  show (Json.object members).sortKeys = _
  rw [Json.sortKeys]

/-! ## Structs of the core crate -/

namespace Receipt

def fields : List String := ["seq", "timestamp", "entry_hash", "prev_hash"]

def toDocument (receipt : Receipt) : Document :=
  .object [("seq", .number (.posInt receipt.seq)),
    ("timestamp", i64Document receipt.timestamp),
    ("entry_hash", .string receipt.entryHash),
    ("prev_hash", .string receipt.prevHash)]

def ofDocument (doc : Document) : Except String Receipt := do
  let members ← structMembers fields doc
  let seq ← required members "seq" readU64
  let timestamp ← required members "timestamp" readI64
  let entryHash ← required members "entry_hash" readString
  let prevHash ← required members "prev_hash" readString
  return { seq, timestamp, entryHash, prevHash }

@[simp] theorem ofDocument_toDocument (receipt : Receipt) :
    ofDocument receipt.toDocument = .ok receipt := by
  simp [ofDocument, toDocument, structMembers, required, structField, readU64,
    readString, readI64_i64Document, bind, Except.bind, pure, Except.pure]

end Receipt

namespace ViolationKind

/-- `rename_all = "snake_case"`. -/
def asStr : ViolationKind → String
  | .badHash => "bad_hash"
  | .brokenLink => "broken_link"
  | .sequenceGap => "sequence_gap"
  | .badGenesis => "bad_genesis"

def toDocument (kind : ViolationKind) : Document := .string kind.asStr

def ofName : String → Except String ViolationKind
  | "bad_hash" => .ok .badHash
  | "broken_link" => .ok .brokenLink
  | "sequence_gap" => .ok .sequenceGap
  | "bad_genesis" => .ok .badGenesis
  | other => .error s!"unknown variant {other}"

def ofDocument : Document → Except String ViolationKind
  | .string name => ofName name
  | .object [(name, .null)] => ofName name
  | _ => .error "invalid type: expected variant identifier"

@[simp] theorem ofDocument_toDocument (kind : ViolationKind) :
    ofDocument kind.toDocument = .ok kind := by
  cases kind <;> rfl

end ViolationKind

namespace Violation

def fields : List String := ["seq", "kind", "detail"]

def toDocument (violation : Violation) : Document :=
  .object [("seq", .number (.posInt violation.seq)),
    ("kind", violation.kind.toDocument),
    ("detail", .string violation.detail)]

def ofDocument (doc : Document) : Except String Violation := do
  let members ← structMembers fields doc
  let seq ← required members "seq" readU64
  let kind ← required members "kind" ViolationKind.ofDocument
  let detail ← required members "detail" readString
  return { seq, kind, detail }

@[simp] theorem ofDocument_toDocument (violation : Violation) :
    ofDocument violation.toDocument = .ok violation := by
  simp [ofDocument, toDocument, structMembers, required, structField, readU64,
    readString, bind, Except.bind, pure, Except.pure]

end Violation

namespace VerifyReport

def fields : List String := ["entries_checked", "violations", "head"]

def toDocument (report : VerifyReport) : Document :=
  .object [("entries_checked", usizeDocument report.entriesChecked),
    ("violations", .array (report.violations.map Violation.toDocument)),
    ("head", match report.head with
      | some (seq, hash) => .array [.number (.posInt seq), .string hash]
      | none => .null)]

def ofDocument (doc : Document) : Except String VerifyReport := do
  let members ← structMembers fields doc
  let entriesChecked ← required members "entries_checked" readUsize
  let violations ← required members "violations" (readVec Violation.ofDocument)
  let head ← defaulted members "head" none (readOption readHead)
  return { entriesChecked, violations, head }

theorem ofDocument_toDocument {report : VerifyReport}
    (hcount : report.entriesChecked < 2 ^ 64) :
    ofDocument report.toDocument = .ok report := by
  obtain ⟨entriesChecked, violations, head⟩ := report
  have hviolations : readItems Violation.ofDocument
      (violations.map Violation.toDocument) = .ok (violations.map id) :=
    readItems_map fun violation _ => violation.ofDocument_toDocument
  cases head with
  | none =>
      simp [ofDocument, toDocument, structMembers, required, defaulted,
        structField, readUsize_usizeDocument hcount, readVec, hviolations,
        readOption, bind, Except.bind, pure, Except.pure]
  | some head =>
      simp [ofDocument, toDocument, structMembers, required, defaulted,
        structField, readUsize_usizeDocument hcount, readVec, hviolations,
        readOption, readHead, readU64, readString, bind, Except.bind, pure,
        Except.pure, Except.map]

end VerifyReport

namespace ProofStep

def fields : List String := ["hash", "right"]

def members (step : ProofStep) : List (String × Document) :=
  [("hash", .string step.hash), ("right", .bool step.right)]

def toDocument (step : ProofStep) : Document := .object step.members

def ofDocument (doc : Document) : Except String ProofStep := do
  let members ← structMembers fields doc
  let hash ← required members "hash" readString
  let right ← required members "right" readBool
  return { hash, right }

@[simp] theorem ofDocument_toDocument (step : ProofStep) :
    ofDocument step.toDocument = .ok step := rfl

/-- In an ordered map. -/
theorem ofDocument_sorted (step : ProofStep) :
    ofDocument step.toDocument.sortKeys = .ok step := by
  have hkeys : (step.members.map Prod.fst).Nodup := by simp [members]
  rw [ofDocument, toDocument, Json.sortKeys, structMembers]
  simp only [bind, Except.bind, required_sorted hkeys]
  rfl

end ProofStep

namespace MerkleProof

def fields : List String := ["leaf_index", "leaf_count", "path"]

def members (proof : MerkleProof) : List (String × Document) :=
  [("leaf_index", usizeDocument proof.leafIndex),
    ("leaf_count", usizeDocument proof.leafCount),
    ("path", .array (proof.path.map ProofStep.toDocument))]

def toDocument (proof : MerkleProof) : Document := .object proof.members

def ofDocument (doc : Document) : Except String MerkleProof := do
  let members ← structMembers fields doc
  let leafIndex ← required members "leaf_index" readUsize
  let leafCount ← required members "leaf_count" readUsize
  let path ← required members "path" (readVec ProofStep.ofDocument)
  return { leafIndex, leafCount, path }

variable {proof : MerkleProof} (hindex : proof.leafIndex < 2 ^ 64)
  (hcount : proof.leafCount < 2 ^ 64)

include hindex hcount

theorem ofDocument_toDocument : ofDocument proof.toDocument = .ok proof := by
  have hpath : readItems ProofStep.ofDocument
      (proof.path.map ProofStep.toDocument) = .ok (proof.path.map id) :=
    readItems_map fun step _ => step.ofDocument_toDocument
  simp [ofDocument, toDocument, members, structMembers, required, structField,
    readUsize_usizeDocument hindex, readUsize_usizeDocument hcount, readVec,
    hpath, bind, Except.bind, pure, Except.pure]

theorem ofDocument_sorted :
    ofDocument proof.toDocument.sortKeys = .ok proof := by
  have hkeys : (proof.members.map Prod.fst).Nodup := by simp [members]
  have hpath : readItems ProofStep.ofDocument
      (proof.path.map (Json.sortKeys ∘ ProofStep.toDocument)) =
        .ok (proof.path.map id) :=
    readItems_map fun step _ => step.ofDocument_sorted
  have hnumber : ∀ n, (usizeDocument n).sortKeys = usizeDocument n := fun n => by
    rw [usizeDocument, Json.sortKeys]
  rw [ofDocument, toDocument, Json.sortKeys, structMembers]
  simp only [bind, Except.bind, required_sorted hkeys]
  simp [members, required, structField, hnumber, readUsize_usizeDocument hindex,
    readUsize_usizeDocument hcount, Json.sortKeys, Json.sortItems_eq_map,
    readVec, hpath, bind, Except.bind, pure, Except.pure]

end MerkleProof

namespace MerkleAnchor

def fields : List String :=
  ["from_seq", "to_seq", "count", "root", "timestamp", "public_key",
    "signature"]

def toDocument (anchor : MerkleAnchor) : Document :=
  .object [("from_seq", .number (.posInt anchor.fromSeq)),
    ("to_seq", .number (.posInt anchor.toSeq)),
    ("count", usizeDocument anchor.count),
    ("root", .string anchor.root),
    ("timestamp", i64Document anchor.timestamp),
    ("public_key", .string anchor.publicKey),
    ("signature", .string anchor.signature)]

def ofDocument (doc : Document) : Except String MerkleAnchor := do
  let members ← structMembers fields doc
  let fromSeq ← required members "from_seq" readU64
  let toSeq ← required members "to_seq" readU64
  let count ← required members "count" readUsize
  let root ← required members "root" readString
  let timestamp ← required members "timestamp" readI64
  let publicKey ← required members "public_key" readString
  let signature ← required members "signature" readString
  return { fromSeq, toSeq, count, root, timestamp, publicKey, signature }

theorem ofDocument_toDocument {anchor : MerkleAnchor}
    (hcount : anchor.count < 2 ^ 64) :
    ofDocument anchor.toDocument = .ok anchor := by
  simp [ofDocument, toDocument, structMembers, required, structField, readU64,
    readUsize_usizeDocument hcount, readString, readI64_i64Document, bind,
    Except.bind, pure, Except.pure]

end MerkleAnchor

end Chainlog
