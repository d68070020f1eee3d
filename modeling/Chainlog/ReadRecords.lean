import Chainlog.CryptoShred
import Chainlog.EntryLines
import Chainlog.Server

/-!
# Reading records

`GET /v1/records`: the entries of a range, with their PII opened on request.
Opening a bundle panics on a nonce of the wrong length.
-/

namespace Chainlog

namespace Value

/-- `value[key]`. -/
def member (value : Value) (key : String) : Value :=
  ⟨value.val.member key, Json.sorted_member value.property key⟩

/-- `value[key] = item`. -/
def setMember (value : Value) (key : String) (item : Value) : Value :=
  ⟨value.val.setMember key item.val,
    Json.sorted_setMember value.property item.property key⟩

theorem member_setMember {value : Value} {members : List (String × Document)}
    (hvalue : value.val = .object members) (key other : String) (item : Value) :
    (value.setMember key item).member other =
      if key = other then item else value.member other := by
  obtain ⟨doc, hdoc⟩ := value
  obtain rfl : doc = .object members := hvalue
  have hmember := Json.member_setMember_object key other item.val members
  apply Subtype.ext
  by_cases hother : key = other
  · rw [if_pos hother] at hmember ⊢
    exact hmember
  · rw [if_neg hother] at hmember ⊢
    exact hmember

def string (text : String) : Value := ⟨.string text, by simp [Json.Sorted]⟩

end Value

/-- `serde_json::to_value` of an entry. -/
def AuditEntry.toValue (e : AuditEntry) : Value := Value.ofDocument e.toDocument

/-- `v["payload"][key] = note`, at an entry. -/
def AuditEntry.withNote (e : AuditEntry) (key : String) (note : Value) : Value :=
  e.toValue.setMember "payload"
    ((e.toValue.member "payload").setMember key note)

theorem toValue_payload (e : AuditEntry) :
    e.toValue.member "payload" = Value.ofDocument e.payload.toDocument := by
  apply Subtype.ext
  obtain ⟨seq, timestamp, eventType, outcome, actor, _ | id, payload, prevHash,
    entryHash⟩ := e <;>
  simp [AuditEntry.toValue, Value.member, Value.ofDocument,
    AuditEntry.toDocument, Json.sortKeys, Json.sortMembers, Json.member,
    Json.find_insertMember]

theorem member_withNote (e : AuditEntry) (key : String) (note : Value) :
    ((e.withNote key note).member "payload").member key = note ∧
      (∀ other, other ≠ key →
        ((e.withNote key note).member "payload").member other =
          (e.toValue.member "payload").member other) ∧
      ∀ other, other ≠ "payload" →
        (e.withNote key note).member other = e.toValue.member other := by
  have hentry : ∃ members, e.toValue.val = .object members := ⟨_, rfl⟩
  have hpayload : ∃ members,
      (e.toValue.member "payload").val = .object members := by
    rw [toValue_payload]
    exact ⟨_, rfl⟩
  obtain ⟨outer, houter⟩ := hentry
  obtain ⟨inner, hinner⟩ := hpayload
  have hset := Value.member_setMember houter "payload"
  have hnote := Value.member_setMember hinner key
  unfold AuditEntry.withNote
  refine ⟨?_, fun other hother => ?_, fun other hother => ?_⟩
  · rw [hset, if_pos rfl, hnote, if_pos rfl]
  · rw [hset, if_pos rfl, hnote, if_neg (Ne.symm hother)]
  · rw [hset, if_neg (Ne.symm hother)]

structure ReadQuery where
  fromSeq : Option UInt64
  toSeq : Option UInt64
  decrypt : Bool

/-- The entries of the range, both ends included. -/
def ReadQuery.select (query : ReadQuery) (entries : List AuditEntry) :
    List AuditEntry :=
  entries.filter fun e =>
    query.fromSeq.getD 0 ≤ e.seq ∧ e.seq ≤ query.toSeq.getD 0xFFFFFFFFFFFFFFFF

structure RecordsAnswer where
  count : ℕ
  entries : List Value

section Handler

variable (cipher : CipherCrates) {σ α : Type} [KeyProvider σ α] (provider : σ)

/-- One turn of the handler's loop. -/
def showEntry (decrypt : Bool) (e : AuditEntry) : Except Panic Value :=
  match decrypt, e.payload.pii with
  | true, some pii =>
      match cryptoOpen cipher provider pii with
      | .error panic => .error panic
      | .ok (.ok plain) => .ok (e.withNote "pii_plaintext" plain)
      | .ok (.error err) => .ok (e.withNote "pii_error" (Value.string err.display))
  | _, _ => .ok e.toValue

def showEntries (decrypt : Bool) : List AuditEntry → Except Panic (List Value)
  | [] => .ok []
  | e :: rest =>
      match showEntry cipher provider decrypt e with
      | .error panic => .error panic
      | .ok v => (showEntries decrypt rest).map (v :: ·)

/-- `GET /v1/records`. -/
def AppState.readRecords {τ : Type} (crates : Crates) (st : AppState τ)
    (headers : HeaderMap) (path : DataPath) (query : ReadQuery) :
    Except Panic (Except ApiError RecordsAnswer) :=
  match require headers st.readToken with
  | .error err => .ok (.error err)
  | .ok () =>
      match readLog crates path st.segmented with
      | .error err => .ok (.error err)
      | .ok entries =>
          (showEntries cipher provider query.decrypt (query.select entries)).map
            fun out => .ok { count := out.length, entries := out }

/-! ## When opening panics -/

variable {cipher provider}

variable (cipher provider)

variable {cipher provider}

end Handler

/-- An entry that carries the bundle. -/
def piiEntry (pii : EncryptedPii) : AuditEntry where
  seq := 1
  timestamp := 0
  eventType := "login"
  outcome := .success
  actor := "alice"
  instructionId := none
  payload := { data := Value.null, pii := some pii }
  prevHash := genesisPrevHash
  entryHash := genesisPrevHash

theorem readAll_piiEntry (pii : EncryptedPii) :
    readAll referenceCrates
      (.file (.readable (entryLine referenceCrates (piiEntry pii)))) =
        .ok [piiEntry pii] := by
  have hparse : ParsesBack referenceCrates (piiEntry pii) := by
    rw [parsesBack_iff_of_invertsUpTo referenceCrates
      (referenceSerde_invertsUpTo 127), AuditEntry.depth_toDocument]
    simp [piiEntry, Value.depth, Value.toDocument, Value.null]
  rw [readAll, readFile_entryLine, hparse]

end Chainlog
