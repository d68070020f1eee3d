import Chainlog.Entry

/-!
# Canonical hashing

The canonical bytes of an entry are its fields, length-prefixed and in a fixed
order, ending with `prev_hash` and without `entry_hash`.  BLAKE3 is a
parameter.
-/

namespace Chainlog

def Digest := { bytes : Bytes // bytes.length = 32 }

/-- Lower-case hexadecimal, two digits a byte. -/
def toHex (digest : Digest) : String :=
  String.ofList (digest.val.flatMap fun b =>
    [Json.hexDigit (b.toNat / 16), Json.hexDigit (b.toNat % 16)])

/-- Why a text is not the hex form of a digest. -/
inductive HexError where
  | invalidByte (byte : UInt8)
  | invalidLen (length : ℕ)
  deriving DecidableEq, Repr

/-- The value of a hex digit of either case. -/
def hexVal (byte : UInt8) : Except HexError UInt8 :=
  if 65 ≤ byte ∧ byte ≤ 70 then .ok (byte - 65 + 10)
  else if 97 ≤ byte ∧ byte ≤ 102 then .ok (byte - 97 + 10)
  else if 48 ≤ byte ∧ byte ≤ 57 then .ok (byte - 48)
  else .error (.invalidByte byte)

def hexPairs : (n : ℕ) → Bytes →
    Except HexError { bytes : Bytes // bytes.length = n }
  | 0, _ => .ok ⟨[], rfl⟩
  | n + 1, high :: low :: rest => do
      let high ← hexVal high
      let low ← hexVal low
      let tail ← hexPairs n rest
      return ⟨(16 * high + low) :: tail.val, by simp [tail.property]⟩
  | _ + 1, short => .error (.invalidLen short.length)

/-- `Hash::from_hex`. -/
def fromHex (text : String) : Except HexError Digest :=
  let hexBytes := asBytes text
  if hexBytes.length ≠ 64 then .error (.invalidLen hexBytes.length)
  else hexPairs 32 hexBytes

/-- The third-party crates that the core calls. -/
structure Crates where
  serde : SerdeJson
  blake3 : Bytes → Digest

variable (crates : Crates)

/-- The byte string that the entry hash is computed over. -/
def canonicalBytes (e : AuditEntry) : Bytes :=
  let buf := []
  let buf := pushField buf (u64ToBeBytes e.seq)
  let buf := pushField buf (i64ToBeBytes e.timestamp)
  let buf := pushField buf (asBytes e.eventType)
  let buf := pushField buf (asBytes e.outcome.asStr)
  let buf := pushField buf (asBytes e.actor)
  let buf := pushField buf (asBytes (e.instructionId.getD ""))
  let payload := crates.serde.toVec e.payload.toDocument
  let buf := pushField buf payload
  pushField buf (asBytes e.prevHash)

def entryHash (e : AuditEntry) : String :=
  toHex (crates.blake3 (canonicalBytes crates e))

/-- The hash an entry should have, given its contents. -/
def AuditEntry.recomputeHash (e : AuditEntry) : String := Chainlog.entryHash crates e

theorem toHex_injective : Function.Injective toHex := by
  have hdigit : ∀ m < 16, ∀ n < 16,
      Json.hexDigit m = Json.hexDigit n → m = n := by decide
  have hlist : ∀ s t : Bytes,
      (s.flatMap fun b =>
          [Json.hexDigit (b.toNat / 16), Json.hexDigit (b.toNat % 16)]) =
        (t.flatMap fun b =>
          [Json.hexDigit (b.toNat / 16), Json.hexDigit (b.toNat % 16)]) →
      s = t := by
    intro s
    induction s with
    | nil =>
        intro t h
        cases t with
        | nil => rfl
        | cons b t => simp at h
    | cons a s ih =>
        intro t h
        cases t with
        | nil => simp at h
        | cons b t =>
            simp only [List.flatMap_cons, List.cons_append, List.nil_append,
              List.cons.injEq] at h
            obtain ⟨hhigh, hlow, hrest⟩ := h
            have ha := a.toNat_lt
            have hb := b.toNat_lt
            have hhigh' := hdigit _ (by omega) _ (by omega) hhigh
            have hlow' := hdigit _ (by omega) _ (by omega) hlow
            have hab : a = b := UInt8.toNat_inj.mp (by omega)
            rw [hab, ih t hrest]
  intro d d' h
  exact Subtype.ext (hlist _ _ (String.ofList_injective h))

/-! ## Reading hex -/

theorem asBytes_hexDigits (bytes : Bytes) :
    asBytes (String.ofList (bytes.flatMap fun b =>
        [Json.hexDigit (b.toNat / 16), Json.hexDigit (b.toNat % 16)])) =
      bytes.flatMap fun b =>
        [UInt8.ofNat (Json.hexDigit (b.toNat / 16)).toNat,
          UInt8.ofNat (Json.hexDigit (b.toNat % 16)).toNat] := by
  have hdigit : ∀ n < 16, String.utf8EncodeChar (Json.hexDigit n) =
      [UInt8.ofNat (Json.hexDigit n).toNat] := by decide
  rw [asBytes_eq_flatMap, String.toList_ofList]
  induction bytes with
  | nil => rfl
  | cons b bytes ih =>
      have hb := b.toNat_lt
      simp only [List.flatMap_cons, List.flatMap_append, ih]
      rw [List.flatMap_nil, hdigit _ (by omega), hdigit _ (by omega)]
      rfl

theorem hexPairs_hexDigits (bytes : Bytes) {n : ℕ} (hn : bytes.length = n) :
    hexPairs n (bytes.flatMap fun b =>
      [UInt8.ofNat (Json.hexDigit (b.toNat / 16)).toNat,
        UInt8.ofNat (Json.hexDigit (b.toNat % 16)).toNat]) =
      .ok ⟨bytes, hn⟩ := by
  subst hn
  have hdigit : ∀ n < 16, hexVal (UInt8.ofNat (Json.hexDigit n).toNat) =
      .ok (UInt8.ofNat n) := by decide
  induction bytes with
  | nil => rfl
  | cons b bytes ih =>
      have hb := b.toNat_lt
      have hvalue : 16 * UInt8.ofNat (b.toNat / 16) +
          UInt8.ofNat (b.toNat % 16) = b := by
        apply UInt8.toNat_inj.mp
        simp
        omega
      simp only [List.flatMap_cons, List.cons_append, List.nil_append,
        List.length_cons, hexPairs, hdigit (b.toNat / 16) (by omega),
        hdigit (b.toNat % 16) (by omega), ih]
      simp only [bind, Except.bind, pure, Except.pure, hvalue]

theorem length_asBytes_toHex (digest : Digest) :
    (asBytes (toHex digest)).length = 64 := by
  rw [toHex, asBytes_hexDigits]
  simp [List.length_flatMap, digest.property]

@[simp] theorem fromHex_toHex (digest : Digest) :
    fromHex (toHex digest) = .ok digest := by
  have hhex := length_asBytes_toHex digest
  unfold fromHex toHex at *
  rw [asBytes_hexDigits] at hhex ⊢
  simp only [hhex]
  exact hexPairs_hexDigits digest.val digest.property

/-- The hash covers every field but `entry_hash`. -/
@[simp] theorem entryHash_with_entryHash (e : AuditEntry) (h : String) :
    entryHash crates { e with entryHash := h } = entryHash crates e := rfl

end Chainlog
