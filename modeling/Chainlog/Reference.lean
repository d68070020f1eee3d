import Chainlog.Checkpoint
import Chainlog.Crypto
import Chainlog.Foundation.Base64
import Chainlog.Foundation.Blake3
import Mathlib.Logic.Function.Basic

/-!
# Reference crates

A printer and a parser that have every property assumed of `serde_json`, the
real BLAKE3 and base64, a keyed hash in the place of Ed25519, and a cipher that
writes its key into the ciphertext.  They show that the assumptions can hold
together.  The parser accepts compact texts only,
and a finite float is written as the number of its bits.
-/

namespace Chainlog

namespace Number

def print : Number → List Char
  | posInt n => Nat.toDigits 10 n.toNat
  | negInt n => '-' :: Nat.toDigits 10 n.val.toInt.natAbs
  | float bits => Nat.toDigits 10 bits.val.toNat ++ ['.', '0']

theorem isDigit_of_mem_digits {n : ℕ} {c : Char}
    (hc : c ∈ Nat.toDigits 10 n) : c.isDigit :=
  Nat.isDigit_of_mem_toDigits (by decide) (by decide) hc

theorem digits_injective : Function.Injective (Nat.toDigits 10) := by
  intro m n h
  have hread := congrArg (Nat.ofDigitChars 10 · 0) h
  simpa only [Nat.ofDigitChars_ten_toDigits] using hread

theorem print_injective : Function.Injective print := by
  have hsign : ∀ n rest, Nat.toDigits 10 n ≠ '-' :: rest := by
    intro n rest h
    have hdigit := isDigit_of_mem_digits (n := n) (c := '-') (by simp [h])
    exact absurd hdigit (by decide)
  have hpoint : ∀ n m, Nat.toDigits 10 n ≠ Nat.toDigits 10 m ++ ['.', '0'] := by
    intro n m h
    have hdigit := isDigit_of_mem_digits (n := n) (c := '.') (by simp [h])
    exact absurd hdigit (by decide)
  have hsignPoint : ∀ n rest, Nat.toDigits 10 n ++ ['.', '0'] ≠ '-' :: rest := by
    intro n rest h
    cases hdigits : Nat.toDigits 10 n with
    | nil => exact absurd hdigits Nat.toDigits_ne_nil
    | cons c cs =>
        rw [hdigits, List.cons_append] at h
        exact hsign n cs (by rw [hdigits, (List.cons.inj h).1])
  intro a b h
  cases a with
  | posInt m =>
      cases b with
      | posInt n =>
          rw [UInt64.toNat_inj.mp (digits_injective h)]
      | negInt n => exact absurd h (hsign _ _)
      | float bits => exact absurd h (hpoint _ _)
  | negInt m =>
      cases b with
      | posInt n => exact absurd h.symm (hsign _ _)
      | negInt n =>
          have habs : m.val.toInt.natAbs = n.val.toInt.natAbs :=
            digits_injective (List.cons.inj h).2
          have hm := Int64.lt_iff_toInt_lt.mp m.property
          have hn := Int64.lt_iff_toInt_lt.mp n.property
          simp only [Int64.toInt_zero] at hm hn
          have heq : m.val = n.val := Int64.toInt_inj.mp (by omega)
          rw [Subtype.ext heq]
      | float bits => exact absurd h.symm (hsignPoint _ _)
  | float bits =>
      cases b with
      | posInt n => exact absurd h.symm (hpoint _ _)
      | negInt n => exact absurd h (hsignPoint _ _)
      | float bits' =>
          have hdigits := digits_injective (List.append_cancel_right h)
          rw [Subtype.ext (UInt64.toNat_inj.mp hdigits)]

theorem print_chars (n : Number) : ∀ c ∈ n.print, Json.numberChar c := by
  have hdigit : ∀ m, ∀ c ∈ Nat.toDigits 10 m, Json.numberChar c := by
    intro m c hc
    simp [Json.numberChar, isDigit_of_mem_digits hc]
  intro c hc
  cases n with
  | posInt n => exact hdigit _ c hc
  | negInt n =>
      rcases List.mem_cons.mp hc with rfl | h
      · decide
      · exact hdigit _ c h
  | float bits =>
      rcases List.mem_append.mp hc with h | h
      · exact hdigit _ c h
      · simp only [List.mem_cons, List.not_mem_nil, or_false] at h
        rcases h with rfl | rfl <;> decide

def printer : Json.NumberPrinter Number where
  print := print
  print_ne_nil n := by
    cases n <;> simp [print, Nat.toDigits_ne_nil]
  print_chars := print_chars
  print_inj := print_injective

end Number

def referenceText (doc : Document) : String :=
  String.ofList (doc.render Number.printer)

theorem referenceText_injective : Function.Injective referenceText := by
  intro a b h
  exact Json.render_injective Number.printer (String.ofList_injective h)

/-- A parser that inverts the printer up to a nesting limit. -/
noncomputable def referenceParse (limit : ℕ) (text : String) :
    Except String Document :=
  match Function.partialInv referenceText text with
  | some doc =>
      if doc.depth ≤ limit then .ok doc else .error "recursion limit exceeded"
  | none => .error "expected value"

noncomputable def referenceSerde (limit : ℕ) : SerdeJson where
  toText := referenceText
  fromStr := referenceParse limit
  toText_printable doc c hc := by
    rw [referenceText, String.toList_ofList] at hc
    exact Json.render_printable Number.printer doc c hc
  toText_object members := by
    rw [referenceText, String.toList_ofList]
    rcases members with _ | ⟨⟨key, value⟩, rest⟩ <;>
      exact ⟨_, by rw [Json.render]⟩

/-- `serde_json` has a recursion limit of 128, which 127 nested values
reach. -/
noncomputable def referenceCrates : Crates where
  serde := referenceSerde 127
  blake3 := Blake3.hash

theorem referenceSerde_printsInjectively (limit : ℕ) :
    (referenceSerde limit).PrintsInjectively := referenceText_injective

theorem referenceParse_text (limit : ℕ) (doc : Document) :
    referenceParse limit (referenceText doc) =
      if doc.depth ≤ limit then .ok doc
      else .error "recursion limit exceeded" := by
  rw [referenceParse, Function.partialInv_left referenceText_injective]

theorem referenceSerde_invertsUpTo (limit : ℕ) :
    (referenceSerde limit).InvertsUpTo limit := by
  intro doc
  refine ⟨fun hdepth => ?_, fun hdepth => ⟨"recursion limit exceeded", ?_⟩⟩
  · exact (referenceParse_text limit doc).trans (if_pos hdepth)
  · exact (referenceParse_text limit doc).trans (if_neg (by omega))

theorem referenceParse_of_ne {limit : ℕ} {text : String}
    (h : ∀ doc, referenceText doc ≠ text) :
    referenceParse limit text = .error "expected value" := by
  have hnone : Function.partialInv referenceText text = none := by
    cases hinv : Function.partialInv referenceText text with
    | none => rfl
    | some doc =>
        exact absurd ((referenceText_injective.isPartialInv doc text).mp hinv)
          (h doc)
  rw [referenceParse, hnone]

theorem referenceSerde_rejectsTruncated (limit : ℕ) :
    (referenceSerde limit).RejectsTruncated := by
  intro members text rest hcut hrest
  refine ⟨_, referenceParse_of_ne fun doc hdoc => hrest ?_⟩
  subst text
  have hlist : doc.render Number.printer ++ rest.toList =
      (Json.object members).render Number.printer := by
    have htext := congrArg String.toList hcut
    simpa [referenceSerde, referenceText] using htext.symm
  have hleader := Json.leader_eq_of_render_append Number.printer
    (t := []) (by simpa using hlist)
  cases doc with
  | object inner =>
      have hnil := (Json.render_object_append_eq Number.printer hlist).2
      exact String.toList_inj.mp (by simpa using hnil)
  | bool b => cases b <;> simp [Json.leader] at hleader
  | _ => simp [Json.leader] at hleader

/-- A sealed entry over the reference crates. -/
noncomputable def referenceEntry (seq : UInt64) (instructionId : Option String)
    (prevHash : String) : AuditEntry :=
  let entry : AuditEntry := {
    seq, timestamp := 0, eventType := "login", outcome := .success
    actor := "alice", instructionId
    payload := { data := Value.null, pii := none }
    prevHash, entryHash := "" }
  { entry with entryHash := entryHash referenceCrates entry }

/-! ## Signatures -/

/-- A signature that the matching key makes valid. -/
def referenceSignature (key : { key : Bytes // key.length = 32 }) (msg : Bytes) :
    { sig : Bytes // sig.length = 64 } :=
  ⟨(Blake3.hash (key.val ++ msg)).val ++ (Blake3.hash (key.val ++ msg)).val, by
    rw [List.length_append, (Blake3.hash (key.val ++ msg)).property]⟩

def referenceSigning : SigningCrates where
  base64Decode text :=
    match Base64.decode text.toList with
    | some bytes => .ok bytes
    | none => .error "Invalid input."
  VerifyingKey := { key : Bytes // key.length = 32 }
  verifyingKey := .ok
  verify vk msg sig :=
    if sig.val = (referenceSignature vk msg).val then .ok ()
    else .error "signature error"
  base64Encode bytes := String.ofList (Base64.encode bytes)
  SigningKey := { key : Bytes // key.length = 32 }
  publicKey := id
  sign := referenceSignature

theorem referenceSigning_correct : referenceSigning.Correct where
  decode_encode bytes := by
    simp [referenceSigning, Base64.decode_encode]
  verifies key msg := ⟨key, rfl, if_pos rfl⟩

/-- A ciphertext that names its key and its nonce. -/
noncomputable def referenceCipher : CipherCrates where
  serde := referenceSerde 127
  base64Encode := referenceSigning.base64Encode
  base64Decode := referenceSigning.base64Decode
  encrypt key nonce message := .ok (key.val ++ nonce.val ++ message)
  decrypt key nonce ciphertext :=
    if key.val ++ nonce.val <+: ciphertext then
      .ok (ciphertext.drop (keyLen + nonceLen))
    else .error "aead::Error"
  debug s := "\"" ++ s ++ "\""

theorem referenceCipher_canonical : referenceCipher.Canonical where
  decode_iff text bytes := by
    simp only [referenceCipher, referenceSigning]
    constructor
    · intro h
      cases hread : Base64.decode text.toList with
      | none =>
          rw [hread] at h
          cases h
      | some found =>
          rw [hread] at h
          obtain rfl := Except.ok.inj h
          rw [← Base64.eq_encode_of_decode hread]
          exact String.ofList_toList.symm
    · rintro rfl
      rw [String.toList_ofList, Base64.decode_encode]
  length_encode bytes := by
    simp only [referenceCipher, referenceSigning, String.length_ofList,
      Base64.length_encode]
  encode_graphic bytes c hc := by
    simp only [referenceCipher, referenceSigning, String.toList_ofList] at hc
    obtain ⟨hlow, hhigh⟩ := Base64.encode_graphic hc
    exact isWhitespace_of_graphic hlow hhigh

theorem referenceCipher_ideal : referenceCipher.Ideal where
  decrypt_encrypt key nonce message ciphertext h := by
    obtain rfl := Except.ok.inj h
    have hlen : (key.val ++ nonce.val).length = keyLen + nonceLen := by
      rw [List.length_append, key.property, nonce.property]
    simp only [referenceCipher, if_pos (List.prefix_append _ _),
      List.drop_left' hlen]
  authentic key nonce message ciphertext key' nonce' message' h h' := by
    obtain rfl := Except.ok.inj h
    simp only [referenceCipher] at h'
    split_ifs at h' with hfront
    obtain ⟨rest, hrest⟩ := hfront
    have hkeys : key'.val = key.val ∧ nonce'.val ++ rest = nonce.val ++ message := by
      apply List.append_inj
      · rw [← List.append_assoc, ← List.append_assoc]
        exact hrest
      · rw [key.property, key'.property]
    have hnonces := List.append_inj hkeys.2
      (by rw [nonce.property, nonce'.property])
    exact ⟨Subtype.ext hkeys.1, Subtype.ext hnonces.1⟩

end Chainlog
