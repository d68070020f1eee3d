import Chainlog.Entry

/-!
# Envelope encryption

The PII of an entry is sealed under a fresh data key, and the data key is
wrapped by a key provider.  The cipher, base64 and the random source are
outside: the first two are parameters, what the third answers is an input.
-/

namespace Chainlog

def keyLen : ℕ := 32

def nonceLen : ℕ := 24

abbrev Key := { bytes : Bytes // bytes.length = keyLen }

abbrev Nonce := { bytes : Bytes // bytes.length = nonceLen }

/-- The crates behind encryption; `encrypt` and `decrypt` are those of
`XChaCha20Poly1305`, without associated data. -/
structure CipherCrates where
  serde : SerdeJson
  base64Encode : Bytes → String
  base64Decode : String → Except String Bytes
  encrypt : Key → Nonce → Bytes → Except String Bytes
  decrypt : Key → Nonce → Bytes → Except String Bytes
  /-- `{:?}` of a string, whose escapes follow the tables of Unicode. -/
  debug : String → String

/-- The standard engine of base64: it reads the texts it writes and no others,
and they have no white space. -/
structure CipherCrates.Canonical (crates : CipherCrates) : Prop where
  decode_iff : ∀ text bytes,
    crates.base64Decode text = .ok bytes ↔ text = crates.base64Encode bytes
  length_encode : ∀ bytes,
    (crates.base64Encode bytes).length = (bytes.length + 2) / 3 * 4
  encode_graphic : ∀ bytes, ∀ c ∈ (crates.base64Encode bytes).toList,
    isWhitespace c = false

/-- A ciphertext is decrypted to its message under the key and the nonce it was
made with, and is rejected under any other. -/
structure CipherCrates.Ideal (crates : CipherCrates) : Prop where
  decrypt_encrypt : ∀ key nonce message ciphertext,
    crates.encrypt key nonce message = .ok ciphertext →
      crates.decrypt key nonce ciphertext = .ok message
  authentic : ∀ key nonce message ciphertext key' nonce' message',
    crates.encrypt key nonce message = .ok ciphertext →
      crates.decrypt key' nonce' ciphertext = .ok message' →
        key' = key ∧ nonce' = nonce

def randomBytes {α : Type} (draw : Except String α) : Result α :=
  draw.mapError fun e => .crypto s!"rng failure: {e}"

variable (crates : CipherCrates)

def wrapWithKey (key : Key) (dek : Bytes) (draw : Except String Nonce) :
    Result Bytes := do
  let nonce ← randomBytes draw
  let ct ← (crates.encrypt key nonce dek).mapError fun e =>
    Error.crypto s!"wrap dek: {e}"
  return nonce.val ++ ct

def unwrapWithKey (key : Key) (wrapped : Bytes) : Result Bytes :=
  if h : wrapped.length < nonceLen then .error (.crypto "wrapped dek too short")
  else
    let nonce : Nonce := ⟨wrapped.take nonceLen, by
      rw [List.length_take]
      omega⟩
    (crates.decrypt key nonce (wrapped.drop nonceLen)).mapError fun e =>
      .crypto s!"unwrap dek (wrong key or tampered?): {e}"

/-- The `KeyProvider` trait.  Wrapping may change a provider (it may mint a
key) and depends on what the random source and the file system answer. -/
class KeyProvider (σ : Type) (α : outParam Type) where
  wrapDek : CipherCrates → σ → String → Bytes → α → σ × Result Bytes
  unwrapDek : CipherCrates → σ → String → Bytes → Result Bytes

/-! ## The local provider -/

structure LocalKeyProvider where
  master : Key

namespace LocalKeyProvider

/-- Load a base64-encoded key, such as the contents of a key file. -/
def fromBase64 (s : String) : Result LocalKeyProvider := do
  let raw ← (crates.base64Decode (trim s)).mapError Error.base64
  if h : raw.length = keyLen then .ok ⟨raw, h⟩
  else .error (.key s!"master key must be {keyLen} bytes, got {raw.length}")

end LocalKeyProvider

instance : KeyProvider LocalKeyProvider (Except String Nonce) where
  wrapDek crates provider _ dek draw :=
    (provider, wrapWithKey crates provider.master dek draw)
  unwrapDek crates provider _ wrapped :=
    unwrapWithKey crates provider.master wrapped

/-! ## Sealing and opening -/

/-- What the random source answers while a bundle is sealed, and what a
provider meets while it wraps. -/
structure SealAnswers (α : Type) where
  dek : Except String Key
  nonce : Except String Nonce
  wrap : α

/-- The data key, the nonce and the ciphertext of a PII value. -/
def encryptPii (pii : Value) (dek : Except String Key)
    (nonce : Except String Nonce) : Result (Key × Nonce × Bytes) := do
  let dek ← randomBytes dek
  let nonce ← randomBytes nonce
  let plaintext := crates.serde.toVec pii.toDocument
  let ciphertext ← (crates.encrypt dek nonce plaintext).mapError fun e =>
    Error.crypto s!"seal pii: {e}"
  return (dek, nonce, ciphertext)

section Provider

variable {σ α : Type} [KeyProvider σ α]

def cryptoSeal (provider : σ) (keyId : String) (pii : Value)
    (answers : SealAnswers α) : σ × Result EncryptedPii :=
  match encryptPii crates pii answers.dek answers.nonce with
  | .error err => (provider, .error err)
  | .ok (dek, nonce, ciphertext) =>
      match KeyProvider.wrapDek crates provider keyId dek.val answers.wrap with
      | (next, .error err) => (next, .error err)
      | (next, .ok wrapped) =>
          (next, .ok {
            keyId
            wrappedDek := crates.base64Encode wrapped
            nonce := crates.base64Encode nonce.val
            ciphertext := crates.base64Encode ciphertext })

/-- `XNonce::from_slice` panics on a slice of another length. -/
inductive Panic where
  | nonceLength (length : ℕ)
  deriving DecidableEq, Repr

/-- The part of `open` that needs keys: the bytes a bundle was made from. -/
def openPlaintext (provider : σ) (bundle : EncryptedPii) :
    Except Panic (Result Bytes) :=
  let unwrapped : Result (Bytes × Bytes × Key) := do
    let wrapped ← (crates.base64Decode bundle.wrappedDek).mapError Error.base64
    let nonce ← (crates.base64Decode bundle.nonce).mapError Error.base64
    let ciphertext ←
      (crates.base64Decode bundle.ciphertext).mapError Error.base64
    let dek ← KeyProvider.unwrapDek crates provider bundle.keyId wrapped
    if h : dek.length = keyLen then .ok (nonce, ciphertext, ⟨dek, h⟩)
    else .error (.crypto "unwrapped dek has wrong length")
  match unwrapped with
  | .error err => .ok (.error err)
  | .ok (nonce, ciphertext, dek) =>
      if h : nonce.length = nonceLen then
        .ok ((crates.decrypt dek ⟨nonce, h⟩ ciphertext).mapError fun e =>
          .crypto s!"open pii (wrong key or tampered?): {e}")
      else .error (.nonceLength nonce.length)

/-- `serde_json::from_slice` at `Value`. -/
def valueFromSlice (bytes : Bytes) : Result Value :=
  match fromUtf8 bytes with
  | none => .error (.serde "invalid unicode code point")
  | some text =>
      ((crates.serde.fromStr text).map Value.ofDocument).mapError Error.serde

def cryptoOpen (provider : σ) (bundle : EncryptedPii) :
    Except Panic (Result Value) :=
  (openPlaintext crates provider bundle).map fun plaintext => do
    valueFromSlice crates (← plaintext)

end Provider

/-! ## What is sealed -/

/-- The bundle holds a value sealed under `kek`. -/
def SealedUnder (kek : Key) (pii : Value) (bundle : EncryptedPii) : Prop :=
  ∃ (dek : Key) (nonce wrapNonce : Nonce) (wrapped ciphertext : Bytes),
    crates.encrypt dek nonce (crates.serde.toVec pii.toDocument) =
        .ok ciphertext ∧
      crates.encrypt kek wrapNonce dek.val = .ok wrapped ∧
      bundle.wrappedDek = crates.base64Encode (wrapNonce.val ++ wrapped) ∧
      bundle.nonce = crates.base64Encode nonce.val ∧
      bundle.ciphertext = crates.base64Encode ciphertext

variable {crates}

theorem wrapWithKey_ok {key : Key} {dek wrapped : Bytes}
    {draw : Except String Nonce}
    (hwrap : wrapWithKey crates key dek draw = .ok wrapped) :
    ∃ (nonce : Nonce) (ct : Bytes), crates.encrypt key nonce dek = .ok ct ∧
      wrapped = nonce.val ++ ct := by
  unfold wrapWithKey at hwrap
  cases draw with
  | error e => cases hwrap
  | ok nonce =>
      simp only [randomBytes, Except.mapError, bind, Except.bind] at hwrap
      cases hct : crates.encrypt key nonce dek with
      | error e => rw [hct] at hwrap; cases hwrap
      | ok ct =>
          rw [hct] at hwrap
          exact ⟨nonce, ct, hct, (Except.ok.inj hwrap).symm⟩

theorem unwrapWithKey_append (key : Key) (nonce : Nonce) (ct : Bytes) :
    unwrapWithKey crates key (nonce.val ++ ct) =
      (crates.decrypt key nonce ct).mapError fun e =>
        .crypto s!"unwrap dek (wrong key or tampered?): {e}" := by
  have hlen : ¬ (nonce.val ++ ct).length < nonceLen := by
    rw [List.length_append, nonce.property]
    omega
  have htake : (nonce.val ++ ct).take nonceLen = nonce.val :=
    List.take_left' nonce.property
  have hdrop : (nonce.val ++ ct).drop nonceLen = ct :=
    List.drop_left' nonce.property
  unfold unwrapWithKey
  rw [dif_neg hlen]
  simp only [htake, hdrop]

theorem encryptPii_ok {pii : Value} {dek : Except String Key}
    {nonce : Except String Nonce} {key : Key} {n : Nonce} {ciphertext : Bytes}
    (hpii : encryptPii crates pii dek nonce = .ok (key, n, ciphertext)) :
    dek = .ok key ∧ nonce = .ok n ∧
      crates.encrypt key n (crates.serde.toVec pii.toDocument) =
        .ok ciphertext := by
  unfold encryptPii at hpii
  cases dek with
  | error e => cases hpii
  | ok k =>
      cases nonce with
      | error e => cases hpii
      | ok m =>
          simp only [randomBytes, Except.mapError, bind, Except.bind] at hpii
          cases hct : crates.encrypt k m (crates.serde.toVec pii.toDocument) with
          | error e => rw [hct] at hpii; cases hpii
          | ok ct =>
              rw [hct] at hpii
              cases hpii
              exact ⟨rfl, rfl, hct⟩

section Provider

variable {σ α : Type} [KeyProvider σ α] {provider next : σ} {keyId : String}
  {pii : Value} {answers : SealAnswers α} {bundle : EncryptedPii} {kek : Key}

theorem cryptoSeal_ok
    (hseal : cryptoSeal crates provider keyId pii answers = (next, .ok bundle)) :
    ∃ (dek : Key) (nonce : Nonce) (ciphertext wrapped : Bytes),
      encryptPii crates pii answers.dek answers.nonce =
          .ok (dek, nonce, ciphertext) ∧
        KeyProvider.wrapDek crates provider keyId dek.val answers.wrap =
          (next, .ok wrapped) ∧
        bundle = {
          keyId
          wrappedDek := crates.base64Encode wrapped
          nonce := crates.base64Encode nonce.val
          ciphertext := crates.base64Encode ciphertext } := by
  unfold cryptoSeal at hseal
  cases hpii : encryptPii crates pii answers.dek answers.nonce with
  | error err => rw [hpii] at hseal; cases hseal
  | ok parts =>
      obtain ⟨dek, nonce, ciphertext⟩ := parts
      rw [hpii] at hseal
      cases hwrap : KeyProvider.wrapDek crates provider keyId dek.val
          answers.wrap with
      | mk after result =>
          cases result with
          | error err =>
              simp only [hwrap] at hseal
              cases hseal
          | ok wrapped =>
              simp only [hwrap, Prod.mk.injEq, Except.ok.injEq] at hseal
              obtain ⟨rfl, rfl⟩ := hseal
              exact ⟨dek, nonce, ciphertext, wrapped, rfl, hwrap, rfl⟩

theorem cryptoSeal_of_wrapDek {dek : Key} {nonce : Nonce}
    {ciphertext wrapped : Bytes}
    (hpii : encryptPii crates pii answers.dek answers.nonce =
      .ok (dek, nonce, ciphertext))
    (hwrap : KeyProvider.wrapDek crates provider keyId dek.val answers.wrap =
      (next, .ok wrapped)) :
    cryptoSeal crates provider keyId pii answers = (next, .ok {
      keyId
      wrappedDek := crates.base64Encode wrapped
      nonce := crates.base64Encode nonce.val
      ciphertext := crates.base64Encode ciphertext }) := by
  unfold cryptoSeal
  simp only [hpii, hwrap]

/-- Opening a sealed bundle rests on unwrapping its data key. -/
theorem openPlaintext_of_sealedUnder (hbase : crates.Canonical)
    (hideal : crates.Ideal) (hsealed : SealedUnder crates kek pii bundle)
    {key : Key} (hunwrap : ∀ wrapped,
      KeyProvider.unwrapDek crates provider bundle.keyId wrapped =
        unwrapWithKey crates key wrapped) :
    openPlaintext crates provider bundle =
        .ok (.ok (crates.serde.toVec pii.toDocument)) ∧ key = kek ∨
      (∃ err, openPlaintext crates provider bundle = .ok (.error err)) ∧
        key ≠ kek := by
  obtain ⟨dek, nonce, wrapNonce, wrapped, ciphertext, hpii, hwrap, hdek, hnonce,
    hct⟩ := hsealed
  have hread : ∀ bytes, crates.base64Decode (crates.base64Encode bytes) =
      .ok bytes := fun bytes => (hbase.decode_iff _ _).mpr rfl
  unfold openPlaintext
  simp only [hdek, hnonce, hct, hread, hunwrap, unwrapWithKey_append,
    Except.mapError, bind, Except.bind]
  by_cases hkey : key = kek
  · subst hkey
    refine Or.inl ⟨?_, rfl⟩
    simp only [hideal.decrypt_encrypt _ _ _ _ hwrap, dif_pos dek.property,
      dif_pos nonce.property, hideal.decrypt_encrypt _ _ _ _ hpii]
  · refine Or.inr ⟨?_, hkey⟩
    cases hopen : crates.decrypt key wrapNonce wrapped with
    | error e => exact ⟨_, rfl⟩
    | ok bytes => exact absurd (hideal.authentic _ _ _ _ _ _ _ hwrap hopen).1 hkey

theorem openPlaintext_of_unwrapDek_error (hbase : crates.Canonical)
    (hsealed : SealedUnder crates kek pii bundle)
    {err : Error} (hunwrap : ∀ wrapped,
      KeyProvider.unwrapDek crates provider bundle.keyId wrapped = .error err) :
    openPlaintext crates provider bundle = .ok (.error err) := by
  obtain ⟨dek, nonce, wrapNonce, wrapped, ciphertext, hpii, hwrap, hdek, hnonce,
    hct⟩ := hsealed
  have hread : ∀ bytes, crates.base64Decode (crates.base64Encode bytes) =
      .ok bytes := fun bytes => (hbase.decode_iff _ _).mpr rfl
  unfold openPlaintext
  simp only [hdek, hnonce, hct, hread, hunwrap, Except.mapError, bind,
    Except.bind]

theorem cryptoOpen_of_plaintext {plaintext : Bytes}
    (hopen : openPlaintext crates provider bundle = .ok (.ok plaintext)) :
    cryptoOpen crates provider bundle = .ok (valueFromSlice crates plaintext) := by
  rw [cryptoOpen, hopen]
  rfl

theorem cryptoOpen_of_error {err : Error}
    (hopen : openPlaintext crates provider bundle = .ok (.error err)) :
    cryptoOpen crates provider bundle = .ok (.error err) := by
  rw [cryptoOpen, hopen]
  rfl

end Provider

theorem LocalKeyProvider.cryptoSeal_sealedUnder {provider next : LocalKeyProvider}
    {keyId : String} {pii : Value}
    {answers : SealAnswers (Except String Nonce)} {bundle : EncryptedPii}
    (hseal : cryptoSeal crates provider keyId pii answers = (next, .ok bundle)) :
    bundle.keyId = keyId ∧ SealedUnder crates provider.master pii bundle := by
  obtain ⟨dek, nonce, ciphertext, wrapped, hpii, hwrap, rfl⟩ :=
    cryptoSeal_ok hseal
  obtain ⟨wrapNonce, ct, hct, rfl⟩ := wrapWithKey_ok (congrArg Prod.snd hwrap)
  exact ⟨rfl, dek, nonce, wrapNonce, ct, ciphertext, (encryptPii_ok hpii).2.2,
    hct, rfl, rfl, rfl⟩

theorem valueFromSlice_toVec {pii : Value}
    (hparse : crates.serde.fromStr (crates.serde.toText pii.toDocument) =
      .ok pii.toDocument) :
    valueFromSlice crates (crates.serde.toVec pii.toDocument) = .ok pii := by
  unfold valueFromSlice SerdeJson.toVec
  rw [fromUtf8_asBytes]
  simp only [hparse, Except.map, Except.mapError, Value.ofDocument_toDocument]

end Chainlog
