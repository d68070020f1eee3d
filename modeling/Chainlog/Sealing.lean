import Chainlog.CryptoShred
import Mathlib.Logic.Relation

/-!
# Sealing and opening

Under a provider that unwraps what it wrapped, a bundle opens to the value that
was sealed, and parts of different bundles do not open together.
-/

namespace Chainlog

section Provider

variable (crates : CipherCrates) {σ α : Type} [KeyProvider σ α]

/-- The states that a provider reaches while it wraps. -/
def Wraps : σ → σ → Prop :=
  Relation.ReflTransGen fun s t => ∃ keyId dek answers,
    t = (KeyProvider.wrapDek crates s keyId dek answers).1

/-- Unwrapping inverts wrapping, for every key id, also after more wrapping. -/
def UnwrapInverts (provider : σ) : Prop :=
  ∀ s, Wraps crates provider s → ∀ keyId dek answers next wrapped,
    KeyProvider.wrapDek crates s keyId dek answers = (next, .ok wrapped) →
      ∀ t, Wraps crates next t →
        KeyProvider.unwrapDek crates t keyId wrapped = .ok dek

variable (σ) in
/-- What was wrapped is unwrapped to nothing else, whatever the key id and the
state of the provider. -/
def UnwrapAuthentic : Prop :=
  ∀ (s : σ) keyId dek answers next wrapped,
    KeyProvider.wrapDek crates s keyId dek answers = (next, .ok wrapped) →
      ∀ (t : σ) keyId' dek',
        KeyProvider.unwrapDek crates t keyId' wrapped = .ok dek' → dek' = dek

structure SealCall (α : Type) where
  keyId : String
  pii : Value
  answers : SealAnswers α

/-- Seal one value after the other. -/
def sealAll (provider : σ) : List (SealCall α) → σ × List (Result EncryptedPii)
  | [] => (provider, [])
  | call :: rest =>
      let (next, result) :=
        cryptoSeal crates provider call.keyId call.pii call.answers
      let (last, results) := sealAll next rest
      (last, result :: results)

/-- The random source gives every data key and every nonce once. -/
structure DistinctDraws (calls : List (SealCall α)) : Prop where
  deks : (calls.filterMap fun call => call.answers.dek.toOption).Nodup
  nonces : (calls.filterMap fun call => call.answers.nonce.toOption).Nodup

def SealedAt (provider : σ) (calls : List (SealCall α)) (i : ℕ)
    (call : SealCall α) (bundle : EncryptedPii) : Prop :=
  calls[i]? = some call ∧
    (sealAll crates provider calls).2[i]? = some (.ok bundle)

variable {crates}

/-- Bundles of encoded parts open where the data key is unwrapped and decrypts
the rest. -/
theorem openPlaintext_encoded_iff (hbase : crates.Canonical) {provider : σ}
    {keyId : String} {wrapped ciphertext plaintext : Bytes} {nonce : Nonce} :
    openPlaintext crates provider {
        keyId
        wrappedDek := crates.base64Encode wrapped
        nonce := crates.base64Encode nonce.val
        ciphertext := crates.base64Encode ciphertext } = .ok (.ok plaintext) ↔
      ∃ dek : Key,
        KeyProvider.unwrapDek crates provider keyId wrapped = .ok dek.val ∧
          crates.decrypt dek nonce ciphertext = .ok plaintext := by
  have hread : ∀ bytes, crates.base64Decode (crates.base64Encode bytes) =
      .ok bytes := fun bytes => (hbase.decode_iff _ _).mpr rfl
  unfold openPlaintext
  simp only [hread, Except.mapError, bind, Except.bind]
  cases hdek : KeyProvider.unwrapDek crates provider keyId wrapped with
  | error err => simp
  | ok dek =>
      by_cases hlen : dek.length = keyLen
      · have hkey : ∀ key : Key, (Except.ok dek : Result Bytes) = .ok key.val ↔
            key = ⟨dek, hlen⟩ := by
          intro key
          rw [Except.ok.injEq, Subtype.ext_iff]
          exact eq_comm
        simp only [dif_pos hlen, dif_pos nonce.property, hkey, exists_eq_left]
        cases crates.decrypt ⟨dek, hlen⟩ nonce ciphertext <;> simp
      · have hkey : ∀ key : Key, (Except.ok dek : Result Bytes) ≠
            .ok key.val := by
          intro key h
          rw [Except.ok.inj h] at hlen
          exact hlen key.property
        simp [hlen, hkey]

theorem cryptoOpen_eq_ok {provider : σ} {bundle : EncryptedPii} {value : Value}
    (hopen : cryptoOpen crates provider bundle = .ok (.ok value)) :
    ∃ plaintext, openPlaintext crates provider bundle = .ok (.ok plaintext) ∧
      valueFromSlice crates plaintext = .ok value := by
  unfold cryptoOpen at hopen
  cases hplain : openPlaintext crates provider bundle with
  | error panic =>
      rw [hplain] at hopen
      cases hopen
  | ok result =>
      rw [hplain] at hopen
      cases result with
      | error err => cases hopen
      | ok plaintext => exact ⟨plaintext, rfl, Except.ok.inj hopen⟩

/-! ## Runs of seals -/

theorem wraps_cryptoSeal (provider : σ) (keyId : String) (pii : Value)
    (answers : SealAnswers α) :
    Wraps crates provider (cryptoSeal crates provider keyId pii answers).1 := by
  unfold cryptoSeal
  cases encryptPii crates pii answers.dek answers.nonce with
  | error err => exact .refl
  | ok parts =>
      obtain ⟨dek, nonce, ciphertext⟩ := parts
      have hwraps : Wraps crates provider
          (KeyProvider.wrapDek crates provider keyId dek.val answers.wrap).1 :=
        .single ⟨keyId, dek.val, answers.wrap, rfl⟩
      cases hwrap : KeyProvider.wrapDek crates provider keyId dek.val
          answers.wrap with
      | mk next result =>
          rw [hwrap] at hwraps
          cases result with
          | error err => simpa only [hwrap] using hwraps
          | ok wrapped => simpa only [hwrap] using hwraps

theorem wraps_sealAll (provider : σ) (calls : List (SealCall α)) :
    Wraps crates provider (sealAll crates provider calls).1 := by
  induction calls generalizing provider with
  | nil => exact .refl
  | cons call rest ih => exact (wraps_cryptoSeal _ _ _ _).trans (ih _)

/-- Where a bundle of a run comes from. -/
theorem SealedAt.parts {provider : σ} {calls : List (SealCall α)} {i : ℕ}
    {call : SealCall α} {bundle : EncryptedPii}
    (hsealed : SealedAt crates provider calls i call bundle) :
    ∃ (s next : σ) (dek : Key) (nonce : Nonce) (ciphertext wrapped : Bytes),
      call.answers.dek = .ok dek ∧ call.answers.nonce = .ok nonce ∧
        crates.encrypt dek nonce (crates.serde.toVec call.pii.toDocument) =
          .ok ciphertext ∧
        Wraps crates provider s ∧
        KeyProvider.wrapDek crates s call.keyId dek.val call.answers.wrap =
          (next, .ok wrapped) ∧
        Wraps crates next (sealAll crates provider calls).1 ∧
        bundle = {
          keyId := call.keyId
          wrappedDek := crates.base64Encode wrapped
          nonce := crates.base64Encode nonce.val
          ciphertext := crates.base64Encode ciphertext } := by
  induction calls generalizing provider i with
  | nil => cases hsealed.1
  | cons first rest ih =>
      obtain ⟨hcall, hresult⟩ := hsealed
      cases i with
      | zero =>
          obtain rfl := Option.some.inj hcall
          have hseal := Option.some.inj hresult
          obtain ⟨dek, nonce, ciphertext, wrapped, hpii, hwrap, hbundle⟩ :=
            cryptoSeal_ok (Prod.ext rfl hseal)
          obtain ⟨hdek, hnonce, hct⟩ := encryptPii_ok hpii
          exact ⟨provider, _, dek, nonce, ciphertext, wrapped, hdek, hnonce, hct,
            .refl, hwrap, wraps_sealAll _ rest, hbundle⟩
      | succ i =>
          obtain ⟨s, next, dek, nonce, ciphertext, wrapped, hdek, hnonce, hct,
            hreach, hwrap, hlater, hbundle⟩ := ih ⟨hcall, hresult⟩
          exact ⟨s, next, dek, nonce, ciphertext, wrapped, hdek, hnonce, hct,
            (wraps_cryptoSeal _ _ _ _).trans hreach, hwrap, hlater, hbundle⟩

omit [KeyProvider σ α] in
theorem index_eq_of_nodup_filterMap {β γ : Type} {f : β → Option γ}
    {items : List β} (hnodup : (items.filterMap f).Nodup) {i j : ℕ} {a b : β}
    {c : γ} (hi : items[i]? = some a) (hj : items[j]? = some b)
    (ha : f a = some c) (hb : f b = some c) : i = j := by
  have hnew : ∀ {first : β} {rest : List β} {k : ℕ} {other : β},
      ((first :: rest).filterMap f).Nodup → f first = some c →
        rest[k]? = some other → f other ≠ some c := by
    intro first rest k other hdistinct hfirst hother hsame
    rw [List.filterMap_cons_some hfirst, List.nodup_cons] at hdistinct
    exact hdistinct.1 (List.mem_filterMap.mpr
      ⟨other, List.mem_of_getElem? hother, hsame⟩)
  induction items generalizing i j with
  | nil => cases hi
  | cons first rest ih =>
      cases i with
      | zero =>
          obtain rfl := Option.some.inj hi
          cases j with
          | zero => rfl
          | succ j => exact absurd hb (hnew hnodup ha hj)
      | succ i =>
          cases j with
          | zero =>
              obtain rfl := Option.some.inj hj
              exact absurd ha (hnew hnodup hb hi)
          | succ j =>
              have hrest : (rest.filterMap f).Nodup :=
                hnodup.sublist ((List.sublist_cons_self _ _).filterMap f)
              rw [ih hrest hi hj]

/-- A bundle opens to what was sealed, now and after more wrapping. -/
theorem SealedAt.openPlaintext (hbase : crates.Canonical)
    (hideal : crates.Ideal) {provider t : σ}
    (hinverts : UnwrapInverts crates provider) {calls : List (SealCall α)}
    (ht : Wraps crates (sealAll crates provider calls).1 t) {i : ℕ}
    {call : SealCall α} {bundle : EncryptedPii}
    (hsealed : SealedAt crates provider calls i call bundle) :
    openPlaintext crates t bundle =
      .ok (.ok (crates.serde.toVec call.pii.toDocument)) := by
  obtain ⟨s, next, dek, nonce, ciphertext, wrapped, _, _, hct, hreach, hwrap,
    hlater, rfl⟩ := hsealed.parts
  rw [openPlaintext_encoded_iff hbase]
  exact ⟨dek, hinverts s hreach _ _ _ _ _ hwrap _ (hlater.trans ht),
    hideal.decrypt_encrypt _ _ _ _ hct⟩

/-- The bundle of three parts, to be opened with a key id. -/
def assemble (keyId : String) (forDek forNonce forText : EncryptedPii) :
    EncryptedPii where
  keyId := keyId
  wrappedDek := forDek.wrappedDek
  nonce := forNonce.nonce
  ciphertext := forText.ciphertext

/-- Parts that open together were sealed together. -/
theorem SealedAt.unmixed (hbase : crates.Canonical) (hideal : crates.Ideal)
    {provider t : σ} (hinverts : UnwrapInverts crates provider)
    {calls : List (SealCall α)} (hdraws : DistinctDraws calls) {i j k : ℕ}
    {cᵢ cⱼ cₖ : SealCall α} {bᵢ bⱼ bₖ : EncryptedPii}
    (hi : SealedAt crates provider calls i cᵢ bᵢ)
    (hj : SealedAt crates provider calls j cⱼ bⱼ)
    (hk : SealedAt crates provider calls k cₖ bₖ) {keyId : String}
    (hunwrap : Wraps crates (sealAll crates provider calls).1 t ∧
        keyId = bᵢ.keyId ∨ UnwrapAuthentic crates σ)
    {plaintext : Bytes}
    (hopen : Chainlog.openPlaintext crates t (assemble keyId bᵢ bⱼ bₖ) =
      .ok (.ok plaintext)) :
    i = j ∧ j = k ∧ plaintext = crates.serde.toVec cᵢ.pii.toDocument := by
  obtain ⟨s, next, dekᵢ, _, _, wrapped, hdekᵢ, _, _, hreach, hwrap, hlater,
    rfl⟩ := hi.parts
  obtain ⟨_, _, _, nonceⱼ, _, _, _, hnonceⱼ, _, _, _, _, rfl⟩ := hj.parts
  obtain ⟨_, _, dekₖ, nonceₖ, ciphertext, _, hdekₖ, hnonceₖ, hct, _, _, _,
    rfl⟩ := hk.parts
  obtain ⟨dek, hdek, hdecrypt⟩ := (openPlaintext_encoded_iff hbase).mp hopen
  -- the data key that is unwrapped is the one that was wrapped
  have hsame : dek = dekᵢ := by
    apply Subtype.ext
    rcases hunwrap with ⟨ht, rfl⟩ | hauthentic
    · have hback := hinverts s hreach _ _ _ _ _ hwrap t (hlater.trans ht)
      exact Except.ok.inj (hdek.symm.trans hback)
    · exact hauthentic s _ _ _ _ _ hwrap t _ _ hdek
  obtain ⟨hkey, hnonce⟩ := hideal.authentic _ _ _ _ _ _ _ hct hdecrypt
  obtain rfl : dekᵢ = dekₖ := hsame.symm.trans hkey
  have hik : i = k := index_eq_of_nodup_filterMap hdraws.deks hi.1 hk.1
    (congrArg Except.toOption hdekᵢ) (congrArg Except.toOption hdekₖ)
  have hjk : j = k := index_eq_of_nodup_filterMap hdraws.nonces hj.1 hk.1
    (congrArg Except.toOption hnonceⱼ)
    ((congrArg Except.toOption hnonceₖ).trans (congrArg some hnonce.symm))
  refine ⟨hik.trans hjk.symm, hjk, ?_⟩
  have hcalls : cᵢ = cₖ := by
    have hcall := hi.1
    rw [hik, hk.1] at hcall
    exact (Option.some.inj hcall).symm
  rw [hcalls]
  rw [hkey, hnonce, hideal.decrypt_encrypt _ _ _ _ hct] at hdecrypt
  exact (Except.ok.inj hdecrypt).symm

/-- A sealed value is opened again, and parts of different bundles do not open
together. -/
theorem sealing_inverts_unmixed (hbase : crates.Canonical)
    (hideal : crates.Ideal) (provider : σ)
    (hinverts : UnwrapInverts crates provider) (calls : List (SealCall α))
    (hdraws : DistinctDraws calls) :
    let last := (sealAll crates provider calls).1
    let ReadsBack (call : SealCall α) : Prop := valueFromSlice crates
      (crates.serde.toVec call.pii.toDocument) = .ok call.pii
    (∀ t, Wraps crates last t → ∀ i call bundle,
      SealedAt crates provider calls i call bundle → ReadsBack call →
        cryptoOpen crates t bundle = .ok (.ok call.pii)) ∧
    ∀ i j k cᵢ cⱼ cₖ bᵢ bⱼ bₖ, SealedAt crates provider calls i cᵢ bᵢ →
      SealedAt crates provider calls j cⱼ bⱼ →
      SealedAt crates provider calls k cₖ bₖ →
      ∀ t keyId, (Wraps crates last t ∧ keyId = bᵢ.keyId ∨
          UnwrapAuthentic crates σ) →
        ∀ value, cryptoOpen crates t (assemble keyId bᵢ bⱼ bₖ) =
            .ok (.ok value) →
          i = j ∧ j = k ∧ (ReadsBack cᵢ → value = cᵢ.pii) := by
  intro last ReadsBack
  constructor
  · intro t ht i call bundle hsealed hback
    rw [cryptoOpen_of_plaintext
      (hsealed.openPlaintext hbase hideal hinverts ht), hback]
  · intro i j k cᵢ cⱼ cₖ bᵢ bⱼ bₖ hi hj hk t keyId hunwrap value hopen
    obtain ⟨plaintext, hplain, hvalue⟩ := cryptoOpen_eq_ok hopen
    obtain ⟨hij, hjk, rfl⟩ :=
      hi.unmixed hbase hideal hinverts hdraws hj hk hunwrap hplain
    refine ⟨hij, hjk, fun hback => ?_⟩
    rw [hback] at hvalue
    exact (Except.ok.inj hvalue).symm

end Provider

/-! ## The providers -/

section Providers

variable {crates : CipherCrates}

/-- A blob that one key encrypted is decrypted to nothing else. -/
theorem unwrapWithKey_of_wrapWithKey (hideal : crates.Ideal) {key key' : Key}
    {dek dek' wrapped : Bytes} {draw : Except String Nonce}
    (hwrap : wrapWithKey crates key dek draw = .ok wrapped)
    (hunwrap : unwrapWithKey crates key' wrapped = .ok dek') : dek' = dek := by
  obtain ⟨nonce, ct, hct, rfl⟩ := wrapWithKey_ok hwrap
  rw [unwrapWithKey_append] at hunwrap
  cases hopen : crates.decrypt key' nonce ct with
  | error e =>
      rw [hopen] at hunwrap
      cases hunwrap
  | ok bytes =>
      rw [hopen] at hunwrap
      obtain ⟨rfl, _⟩ := hideal.authentic _ _ _ _ _ _ _ hct hopen
      rw [hideal.decrypt_encrypt _ _ _ _ hct] at hopen
      exact (Except.ok.inj hunwrap).symm.trans (Except.ok.inj hopen).symm

theorem unwrapWithKey_wrapWithKey (hideal : crates.Ideal) {key : Key}
    {dek wrapped : Bytes} {draw : Except String Nonce}
    (hwrap : wrapWithKey crates key dek draw = .ok wrapped) :
    unwrapWithKey crates key wrapped = .ok dek := by
  obtain ⟨nonce, ct, hct, rfl⟩ := wrapWithKey_ok hwrap
  rw [unwrapWithKey_append, hideal.decrypt_encrypt _ _ _ _ hct]
  rfl

namespace LocalKeyProvider

theorem wraps_eq {s t : LocalKeyProvider} (hwraps : Wraps crates s t) :
    t = s := by
  induction hwraps with
  | refl => rfl
  | tail _ hstep ih =>
      obtain ⟨keyId, dek, answers, rfl⟩ := hstep
      exact ih

theorem unwrapInverts (hideal : crates.Ideal) (provider : LocalKeyProvider) :
    UnwrapInverts crates provider := by
  intro s _ keyId dek answers next wrapped hwrap t ht
  obtain rfl : s = next := congrArg Prod.fst hwrap
  rw [wraps_eq ht]
  exact unwrapWithKey_wrapWithKey hideal (congrArg Prod.snd hwrap)

theorem unwrapAuthentic (hideal : crates.Ideal) :
    UnwrapAuthentic crates LocalKeyProvider := by
  intro s keyId dek answers next wrapped hwrap t keyId' dek' hunwrap
  exact unwrapWithKey_of_wrapWithKey hideal (congrArg Prod.snd hwrap) hunwrap

end LocalKeyProvider

namespace Keyring

theorem lookup_wrapDek {keyring : Keyring} {keyId other : String} {dek : Bytes}
    {answers : WrapAnswers} {key : Key}
    (hlookup : keyring.provider.cache.lookup other = some key) :
    (keyring.wrapDek crates keyId dek answers).1.provider.cache.lookup other =
      some key := by
  rw [wrapDek_fst]
  by_cases hauto : keyring.provider.autoCreate = true
  · rw [if_pos hauto]
    rcases @ensure_cases crates keyring keyId answers.mint with
      ⟨result, hsame, _⟩ | ⟨minted, _, _, hnone, houtcome⟩
    · rw [hsame]
      exact hlookup
    · have hne : other ≠ keyId := by
        rintro rfl
        rw [hlookup] at hnone
        cases hnone
      rcases houtcome with hminted | ⟨n, reason, _, hcut⟩
      · rw [hminted]
        exact (AList.lookup_insert_ne hne).trans hlookup
      · rw [hcut]
        exact hlookup
  · rw [if_neg hauto]
    exact hlookup

theorem lookup_wraps {s t : Keyring} (hwraps : Wraps crates s t)
    {keyId : String} {key : Key}
    (hlookup : s.provider.cache.lookup keyId = some key) :
    t.provider.cache.lookup keyId = some key := by
  induction hwraps with
  | refl => exact hlookup
  | tail _ hstep ih =>
      obtain ⟨other, dek, answers, rfl⟩ := hstep
      exact lookup_wrapDek ih

theorem unwrapDek_of_lookup {keyring : Keyring} {keyId : String} {key : Key}
    (hlookup : keyring.provider.cache.lookup keyId = some key)
    (wrapped : Bytes) :
    keyring.unwrapDek crates keyId wrapped = unwrapWithKey crates key wrapped := by
  unfold unwrapDek KeyringProvider.get
  rw [hlookup]
  rfl

theorem unwrapInverts (hideal : crates.Ideal) (keyring : Keyring) :
    UnwrapInverts crates keyring := by
  intro s _ keyId dek answers next wrapped hwrap t ht
  obtain ⟨key, hlookup, hkey⟩ := wrapDek_ok s keyId hwrap
  have hunwrap := @unwrapDek_of_lookup crates t keyId key
    (lookup_wraps ht hlookup) wrapped
  exact hunwrap.trans (unwrapWithKey_wrapWithKey hideal hkey)

theorem unwrapAuthentic (hideal : crates.Ideal) :
    UnwrapAuthentic crates Keyring := by
  intro s keyId dek answers next wrapped hwrap t keyId' dek' hunwrap
  obtain ⟨key, _, hkey⟩ := wrapDek_ok s keyId hwrap
  have hget : t.unwrapDek crates keyId' wrapped = .ok dek' := hunwrap
  unfold unwrapDek KeyringProvider.get at hget
  cases hlookup : t.provider.cache.lookup keyId' with
  | none =>
      rw [hlookup] at hget
      cases hget
  | some key' =>
      rw [hlookup] at hget
      exact unwrapWithKey_of_wrapWithKey hideal hkey hget

end Keyring

open SharedKeyring in
/-- Two subjects' values under one master key. -/
def twoSeals : List (SealCall (Except String Nonce)) :=
  [{ keyId := "alice", pii := Value.null
     answers := { dek := .ok (sampleKey 1), nonce := .ok (sampleNonce 1)
                  wrap := .ok (sampleNonce 2) } },
   { keyId := "bob", pii := Value.null
     answers := { dek := .ok (sampleKey 3), nonce := .ok (sampleNonce 3)
                  wrap := .ok (sampleNonce 4) } }]

open SharedKeyring in
theorem sealing_inverts_unmixed_two :
    let provider : LocalKeyProvider := ⟨sampleKey 0⟩
    ∃ a b ca cb, SealedAt referenceCipher provider twoSeals 0 ca a ∧
      SealedAt referenceCipher provider twoSeals 1 cb b ∧
      ∀ keyId value, cryptoOpen referenceCipher provider (assemble keyId a b b) ≠
        .ok (.ok value) := by
  intro provider
  obtain ⟨a, ca, ha⟩ : ∃ a ca,
      SealedAt referenceCipher provider twoSeals 0 ca a := ⟨_, _, rfl, rfl⟩
  obtain ⟨b, cb, hb⟩ : ∃ b cb,
      SealedAt referenceCipher provider twoSeals 1 cb b := ⟨_, _, rfl, rfl⟩
  refine ⟨a, b, ca, cb, ha, hb, fun keyId value hopen => ?_⟩
  have hdraws : DistinctDraws twoSeals := ⟨by decide, by decide⟩
  have hmixed := (sealing_inverts_unmixed referenceCipher_canonical
    referenceCipher_ideal provider
    (LocalKeyProvider.unwrapInverts referenceCipher_ideal provider) twoSeals
    hdraws).2 0 1 1 ca cb cb a b b ha hb hb provider keyId
    (Or.inr (LocalKeyProvider.unwrapAuthentic referenceCipher_ideal)) value hopen
  exact absurd hmixed.1 (by decide)

end Providers

end Chainlog
