import Chainlog.Reference
import Chainlog.SharedKeyring

/-!
# Crypto-shredding

A provider that is alone with its directory holds what the key files hold, so
shredding a key is final.  Where providers share a directory, this rests on no
cache outliving a key file.
-/

namespace Chainlog

namespace SharedKeyring

/-! ## Sealing with the reference cipher -/

section Reference

def sampleKey (n : UInt8) : Key := ⟨List.replicate keyLen n, List.length_replicate⟩

def sampleNonce (n : UInt8) : Nonce :=
  ⟨List.replicate nonceLen n, List.length_replicate⟩

def mintAnswers (key : Key) : MintAnswers where
  draw := .ok key
  write := .written

/-- Every answer is a success, and `key` is what the random source gives for
a key id. -/
def sealAnswers (key : Key) : SealAnswers WrapAnswers where
  dek := .ok (sampleKey 0)
  nonce := .ok (sampleNonce 0)
  wrap := { mint := mintAnswers key, nonce := .ok (sampleNonce 1) }

theorem cryptoSeal_ensured {keyring next : Keyring} {keyId : String}
    {created : Bool} {held key : Key}
    (hauto : keyring.provider.autoCreate = true)
    (hensure : keyring.ensure referenceCipher keyId (mintAnswers key) =
      (next, .ok created))
    (hlookup : next.provider.cache.lookup keyId = some held) (pii : Value) :
    ∃ bundle, cryptoSeal referenceCipher keyring keyId pii (sealAnswers key) =
      (next, .ok bundle) := by
  have hwrap := @Keyring.wrapDek_of_ensure referenceCipher keyring keyId
    (sampleKey 0).val (sealAnswers key).wrap next created held hauto hensure
    hlookup
  exact ⟨_, @cryptoSeal_of_wrapDek referenceCipher _ _ _ keyring next keyId pii
    (sealAnswers key) _ _ _ _ rfl hwrap⟩

variable {ι : Type} [DecidableEq ι] {s : SharedKeyring ι} {i : ι}
  {provider : KeyringProvider} {keyId : String}

theorem seal_ensured {next : Keyring} {created : Bool} {held key : Key}
    (hi : s.providers i = some provider) (hauto : provider.autoCreate = true)
    (hensure : Keyring.ensure referenceCipher { provider, files := s.files }
      keyId (mintAnswers key) = (next, .ok created))
    (hlookup : next.provider.cache.lookup keyId = some held) (pii : Value) :
    let sealing := s.step referenceCipher
      (.cryptoSeal i keyId pii (sealAnswers key))
    ∃ bundle, sealing.2 = .sealed (.ok bundle) ∧
      sealing.1.providers i = some next.provider ∧
      sealing.1.files = next.files := by
  obtain ⟨bundle, hseal⟩ := cryptoSeal_ensured hauto hensure hlookup pii
  simp only [step, perform, use_some hi, hseal]
  exact ⟨_, rfl, providers_set i next, rfl⟩

theorem seal_absent (hi : s.providers i = some provider)
    (hauto : provider.autoCreate = true) (hvalid : validKeyId keyId = true)
    (hlookup : provider.cache.lookup keyId = none)
    (hfile : s.files.find (keyFileName keyId) = none) (key : Key)
    (pii : Value) :
    let sealing := s.step referenceCipher
      (.cryptoSeal i keyId pii (sealAnswers key))
    ∃ bundle, sealing.2 = .sealed (.ok bundle) ∧
      sealing.1.providers i =
        some { provider with cache := provider.cache.insert keyId key } ∧
      sealing.1.files = s.files.put (keyFileName keyId)
        (keyText referenceCipher key) := by
  have hensure := @Keyring.ensure_absent referenceCipher
    { provider, files := s.files } keyId key (mintAnswers key) hvalid hlookup
    rfl rfl (by simp [hfile])
  exact seal_ensured hi hauto hensure (AList.lookup_insert _) pii

theorem seal_present (hi : s.providers i = some provider)
    (hauto : provider.autoCreate = true) (hvalid : validKeyId keyId = true)
    {held : Key} (hlookup : provider.cache.lookup keyId = some held)
    (key : Key) (pii : Value) :
    let sealing := s.step referenceCipher
      (.cryptoSeal i keyId pii (sealAnswers key))
    ∃ bundle, sealing.2 = .sealed (.ok bundle) ∧
      sealing.1.providers i = some provider ∧
      sealing.1.files = s.files := by
  have hensure := @Keyring.ensure_present referenceCipher
    { provider, files := s.files } keyId held hvalid hlookup (mintAnswers key)
  exact seal_ensured hi hauto hensure hlookup pii

end Reference

/-! ## One provider -/

section Single

variable (crates : CipherCrates)

/-- An open provider holds what the key files hold. -/
def Mirrors (s : SharedKeyring Unit) : Prop :=
  ∀ provider, s.providers () = some provider →
    ∀ keyId, s.held () keyId = keyFile crates s.dir s.files keyId

variable {crates} {s t : SharedKeyring Unit} {call : KeyringCall Unit}

/-- A key that is changed in the cache and on disk alike leaves them equal. -/
theorem Mirrors.write (hmirrors : s.Mirrors crates)
    {provider : KeyringProvider} (hi : s.providers () = some provider)
    {keyId : String} {key : Option Key}
    (hview : t.view crates = (s.view crates).apply (.write () keyId key)) :
    t.Mirrors crates := by
  intro _ _ id
  have hcopy := congrFun (congrFun (congrArg SharedStore.State.copy hview) ()) id
  have hstore := congrFun (congrArg SharedStore.State.store hview) id
  rw [SharedStore.State.copy_write] at hcopy
  rw [SharedStore.State.store_write] at hstore
  by_cases hid : id = keyId
  · rw [if_pos ⟨rfl, hid⟩] at hcopy
    rw [if_pos hid] at hstore
    exact hcopy.trans hstore.symm
  · rw [if_neg fun h => hid h.2] at hcopy
    rw [if_neg hid] at hstore
    exact (hcopy.trans (hmirrors provider hi id)).trans hstore.symm

theorem Mirrors.transition (hbase : crates.Canonical)
    (hfiles : s.files.names.Nodup) (hmirrors : s.Mirrors crates)
    (hsucceeds : call.Succeeds) (h : Transition crates s call t) :
    t.Mirrors crates := by
  cases h with
  | same => exact hmirrors
  | @opened i autoCreate answers provider hcall hopen =>
      subst hcall
      obtain rfl : answers = .ok := hsucceeds
      intro _ _ keyId
      have hheld : (s.hold i (some provider)).held () keyId =
          provider.cache.lookup keyId := by
        apply held_eq
        exact providers_hold () _
      rw [hheld, (openDir_ok hfiles hopen).2, loadedKey_ok]
      rfl
  | closed i =>
      intro provider hi
      simp [hold] at hi
  | @minted i provider keyId key hi hmints hdraw =>
      exact hmirrors.write hi (view_minted hbase hi keyId key)
  | cut hi hmints hdraw hfault => exact absurd hsucceeds hfault
  | forgotten hi hcall =>
      subst hcall
      cases hsucceeds
  | @shredded i provider keyId removal hi hcall =>
      exact hmirrors.write hi (view_shredded hi keyId)

theorem Mirrors.backed (hmirrors : s.Mirrors crates) (keyId : String) :
    (s.view crates).Backed keyId := by
  intro i key hheld
  obtain ⟨provider, hi, _⟩ := Option.bind_eq_some_iff.mp hheld
  exact (hmirrors provider hi keyId).symm.trans hheld

theorem Mirrors.kept_step (hbase : crates.Canonical) (hsound : s.Sound crates)
    (hmirrors : s.Mirrors crates) (hsucceeds : call.Succeeds) {keyId : String}
    {key : Key} (hkept : keyFile crates s.dir s.files keyId = some key)
    (hshred : ¬ Shreds crates keyId s call) :
    ((s.step crates call).1.view crates).store keyId = some key := by
  by_cases hcall : ∃ i removal, call = .shred i keyId removal
  · obtain ⟨i, removal, rfl⟩ := hcall
    obtain rfl : removal = none := hsucceeds
    have hview : (s.step crates (.shred i keyId none)).1.view crates =
        (s.perform crates (.shred i keyId none)).1.view crates := rfl
    rw [hview]
    cases hi : s.providers i with
    | none =>
        simp only [perform, use, hi]
        exact hkept
    | some provider =>
        rcases @perform_shred _ _ crates _ _ _ hi keyId none with
          ⟨err, _, hsame⟩ | ⟨reason, hremoval, _⟩ | ⟨present, hgone, habsent⟩
        · rw [hsame]
          exact hkept
        · cases hremoval
        · cases present with
          | true =>
              exact absurd ⟨⟨i, none, rfl⟩, congrArg Prod.snd hgone⟩ hshred
          | false =>
              unfold keyFile at hkept
              rw [(habsent rfl).2] at hkept
              cases hkept
  · obtain ⟨action, heffect, _, hview⟩ := hsound.effect hbase call
    rw [hview, SharedStore.State.store_apply]
    · exact hkept
    · cases heffect with
      | refill i copy => exact id
      | @mint i id' minted hmints hdraw =>
          rintro rfl
          -- a provider that holds the key does not mint it
          obtain ⟨⟨provider, hi⟩, hnone⟩ := hmints.held_eq_none
          rw [hmirrors provider hi, hkept] at hnone
          cases hnone
      | cut hmints hleft hfault => exact absurd hsucceeds hfault
      | @shred i id' removal hshreds =>
          rintro rfl
          exact hcall ⟨i, removal, hshreds⟩

theorem Mirrors.step (hbase : crates.Canonical) (hsound : s.Sound crates)
    (hmirrors : s.Mirrors crates) (hsucceeds : call.Succeeds) :
    (s.step crates call).1.Mirrors crates := by
  have hperform : (s.perform crates call).1.Mirrors crates :=
    hmirrors.transition hbase hsound.nodup hsucceeds (perform_transition s call)
  exact hperform

theorem alone_unit (i : Unit) (keyId : String) :
    (s.view crates).Alone i keyId :=
  fun _ hj => absurd (Subsingleton.elim _ _) hj

variable {calls : List (KeyringCall Unit)}

/-- After a run a key is on disk if it was not shredded, and is gone if it
was. -/
theorem Mirrors.kept_or_withdrawn (hbase : crates.Canonical)
    (hsound : s.Sound crates) (hmirrors : s.Mirrors crates)
    (hcalls : Along crates (fun s call => call.Succeeds ∧ s.Fresh call) s calls)
    {keyId : String} {key : Key} (hkey : key ∈ s.drawn)
    (hkept : keyFile crates s.dir s.files keyId = some key) :
    ¬ Sometime crates (Shreds crates keyId) s calls ∧
        ((s.run crates calls).view crates).store keyId = some key ∨
      Sometime crates (Shreds crates keyId) s calls ∧
        ((s.run crates calls).view crates).Withdrawn keyId key := by
  induction calls generalizing s with
  | nil => exact Or.inl ⟨id, hkept⟩
  | cons call rest ih =>
      obtain ⟨⟨hsucceeds, hfresh⟩, hrest⟩ := hcalls
      have hsound' := hsound.step hbase call
      have hmirrors' := hmirrors.step hbase hsound hsucceeds
      have hkey' : key ∈ (s.step crates call).1.drawn :=
        List.mem_append_right _ hkey
      by_cases hshred : Shreds crates keyId s call
      · obtain ⟨⟨i, removal, rfl⟩, hreply⟩ := hshred
        have hgone := withdrawn_of_shreds hreply (alone_unit i keyId) key
        refine Or.inr ⟨Or.inl ⟨⟨i, removal, rfl⟩, hreply⟩, ?_⟩
        exact hsound'.withdrawn_run hbase (hrest.imp fun _ _ h => h.2) hkey' hgone
      · have hkept' := hmirrors.kept_step hbase hsound hsucceeds hkept hshred
        rcases ih hsound' hmirrors' hrest hkey' hkept' with
          ⟨hnever, hstore⟩ | ⟨hsome, hgone⟩
        · refine Or.inl ⟨?_, hstore⟩
          rintro (h | h)
          · exact hshred h
          · exact hnever h
        · exact Or.inr ⟨Or.inr hsome, hgone⟩

theorem initial_mirrors (dir : String) :
    (initial crates dir [] : SharedKeyring Unit).Mirrors crates := by
  intro provider hi
  cases hi

theorem run_mirrors (hbase : crates.Canonical) {dir : String}
    (hcalls : Along crates (fun s call => call.Succeeds ∧ s.Fresh call)
      (initial crates dir []) calls) :
    ((initial crates dir [] : SharedKeyring Unit).run crates calls).Sound
        crates ∧
      ((initial crates dir [] : SharedKeyring Unit).run crates calls).Mirrors
        crates := by
  apply hcalls.keeps fun s => s.Sound crates ∧ s.Mirrors crates
  · rintro s call ⟨hsucceeds, _⟩ ⟨hsound, hmirrors⟩
    exact ⟨hsound.step hbase call, hmirrors.step hbase hsound hsucceeds⟩
  · exact ⟨initial_sound dir List.nodup_nil, initial_mirrors dir⟩

/-- A cache that mirrors the key files is what a reopened provider reads. -/
theorem Mirrors.reopened (hsound : s.Sound crates)
    (hmirrors : s.Mirrors crates) {provider : KeyringProvider}
    (hi : s.providers () = some provider) (autoCreate : Bool) :
    ∃ reopened, KeyringProvider.openDir crates s.dir autoCreate s.files .ok =
        .ok reopened ∧ reopened.autoCreate = autoCreate ∧
      ∀ keyId, reopened.cache.lookup keyId = provider.cache.lookup keyId := by
  obtain ⟨reopened, hopen, hauto, hcache⟩ := hsound.exists_openDir autoCreate
  refine ⟨reopened, hopen, hauto, fun keyId => ?_⟩
  rw [hcache, ← hmirrors provider hi, held_eq hi]

/-- Shredding is permanent and touches no other key: in every history of one
provider over a directory that starts out empty, the cache holds what the key
files hold, and a bundle opens as long as its key id has not been shredded
since it was sealed. -/
theorem shred_permanent (hbase : crates.Canonical) (hideal : crates.Ideal)
    (dir : String) (calls : List (KeyringCall Unit))
    (hcalls : Along crates (fun s call => call.Succeeds ∧ s.Fresh call)
      (initial crates dir []) calls) :
    let start : SharedKeyring Unit := initial crates dir []
    let s := start.run crates calls
    ∀ provider, s.providers () = some provider →
      (∀ keyId, provider.cache.lookup keyId =
        keyFile crates s.dir s.files keyId) ∧
      (∀ autoCreate, ∃ reopened,
        KeyringProvider.openDir crates s.dir autoCreate s.files .ok =
            .ok reopened ∧ reopened.autoCreate = autoCreate ∧
          ∀ keyId, reopened.cache.lookup keyId =
            provider.cache.lookup keyId) ∧
      ∀ front keyId pii answers back bundle,
        calls = front ++ .cryptoSeal () keyId pii answers :: back →
        let sealing := (start.run crates front).step crates
          (.cryptoSeal () keyId pii answers)
        sealing.2 = .sealed (.ok bundle) →
        let keyring : Keyring := { provider, files := s.files }
        let plaintext := crates.serde.toVec pii.toDocument
        let shredded := Sometime crates (Shreds crates keyId) sealing.1 back
        (openPlaintext crates keyring bundle = .ok (.ok plaintext) ↔
          ¬ shredded) ∧
        (valueFromSlice crates plaintext = .ok pii →
          (cryptoOpen crates keyring bundle = .ok (.ok pii) ↔ ¬ shredded)) ∧
        (shredded →
          ∃ err, cryptoOpen crates keyring bundle = .ok (.error err)) := by
  intro start s provider hi
  obtain ⟨hsound, hmirrors⟩ := run_mirrors hbase hcalls
  refine ⟨fun keyId => (held_eq hi keyId).symm.trans (hmirrors provider hi keyId),
    hmirrors.reopened hsound hi, ?_⟩
  intro front keyId pii answers back bundle heq sealing hreply keyring plaintext
    shredded
  subst heq
  obtain ⟨hfront, ⟨hsucceeds, hfresh⟩, hback⟩ := Along.append_iff.mp hcalls
  obtain ⟨hsound₀, hmirrors₀⟩ := run_mirrors hbase hfront
  have hsound₁ : sealing.1.Sound crates := hsound₀.step hbase _
  have hmirrors₁ : sealing.1.Mirrors crates :=
    hmirrors₀.step hbase hsound₀ hsucceeds
  obtain ⟨rfl, key, hheld, hsealed⟩ := sealedUnder_of_step hreply
  have hkey : key ∈ sealing.1.drawn := hsound₁.within.2 () _ key hheld
  have hkept : keyFile crates sealing.1.dir sealing.1.files bundle.keyId =
      some key := hmirrors₁.backed _ () key hheld
  have hend : s = sealing.1.run crates back := run_append start front _
  have hlookup : provider.cache.lookup bundle.keyId =
      (s.view crates).store bundle.keyId :=
    (held_eq hi _).symm.trans (hmirrors provider hi _)
  rcases hmirrors₁.kept_or_withdrawn hbase hsound₁ hback hkey hkept with
    ⟨hnever, hstore⟩ | ⟨hsome, hgone⟩
  · -- the key is still held
    rw [← hend] at hstore
    rcases keyring.openPlaintext_cases hbase hideal hsealed with
      ⟨hopen, _⟩ | ⟨_, hne⟩
    · refine ⟨⟨fun _ => hnever, fun _ => hopen⟩, fun hread => ?_,
        fun h => absurd h hnever⟩
      refine ⟨fun _ => hnever, fun _ => ?_⟩
      rw [cryptoOpen_of_plaintext hopen, hread]
    · exact absurd (hlookup.trans hstore) hne
  · -- no key of the id is the one that sealed the bundle
    rw [← hend] at hgone
    rcases keyring.openPlaintext_cases hbase hideal hsealed with
      ⟨_, heq⟩ | ⟨⟨err, hfail⟩, _⟩
    · exact absurd (hlookup.symm.trans heq) hgone.1
    · have hfail' := cryptoOpen_of_error hfail
      refine ⟨⟨fun h => ?_, fun h => absurd hsome h⟩, fun _ =>
        ⟨fun h => ?_, fun h => absurd hsome h⟩, fun _ => ⟨err, hfail'⟩⟩
      · rw [hfail] at h
        cases h
      · rw [hfail'] at h
        cases h

/-- A subject's key is shredded, made again, and the directory reopened. -/
def shredAndReturn : List (KeyringCall Unit) :=
  [.reopen () true .ok,
    .cryptoSeal () "subject-123" Value.null (sealAnswers (sampleKey 1)),
    .shred () "subject-123" none,
    .ensure () "subject-123" (mintAnswers (sampleKey 2)),
    .close (),
    .reopen () false .ok]

theorem shred_permanent_subject :
    let s : SharedKeyring Unit :=
      (initial referenceCipher "keys" []).run referenceCipher shredAndReturn
    ∀ provider, s.providers () = some provider → ∀ keyId,
      provider.cache.lookup keyId =
        keyFile referenceCipher s.dir s.files keyId := by
  intro s provider hi
  apply (shred_permanent referenceCipher_canonical referenceCipher_ideal "keys"
    shredAndReturn ?_ provider hi).1
  have hne : sampleKey 2 ≠ sampleKey 1 := by decide
  simp [shredAndReturn, Along, KeyringCall.Succeeds, Fresh, KeyringCall.draw,
    step, initial, sealAnswers, mintAnswers, Except.toOption, hne,
    -Subtype.forall]

end Single

/-! ## Several providers -/

section Several

variable {ι : Type} [DecidableEq ι] (crates : CipherCrates)

/-- Once a key id has been shredded, no provider opens a bundle that was sealed
under it before. -/
def ShredsAreFinal (s : SharedKeyring ι) (calls : List (KeyringCall ι)) : Prop :=
  ∀ front i keyId pii answers back bundle,
    calls = front ++ .cryptoSeal i keyId pii answers :: back →
    let sealing := (s.run crates front).step crates
      (.cryptoSeal i keyId pii answers)
    sealing.2 = .sealed (.ok bundle) →
    Sometime crates (Shreds crates keyId) sealing.1 back →
    ∀ j provider, (s.run crates calls).providers j = some provider →
      ∃ err, Chainlog.cryptoOpen crates
        { provider, files := (s.run crates calls).files : Keyring } bundle =
          .ok (.error err)

/-- A bundle is sealed under the key that the file of its key id holds. -/
def SealsAreBacked (s : SharedKeyring ι) (calls : List (KeyringCall ι)) : Prop :=
  ∀ front i keyId pii answers back bundle,
    calls = front ++ .cryptoSeal i keyId pii answers :: back →
    let sealing := (s.run crates front).step crates
      (.cryptoSeal i keyId pii answers)
    sealing.2 = .sealed (.ok bundle) →
    ∃ key, keyFile crates sealing.1.dir sealing.1.files keyId = some key ∧
      SealedUnder crates key pii bundle

variable {crates} {s : SharedKeyring ι} {calls : List (KeyringCall ι)}

/-- The states that runs with exclusive changes reach. -/
theorem run_backed (hbase : crates.Canonical) (hsound : s.Sound crates)
    (hbacked : ∀ keyId, (s.view crates).Backed keyId)
    (hcalls : Along crates Exclusive s calls) :
    (s.run crates calls).Sound crates ∧
      ∀ keyId, ((s.run crates calls).view crates).Backed keyId := by
  apply hcalls.keeps fun s =>
    s.Sound crates ∧ ∀ keyId, (s.view crates).Backed keyId
  · rintro s call hexclusive ⟨hsound, hbacked⟩
    exact ⟨hsound.step hbase call, fun keyId =>
      hsound.backed_step hbase (hexclusive keyId) (hbacked keyId)⟩
  · exact ⟨hsound, hbacked⟩

theorem withdrawn_of_sometime_shreds (hbase : crates.Canonical)
    (hsound : s.Sound crates)
    (hcalls : Along crates (fun s call => s.Exclusive call ∧ s.Fresh call) s
      calls)
    {keyId : String} {key : Key} (hkey : key ∈ s.drawn)
    (hshreds : Sometime crates (Shreds crates keyId) s calls) :
    ((s.run crates calls).view crates).Withdrawn keyId key := by
  induction calls generalizing s with
  | nil => cases hshreds
  | cons call rest ih =>
      obtain ⟨⟨hexclusive, _⟩, hrest⟩ := hcalls
      have hsound' := hsound.step hbase call
      have hkey' : key ∈ (s.step crates call).1.drawn :=
        List.mem_append_right _ hkey
      rcases hshreds with ⟨⟨i, removal, rfl⟩, hreply⟩ | hlater
      · have halone := hexclusive keyId i (Or.inr ⟨removal, rfl⟩)
        exact hsound'.withdrawn_run hbase (hrest.imp fun _ _ h => h.2) hkey'
          (withdrawn_of_shreds hreply halone key)
      · exact ih hsound' hrest hkey' hlater

/-- Where a key is minted and shredded only while no other cache holds one for
its id, shreds are final and every bundle's key is on disk. -/
theorem erasure_of_exclusive (hbase : crates.Canonical) (hideal : crates.Ideal)
    (dir : String) {files : Dir} (hfiles : files.names.Nodup)
    (hcalls : Along crates (fun s call => s.Exclusive call ∧ s.Fresh call)
      (initial crates dir files) calls) :
    (initial crates dir files : SharedKeyring ι).ShredsAreFinal crates calls ∧
      (initial crates dir files : SharedKeyring ι).SealsAreBacked crates
        calls := by
  have hstart : (initial crates dir files : SharedKeyring ι).Sound crates :=
    initial_sound dir hfiles
  constructor
  · intro front i keyId pii answers back bundle heq sealing hreply hshreds j
      provider hj
    subst heq
    have hback := (Along.append_iff.mp hcalls).2.2
    have hsound : sealing.1.Sound crates := (hstart.run hbase front).step hbase _
    obtain ⟨rfl, key, hheld, hsealed⟩ := sealedUnder_of_step hreply
    have hkey : key ∈ sealing.1.drawn := hsound.within.2 i _ key hheld
    have hgone := withdrawn_of_sometime_shreds hbase hsound hback hkey hshreds
    have hend : (initial crates dir files).run crates (front ++
        .cryptoSeal i bundle.keyId pii answers :: back) =
          sealing.1.run crates back := run_append _ front _
    rw [hend] at hj ⊢
    rcases Keyring.openPlaintext_cases { provider, files := _ } hbase hideal
        hsealed with ⟨_, hlookup⟩ | ⟨⟨err, hfail⟩, _⟩
    · exact absurd ((held_eq hj _).trans hlookup) (hgone.2 j)
    · exact ⟨err, cryptoOpen_of_error hfail⟩
  · intro front i keyId pii answers back bundle heq sealing hreply
    subst heq
    obtain ⟨hfront, ⟨hexclusive, _⟩, _⟩ := Along.append_iff.mp hcalls
    obtain ⟨hsound, hbacked⟩ := run_backed hbase hstart
      (fun keyId => initial_backed dir files keyId)
      (hfront.imp fun _ _ h => h.1)
    obtain ⟨rfl, key, hheld, hsealed⟩ := sealedUnder_of_step hreply
    refine ⟨key, ?_, hsealed⟩
    exact hsound.backed_step hbase (hexclusive _) (hbacked _) i key hheld

/-- The server is stopped before the command line shreds a key. -/
def shredOffline : List (KeyringCall Bool) :=
  [.reopen true true .ok,
    .cryptoSeal true "subject-123" Value.null (sealAnswers (sampleKey 1)),
    .close true,
    .reopen false false .ok,
    .shred false "subject-123" none]

theorem erasure_of_exclusive_offline :
    let start : SharedKeyring Bool := initial referenceCipher "keys" []
    start.ShredsAreFinal referenceCipher shredOffline ∧
      start.SealsAreBacked referenceCipher shredOffline := by
  apply erasure_of_exclusive referenceCipher_canonical referenceCipher_ideal
    "keys" (by decide)
  have halone : Along referenceCipher (fun s call =>
      ∀ j, j ≠ call.caller → s.providers j = none)
      (initial referenceCipher "keys" []) shredOffline := by
    refine ⟨?_, ?_, ?_, ?_, ?_, trivial⟩
    all_goals
      rintro (_ | _) hj
      · first | rfl | exact absurd rfl hj
      · first | rfl | exact absurd rfl hj
  have hfresh : Along referenceCipher Fresh (initial referenceCipher "keys" [])
      shredOffline := by
    simp [shredOffline, Along, Fresh, KeyringCall.draw, step, initial,
      sealAnswers, mintAnswers, Except.toOption, -Subtype.forall]
  exact (halone.imp fun _ _ h => exclusive_of_alone h).and hfresh

/-- A shred leaves the key in the caches of the other processes. -/
theorem shred_leaves_caches {i j : ι} (hij : i ≠ j)
    {other : KeyringProvider} (hj : s.providers j = some other)
    {keyId : String} {key : Key} (hvalid : validKeyId keyId = true)
    (hother : other.cache.lookup keyId = some key) :
    (s.step crates (.shred j keyId none)).2 = .shredded (.ok true) ∧
      (s.step crates (.shred j keyId none)).1.providers i = s.providers i ∧
      (s.step crates (.shred j keyId none)).1.files.find (keyFileName keyId) =
        none := by
  refine ⟨?_, @perform_providers _ _ crates s (.shred j keyId none) i hij, ?_⟩
  all_goals
    rcases @perform_shred _ _ crates _ _ _ hj keyId none with
      ⟨err, hinvalid, _⟩ | ⟨reason, hremoval, _⟩ | ⟨present, hgone, habsent⟩
  · rw [hvalid] at hinvalid
    cases hinvalid
  · cases hremoval
  · cases present with
    | true => exact congrArg Prod.snd hgone
    | false =>
        rw [(habsent rfl).1] at hother
        cases hother
  · rw [hvalid] at hinvalid
    cases hinvalid
  · cases hremoval
  · have hfiles : (s.step crates (.shred j keyId none)).1.files =
        (s.perform crates (.shred j keyId none)).1.files := rfl
    rw [hfiles, hgone]
    exact (Dir.find_remove _ _ _).trans (if_pos rfl)

end Several

/-! ## A server and the command line -/

/-- The server (`true`) seals a record, the command line shreds its key, and
the server seals another. -/
def shredBeside : List (KeyringCall Bool) :=
  [.reopen true true .ok,
    .cryptoSeal true "subject-123" Value.null (sealAnswers (sampleKey 1)),
    .reopen false false .ok,
    .shred false "subject-123" none,
    .cryptoSeal true "subject-123" Value.null (sealAnswers (sampleKey 2))]

theorem shredBeside_server :
    let start : SharedKeyring Bool := initial referenceCipher "keys" []
    let after n := start.run referenceCipher (shredBeside.take n)
    ∃ bundle provider,
      ((after 1).step referenceCipher (.cryptoSeal true "subject-123" Value.null
          (sealAnswers (sampleKey 1)))).2 = .sealed (.ok bundle) ∧
      (after 2).providers true = some provider ∧
      ((after 3).step referenceCipher (.shred false "subject-123" none)).2 =
        .shredded (.ok true) ∧
      (after 4).providers true = some provider ∧
      (after 4).files.find (keyFileName "subject-123") = none ∧
      provider.autoCreate = true ∧
      provider.cache.lookup "subject-123" = some (sampleKey 1) := by
  intro start after
  have hvalid : validKeyId "subject-123" = true := by decide
  let empty : KeyringProvider := { dir := "keys", cache := ∅, autoCreate := true }
  have hempty : (after 1).providers true = some empty := rfl
  obtain ⟨bundle, hreply₁, hprovider, hfiles⟩ := seal_absent hempty rfl hvalid
    rfl rfl (sampleKey 1) Value.null
  have hfile : keyFile referenceCipher (after 2).dir (after 2).files
      "subject-123" = some (sampleKey 1) := by
    have hput : (after 2).files = _ := hfiles
    rw [hput]
    exact keyFile_put_self referenceCipher_canonical _ _ _ _
  -- the command line reads the key file
  have hsound : (after 2).Sound referenceCipher :=
    Sound.run referenceCipher_canonical (initial_sound "keys" (by decide)) _
  have hopen : KeyringProvider.openDir referenceCipher (after 2).dir false
      (after 2).files .ok = .ok _ := rfl
  have hread := ((openDir_ok hsound.nodup hopen).2 "subject-123").trans hfile
  have hcli : (after 3).providers false = some _ := rfl
  obtain ⟨hreply₂, hkept, hgone⟩ := @shred_leaves_caches Bool _ referenceCipher
    (after 3) true false (by decide) _ hcli _ _ hvalid hread
  have hbeside : (after 3).providers true = (after 2).providers true :=
    @perform_providers _ _ referenceCipher (after 2) (.reopen false false .ok)
      true (by decide)
  exact ⟨bundle, _, hreply₁, hprovider, hreply₂,
    hkept.trans (hbeside.trans hprovider), hgone, rfl, AList.lookup_insert _⟩

/-- The server still opens the record that was shredded, and seals the next
one under a key that no file holds. -/
theorem shred_misses_cached_key :
    let start : SharedKeyring Bool := initial referenceCipher "keys" []
    Along referenceCipher (fun s call => call.Succeeds ∧ s.Fresh call) start
        shredBeside ∧
      ¬ start.ShredsAreFinal referenceCipher shredBeside ∧
      ¬ start.SealsAreBacked referenceCipher shredBeside := by
  intro start
  obtain ⟨bundle, provider, hfirst, hbefore, hshred, hafter, hgone, hauto,
    hlookup⟩ := shredBeside_server
  have hvalid : validKeyId "subject-123" = true := by decide
  obtain ⟨later, hlater, hend, hfiles⟩ := seal_present hafter hauto hvalid
    hlookup (sampleKey 2) Value.null
  refine ⟨?_, fun hfinal => ?_, fun hbacked => ?_⟩
  · have hne : sampleKey 2 ≠ sampleKey 1 := by decide
    simp [shredBeside, Along, KeyringCall.Succeeds, Fresh, KeyringCall.draw,
      step, initial, sealAnswers, mintAnswers, Except.toOption, hne,
      -Subtype.forall, start]
  · obtain ⟨err, herr⟩ := hfinal [.reopen true true .ok] true "subject-123"
      Value.null (sealAnswers (sampleKey 1)) _ bundle rfl hfirst
      (Or.inr (Or.inl ⟨⟨false, none, rfl⟩, hshred⟩)) true provider hend
    obtain ⟨hid, key, hheld, hsealed⟩ := sealedUnder_of_step hfirst
    have hkey : key = sampleKey 1 := by
      have heq := (held_eq hbefore "subject-123").symm.trans hheld
      rw [hlookup] at heq
      exact (Option.some.inj heq).symm
    subst hkey
    rcases Keyring.openPlaintext_cases { provider, files := _ }
        referenceCipher_canonical referenceCipher_ideal hsealed with
      ⟨hopen, _⟩ | ⟨_, hne⟩
    · rw [cryptoOpen_of_plaintext hopen, valueFromSlice_toVec] at herr
      · cases herr
      · exact (referenceSerde_invertsUpTo 127 _).1 (by decide)
    · rw [hid] at hne
      exact hne hlookup
  · obtain ⟨key, hkey, _⟩ := hbacked _ true "subject-123" Value.null
      (sealAnswers (sampleKey 2)) [] later
      (List.take_append_drop 4 shredBeside).symm hlater
    rw [hfiles, keyFile, hgone] at hkey
    cases hkey

end SharedKeyring

end Chainlog
