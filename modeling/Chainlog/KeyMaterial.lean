import Chainlog.CryptoShred

/-!
# Key material

Whether a key is minted is decided by a cache, and minting writes a file.  Key
files are kept by every call that mints where there is no file, and bundles
whose key id is never shredded stay readable.
-/

namespace Chainlog

namespace SharedKeyring

variable {ι : Type} [DecidableEq ι] (crates : CipherCrates)

/-- A key is minted only while its key id has no file. -/
def MintsAbsent (s : SharedKeyring ι) (call : KeyringCall ι) : Prop :=
  ∀ i keyId, s.Mints i keyId call →
    s.files.find (keyFileName keyId) = none

/-- No call but a shred of its key id changes a key file. -/
def KeepsKeyFiles (s : SharedKeyring ι) (calls : List (KeyringCall ι)) : Prop :=
  ∀ front call back keyId node, calls = front ++ call :: back →
    (∀ i removal, call ≠ .shred i keyId removal) →
    (s.run crates front).files.find (keyFileName keyId) = some node →
    ((s.run crates front).step crates call).1.files.find (keyFileName keyId) =
      some node

/-- A bundle under a key id that is never shredded is opened by every provider
that is opened afterwards. -/
def BundlesSurvive (s : SharedKeyring ι) (calls : List (KeyringCall ι)) : Prop :=
  ∀ front i keyId pii answers back bundle,
    calls = front ++ .cryptoSeal i keyId pii answers :: back →
    ((s.run crates front).step crates (.cryptoSeal i keyId pii answers)).2 =
      .sealed (.ok bundle) →
    (∀ call ∈ calls, ∀ j removal, call ≠ .shred j keyId removal) →
    let t := s.run crates calls
    ∀ autoCreate, ∃ provider,
      KeyringProvider.openDir crates t.dir autoCreate t.files .ok =
          .ok provider ∧
        openPlaintext crates { provider, files := t.files : Keyring } bundle =
          .ok (.ok (crates.serde.toVec pii.toDocument))

variable {crates} {s : SharedKeyring ι} {call : KeyringCall ι}
  {calls : List (KeyringCall ι)} {keyId : String} {key : Key}

omit [DecidableEq ι] in
theorem keyFile_of_find_none (hfind : s.files.find (keyFileName keyId) = none) :
    keyFile crates s.dir s.files keyId = none := by
  rw [keyFile, hfind, Option.bind_none]

omit [DecidableEq ι] in
/-- Where caches do not outlive key files, minting where there is no file is
exclusive. -/
theorem exclusiveAt_of_mintsAbsent (hbacked : (s.view crates).Backed keyId)
    (habsent : s.MintsAbsent call)
    (hshred : ∀ i removal, call ≠ .shred i keyId removal) :
    ExclusiveAt keyId s call := by
  rintro i (hmints | ⟨removal, hcall⟩) j _
  · have hnone : keyFile crates s.dir s.files keyId = none :=
      keyFile_of_find_none (habsent i keyId hmints)
    cases hheld : s.held j keyId with
    | none => rfl
    | some found =>
        have hstore : keyFile crates s.dir s.files keyId = some found :=
          hbacked j found hheld
        rw [hnone] at hstore
        cases hstore
  · exact absurd hcall (hshred i removal)

theorem store_step (hbase : crates.Canonical) (hsound : s.Sound crates)
    (habsent : s.MintsAbsent call)
    (hshred : ∀ i removal, call ≠ .shred i keyId removal)
    (hkept : (s.view crates).store keyId = some key) :
    ((s.step crates call).1.view crates).store keyId = some key := by
  have hmint : ∀ i, ¬ s.Mints i keyId call := by
    intro i hmints
    have hnone : (s.view crates).store keyId = none :=
      keyFile_of_find_none (habsent i keyId hmints)
    rw [hnone] at hkept
    cases hkept
  obtain ⟨action, heffect, _, hview⟩ := hsound.effect hbase call
  rw [hview, SharedStore.State.store_apply]
  · exact hkept
  · cases heffect with
    | refill i copy => exact id
    | @mint i id minted hmints hdraw =>
        rintro rfl
        exact hmint i hmints
    | @cut i id left hmints hleft hfault =>
        rintro rfl
        exact hmint i hmints
    | @shred i id removal hcall =>
        rintro rfl
        exact hshred i removal hcall

section Run

/-- The calls of a run that leaves a key id alone. -/
def Spares (keyId : String) (s : SharedKeyring ι) (call : KeyringCall ι) : Prop :=
  s.MintsAbsent call ∧ ∀ i removal, call ≠ .shred i keyId removal

theorem backed_run (hbase : crates.Canonical) (hsound : s.Sound crates)
    (hbacked : (s.view crates).Backed keyId)
    (hcalls : Along crates (Spares keyId) s calls) :
    (s.run crates calls).Sound crates ∧
      ((s.run crates calls).view crates).Backed keyId := by
  apply hcalls.keeps fun s => s.Sound crates ∧ (s.view crates).Backed keyId
  · rintro s call ⟨habsent, hshred⟩ ⟨hsound, hbacked⟩
    exact ⟨hsound.step hbase call, hsound.backed_step hbase
      (exclusiveAt_of_mintsAbsent hbacked habsent hshred) hbacked⟩
  · exact ⟨hsound, hbacked⟩

theorem store_run (hbase : crates.Canonical) (hsound : s.Sound crates)
    (hcalls : Along crates (Spares keyId) s calls)
    (hkept : (s.view crates).store keyId = some key) :
    ((s.run crates calls).view crates).store keyId = some key := by
  refine (hcalls.keeps
    (fun s => s.Sound crates ∧ (s.view crates).store keyId = some key) ?_
    ⟨hsound, hkept⟩).2
  rintro s call ⟨habsent, hshred⟩ ⟨hsound, hkept⟩
  exact ⟨hsound.step hbase call,
    store_step hbase hsound habsent hshred hkept⟩

end Run

/-- Where keys are minted only while there is no file of theirs, key files are
kept, and so are the bundles of every key id that is never shredded. -/
theorem keys_kept_of_mintsAbsent (hbase : crates.Canonical)
    (hideal : crates.Ideal) (dir : String) {files : Dir}
    (hfiles : files.names.Nodup)
    (hcalls : Along crates MintsAbsent (initial crates dir files) calls) :
    (initial crates dir files : SharedKeyring ι).KeepsKeyFiles crates calls ∧
      (initial crates dir files : SharedKeyring ι).BundlesSurvive crates
        calls := by
  have hstart : (initial crates dir files : SharedKeyring ι).Sound crates :=
    initial_sound dir hfiles
  constructor
  · intro front call back keyId node heq hshred hfind
    subst heq
    have habsent := (Along.append_iff.mp hcalls).2.1
    have hmint : ∀ i, ¬ ((initial crates dir files).run crates front).Mints i
        keyId call := by
      intro i hmints
      rw [habsent i keyId hmints] at hfind
      cases hfind
    exact ((perform_transition _ call).find_eq hmint hshred).trans hfind
  · intro front i keyId pii answers back bundle heq hreply hnever t autoCreate
    subst heq
    have hspares := hcalls.and (Along.of_forall hnever)
    obtain ⟨hfront, hseal, hback⟩ := Along.append_iff.mp hspares
    obtain ⟨hsound, hbacked⟩ := backed_run hbase hstart
      (initial_backed dir files keyId) hfront
    obtain ⟨rfl, key, hheld, hsealed⟩ := sealedUnder_of_step hreply
    have hstore := hsound.backed_step hbase
      (exclusiveAt_of_mintsAbsent hbacked hseal.1 hseal.2) hbacked i key hheld
    have hsound' := hsound.step hbase (.cryptoSeal i bundle.keyId pii answers)
    have hkept := store_run hbase hsound' hback hstore
    obtain ⟨provider, hopen, _, hcache⟩ :=
      (hsound'.run hbase back).exists_openDir autoCreate
    have hend : t = (((initial crates dir files).run crates front).step crates
      (.cryptoSeal i bundle.keyId pii answers)).1.run crates back :=
        run_append _ front _
    rw [hend]
    refine ⟨provider, hopen, ?_⟩
    rcases Keyring.openPlaintext_cases { provider, files := _ } hbase hideal
        hsealed with ⟨hplain, _⟩ | ⟨_, hne⟩
    · exact hplain
    · exact absurd ((hcache bundle.keyId).trans hkept) hne

/-- The server makes a key and hands the directory over. -/
def handover : List (KeyringCall Bool) :=
  [.reopen true true .ok,
    .cryptoSeal true "subject-123" Value.null (sealAnswers (sampleKey 1)),
    .close true,
    .reopen false false .ok]

theorem keys_kept_of_mintsAbsent_handover :
    let start : SharedKeyring Bool := initial referenceCipher "keys" []
    start.KeepsKeyFiles referenceCipher handover ∧
      start.BundlesSurvive referenceCipher handover := by
  apply keys_kept_of_mintsAbsent referenceCipher_canonical referenceCipher_ideal
    "keys" (by decide)
  refine ⟨?_, fun _ _ _ => rfl, ?_, ?_, trivial⟩
  all_goals
    rintro i keyId ⟨_, _, ⟨key, hdraw⟩, _⟩
    cases hdraw

/-! ## Minting over a key file -/

theorem mint_replaces {i : ι} {provider : KeyringProvider} {old : Bytes}
    (hi : s.providers i = some provider) (hvalid : validKeyId keyId = true)
    (hlookup : provider.cache.lookup keyId = none)
    (hfile : s.files.find (keyFileName keyId) = some (.readable old)) :
    (s.step crates (.ensure i keyId (mintAnswers key))).1.files =
      s.files.put (keyFileName keyId) (keyText crates key) := by
  have hensure := @Keyring.ensure_absent crates { provider, files := s.files }
    keyId key (mintAnswers key) hvalid hlookup rfl rfl (by simp [hfile])
  simp only [step, perform, use_some hi, hensure]
  rfl

/-- A key that is minted over the file of another takes the bundles of that
other with it. -/
theorem mint_destroys (hbase : crates.Canonical) (hideal : crates.Ideal)
    (hsound : s.Sound crates) (front middle : List (KeyringCall ι)) {i j : ι}
    {pii : Value} {answers : SealAnswers WrapAnswers} {bundle : EncryptedPii}
    {provider : KeyringProvider} {old : Key}
    (hreply : ((s.run crates front).step crates
      (.cryptoSeal i keyId pii answers)).2 = .sealed (.ok bundle))
    (hheld : ((s.run crates front).step crates
      (.cryptoSeal i keyId pii answers)).1.held i keyId = some old)
    (hj : (s.run crates (front ++ .cryptoSeal i keyId pii answers ::
      middle)).providers j = some provider)
    (hvalid : validKeyId keyId = true)
    (hlookup : provider.cache.lookup keyId = none)
    (hfile : (s.run crates (front ++ .cryptoSeal i keyId pii answers ::
      middle)).files.find (keyFileName keyId) =
        some (.readable (keyText crates old)))
    (hne : key ≠ old)
    (hcalls : calls = front ++ .cryptoSeal i keyId pii answers ::
      (middle ++ [.ensure j keyId (mintAnswers key)]))
    (hnever : ∀ call ∈ calls, ∀ j removal, call ≠ .shred j keyId removal) :
    ¬ s.KeepsKeyFiles crates calls ∧ ¬ s.BundlesSurvive crates calls := by
  have hminted := @mint_replaces _ _ crates _ keyId key _ _ _ hj hvalid hlookup
    hfile
  have hsplit : calls = (front ++ .cryptoSeal i keyId pii answers :: middle) ++
      .ensure j keyId (mintAnswers key) :: [] := by
    rw [hcalls, List.append_assoc, List.cons_append]
  constructor
  · intro hkeeps
    have hsame := hkeeps _ _ _ keyId _ hsplit (fun _ _ h => by cases h) hfile
    rw [hminted, Dir.find_put, if_pos rfl, Option.some.injEq,
      FileNode.readable.injEq] at hsame
    exact hne (keyText_injective hbase hsame)
  · intro hsurvive
    obtain ⟨reopened, hopen, hplain⟩ :=
      hsurvive front i keyId pii answers _ bundle hcalls hreply hnever false
    obtain ⟨_, hcache⟩ := openDir_ok (hsound.run hbase calls).nodup hopen
    obtain ⟨rfl, sealing, hsealing, hsealed⟩ := sealedUnder_of_step hreply
    obtain rfl : sealing = old := Option.some.inj (hsealing.symm.trans hheld)
    have hfound : keyFile crates (s.run crates calls).dir
        (s.run crates calls).files bundle.keyId = some key := by
      have hend : s.run crates calls = ((s.run crates (front ++ .cryptoSeal i
          bundle.keyId pii answers :: middle)).step crates
            (.ensure j bundle.keyId (mintAnswers key))).1 := by
        rw [hsplit, run_append]
        rfl
      rw [hend, hminted]
      exact keyFile_put_self hbase _ _ _ _
    rcases Keyring.openPlaintext_cases { provider := reopened, files := _ }
        hbase hideal hsealed with ⟨_, hkey⟩ | ⟨⟨err, hfail⟩, _⟩
    · have hlost := (hcache bundle.keyId).trans hfound
      rw [hkey] at hlost
      exact hne (Option.some.inj hlost).symm
    · rw [hfail] at hplain
      cases hplain

/-- A provider that is opened while no file can be read holds no key. -/
theorem lookup_openDir_unreadable {dir reason : String} {autoCreate : Bool}
    {files : Dir} (hfiles : files.names.Nodup) {answers : OpenAnswers}
    (hfault : ∀ name, answers.read name = some reason)
    {provider : KeyringProvider}
    (hopen : KeyringProvider.openDir crates dir autoCreate files answers =
      .ok provider) : provider.cache.lookup keyId = none := by
  rw [(openDir_ok hfiles hopen).2, loadedKey]
  cases files.find (keyFileName keyId) with
  | none => rfl
  | some node =>
      rw [Option.bind_some, OpenAnswers.node, hfault]
      rfl

def unreadable : OpenAnswers where
  listing := none
  read _ := some "Resource temporarily unavailable (os error 11)"

/-- A key is made, the directory is reopened while its file cannot be read, and
the key is made again. -/
def mintAfterFault : List (KeyringCall Bool) :=
  [.reopen true true .ok,
    .cryptoSeal true "subject-123" Value.null (sealAnswers (sampleKey 1)),
    .reopen true true unreadable,
    .ensure true "subject-123" (mintAnswers (sampleKey 2))]

/-- Two processes make a key for the same key id. -/
def mintBeside : List (KeyringCall Bool) :=
  [.reopen true true .ok,
    .reopen false true .ok,
    .cryptoSeal true "subject-123" Value.null (sealAnswers (sampleKey 1)),
    .ensure false "subject-123" (mintAnswers (sampleKey 2))]

theorem mint_overwrites_key :
    let start : SharedKeyring Bool := initial referenceCipher "keys" []
    (Along referenceCipher Fresh start mintAfterFault ∧
      ¬ start.KeepsKeyFiles referenceCipher mintAfterFault ∧
      ¬ start.BundlesSurvive referenceCipher mintAfterFault) ∧
    (Along referenceCipher (fun s call => call.Succeeds ∧ s.Fresh call) start
        mintBeside ∧
      ¬ start.KeepsKeyFiles referenceCipher mintBeside ∧
      ¬ start.BundlesSurvive referenceCipher mintBeside) := by
  intro start
  have hvalid : validKeyId "subject-123" = true := by decide
  have hne : sampleKey 2 ≠ sampleKey 1 := by decide
  have hsound : start.Sound referenceCipher := initial_sound "keys" (by decide)
  let empty : KeyringProvider := { dir := "keys", cache := ∅, autoCreate := true }
  constructor
  · have hempty : (start.run referenceCipher
        (mintAfterFault.take 1)).providers true = some empty := rfl
    obtain ⟨bundle, hreply, hprovider, hfiles⟩ := seal_absent hempty rfl hvalid
      rfl rfl (sampleKey 1) Value.null
    have hheld := (held_eq hprovider "subject-123").trans (AList.lookup_insert _)
    have hfile : (start.run referenceCipher (mintAfterFault.take 3)).files.find
        (keyFileName "subject-123") =
          some (.readable (keyText referenceCipher (sampleKey 1))) := by
      have hput : (start.run referenceCipher (mintAfterFault.take 3)).files =
        _ := hfiles
      rw [hput, Dir.find_put, if_pos rfl]
    -- the provider that is opened next skips the file
    have hreopened : (start.run referenceCipher
      (mintAfterFault.take 3)).providers true = some _ := rfl
    have hopen : KeyringProvider.openDir referenceCipher "keys" true
      (start.run referenceCipher (mintAfterFault.take 2)).files unreadable =
        .ok _ := rfl
    have hskipped := @lookup_openDir_unreadable _ "subject-123" _ _ _ _
      (hsound.run referenceCipher_canonical (mintAfterFault.take 2)).nodup _
      (fun _ => rfl) _ hopen
    refine ⟨?_, mint_destroys referenceCipher_canonical referenceCipher_ideal
      hsound (mintAfterFault.take 1) [.reopen true true unreadable] hreply hheld
      hreopened hvalid hskipped hfile hne rfl ?_⟩
    · simp [mintAfterFault, Along, Fresh, KeyringCall.draw, step, initial,
        sealAnswers, mintAnswers, Except.toOption, hne, -Subtype.forall, start]
    · simp [mintAfterFault]
  · have hempty : (start.run referenceCipher
        (mintBeside.take 2)).providers true = some empty := rfl
    obtain ⟨bundle, hreply, hprovider, hfiles⟩ := seal_absent hempty rfl hvalid
      rfl rfl (sampleKey 1) Value.null
    have hheld := (held_eq hprovider "subject-123").trans (AList.lookup_insert _)
    have hfile : (start.run referenceCipher (mintBeside.take 3)).files.find
        (keyFileName "subject-123") =
          some (.readable (keyText referenceCipher (sampleKey 1))) := by
      have hput : (start.run referenceCipher (mintBeside.take 3)).files =
        _ := hfiles
      rw [hput, Dir.find_put, if_pos rfl]
    have hother : (start.run referenceCipher (mintBeside.take 3)).providers
        false = some empty :=
      @perform_providers _ _ referenceCipher
        (start.run referenceCipher (mintBeside.take 2)) (.cryptoSeal true
          "subject-123" Value.null (sealAnswers (sampleKey 1))) false (by decide)
    refine ⟨?_, mint_destroys referenceCipher_canonical referenceCipher_ideal
      hsound (mintBeside.take 2) [] hreply hheld hother hvalid rfl hfile hne rfl
      ?_⟩
    · simp [mintBeside, Along, KeyringCall.Succeeds, Fresh, KeyringCall.draw,
        step, initial, sealAnswers, mintAnswers, Except.toOption, hne,
        -Subtype.forall, start]
    · simp [mintBeside]

end SharedKeyring

end Chainlog
