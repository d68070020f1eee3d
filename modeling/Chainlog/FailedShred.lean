import Chainlog.CryptoShred

/-!
# Shreds that fail

The key leaves the cache before its file is removed.  When the removal fails,
the cache has no key and the file is still there.
-/

namespace Chainlog

open KeyringProvider

theorem KeyringProvider.mem_list {provider : KeyringProvider} {keyId : String} :
    keyId ∈ provider.list ↔ (provider.cache.lookup keyId).isSome := by
  unfold KeyringProvider.list
  rw [List.mem_insertionSort, AList.lookup_isSome]
  rfl

theorem Keyring.unwrapDek_congr {crates : CipherCrates} {a b : Keyring}
    {keyId : String}
    (hlookup : a.provider.cache.lookup keyId = b.provider.cache.lookup keyId)
    (wrapped : Bytes) :
    a.unwrapDek crates keyId wrapped = b.unwrapDek crates keyId wrapped := by
  unfold Keyring.unwrapDek KeyringProvider.get
  rw [hlookup]

theorem Keyring.shred_invalid {crates : CipherCrates} {keyring : Keyring}
    {keyId : String} (hinvalid : validKeyId keyId = false)
    (removal : Option String) :
    keyring.shred crates keyId removal =
      (keyring, .error (invalidKeyId crates keyId)) := by
  unfold Keyring.shred
  rw [hinvalid]
  rfl

namespace SharedKeyring

section Settled

variable (crates : CipherCrates)

/-- A key is as usable as before, or gone from memory and disk. -/
def KeptOrGone (before after : SharedKeyring Unit) (keyId : String) : Prop :=
  (after = before ∧ ∃ key, after.held () keyId = some key ∧
      keyFile crates after.dir after.files keyId = some key) ∨
    (after.held () keyId = none ∧
      keyFile crates after.dir after.files keyId = none)

/-- A provider that is opened again gives the same answers about a key id. -/
def ReopensAlike (s : SharedKeyring Unit) (keyId : String) : Prop :=
  ∀ provider, s.providers () = some provider → ∀ autoCreate reopened,
    openDir crates s.dir autoCreate s.files .ok = .ok reopened →
      let before : Keyring := { provider, files := s.files }
      let after : Keyring := { provider := reopened, files := s.files }
      (keyId ∈ reopened.list ↔ keyId ∈ provider.list) ∧
        ∀ wrapped, after.unwrapDek crates keyId wrapped =
          before.unwrapDek crates keyId wrapped

/-- A key that is reported as absent is not there later, unless a call makes
that key again. -/
def StaysAbsent (s : SharedKeyring Unit) (keyId : String) : Prop :=
  s.held () keyId = none → ∀ calls key,
    Along crates (fun s call => s.Mints () keyId call → call.draw ≠ some key) s
        calls →
      (s.run crates calls).held () keyId ≠ some key

/-- A failed shred leaves no half-destroyed key. -/
structure Settled (before after : SharedKeyring Unit) (keyId : String) :
    Prop where
  keptOrGone : KeptOrGone crates before after keyId
  reopensAlike : after.ReopensAlike crates keyId
  staysAbsent : after.StaysAbsent crates keyId

end Settled

variable {crates : CipherCrates} {s : SharedKeyring Unit}

/-- A key that no call of a run makes is not there at its end. -/
theorem withdrawn_of_unminted (hbase : crates.Canonical)
    (hfiles : s.files.names.Nodup) {keyId : String} {key : Key}
    (hgone : (s.view crates).Withdrawn keyId key)
    {calls : List (KeyringCall Unit)}
    (hcalls : Along crates
      (fun s call => s.Mints () keyId call → call.draw ≠ some key) s calls) :
    ((s.run crates calls).view crates).Withdrawn keyId key := by
  induction calls generalizing s with
  | nil => exact hgone
  | cons call rest ih =>
      obtain ⟨hcall, hrest⟩ := hcalls
      have htransition : Transition crates s call (s.perform crates call).1 :=
        perform_transition s call
      obtain ⟨action, heffect, hhonest, hview⟩ :=
        htransition.effect hbase hfiles
      have hafter : ((s.step crates call).1.view crates).Withdrawn keyId key := by
        have hstep : (s.step crates call).1.view crates =
            (s.view crates).apply action := hview
        rw [hstep]
        apply hgone.apply hhonest
        intro hwrites hbrings
        have hdraw := heffect.brings hbrings
        cases heffect with
        | refill i copy => exact hwrites
        | @mint i id key' hmints _ =>
            obtain rfl : id = keyId := hwrites
            exact hcall hmints hdraw
        | @cut i id left hmints _ _ =>
            obtain rfl : id = keyId := hwrites
            exact hcall hmints hdraw
        | shred => cases hbrings
      exact ih (htransition.nodup hfiles) hafter hrest

/-- A failed shred that leaves memory and disk alike at a key id has emptied
both. -/
theorem settled_of_absent (hbase : crates.Canonical)
    (hfiles : s.files.names.Nodup) {keyId : String}
    (hheld : s.held () keyId = none)
    (hfile : keyFile crates s.dir s.files keyId = none)
    (before : SharedKeyring Unit) : Settled crates before s keyId where
  keptOrGone := Or.inr ⟨hheld, hfile⟩
  reopensAlike := by
    intro provider hi autoCreate reopened hopen
    have hlookup : reopened.cache.lookup keyId =
        provider.cache.lookup keyId := by
      rw [(openDir_ok hfiles hopen).2, loadedKey_ok, hfile, ← held_eq hi, hheld]
    refine ⟨?_, fun wrapped => Keyring.unwrapDek_congr hlookup wrapped⟩
    rw [mem_list, mem_list, hlookup]
  staysAbsent := by
    intro _ calls key hcalls
    have hgone : (s.view crates).Withdrawn keyId key := by
      constructor
      · exact fun h => absurd (hfile.symm.trans h) (by simp)
      · exact fun _ h => absurd (hheld.symm.trans h) (by simp)
    exact (withdrawn_of_unminted hbase hfiles hgone hcalls).2 ()

/-- A shred whose removal fails empties the cache and leaves the files. -/
theorem step_of_failedShred {keyId reason : String}
    (hfails : (s.step crates (.shred () keyId (some reason))).2 =
      .shredded (.error (.io reason))) :
    let after := (s.step crates (.shred () keyId (some reason))).1
    after.held () keyId = none ∧ after.dir = s.dir ∧ after.files = s.files := by
  have hreply : (s.perform crates (.shred () keyId (some reason))).2 =
      .shredded (.error (.io reason)) := hfails
  have hstep : (s.step crates (.shred () keyId (some reason))).1.held () keyId =
        (s.perform crates (.shred () keyId (some reason))).1.held () keyId ∧
      (s.step crates (.shred () keyId (some reason))).1.dir =
        (s.perform crates (.shred () keyId (some reason))).1.dir ∧
      (s.step crates (.shred () keyId (some reason))).1.files =
        (s.perform crates (.shred () keyId (some reason))).1.files :=
    ⟨rfl, rfl, rfl⟩
  simp only [hstep]
  cases hi : s.providers () with
  | none =>
      simp only [perform, use, hi] at hreply
      cases hreply
  | some provider =>
      rcases @perform_shred _ _ crates _ _ _ hi keyId (some reason) with
        ⟨err, hinvalid, hsame⟩ | ⟨reason', hremoval, hleft⟩ |
          ⟨present, hgone, _⟩
      · -- an id that is refused is refused before any file is touched
        simp only [perform, use_some hi, Keyring.shred_invalid hinvalid]
          at hreply
        cases hreply
      · rw [hleft]
        refine ⟨?_, rfl, rfl⟩
        rw [held_eq (providers_set () _)]
        exact AList.lookup_erase _ _
      · rw [hgone] at hreply
        cases hreply

/-- A shred whose removal fails is settled exactly when the file that it leaves
holds no readable key. -/
theorem failedShred_settled_iff (hbase : crates.Canonical)
    (hfiles : s.files.names.Nodup) {keyId reason : String}
    (hfails : (s.step crates (.shred () keyId (some reason))).2 =
      .shredded (.error (.io reason))) :
    Settled crates s (s.step crates (.shred () keyId (some reason))).1 keyId ↔
      keyFile crates s.dir s.files keyId = none := by
  obtain ⟨hheld, hdir, hsame⟩ := step_of_failedShred hfails
  constructor
  · intro hsettled
    rcases hsettled.keptOrGone with ⟨_, key, hkey, _⟩ | ⟨_, hgone⟩
    · rw [hheld] at hkey
      cases hkey
    · rwa [hdir, hsame] at hgone
  · intro hfile
    apply settled_of_absent hbase _ hheld
    · rw [hdir, hsame]
      exact hfile
    · rw [hsame]
      exact hfiles

/-- A key file that nobody can read cannot be removed either. -/
theorem failedShred_settled_unreadable :
    let s : SharedKeyring Unit := (initial referenceCipher "keys"
      [(keyFileName "subject-123", .unreadable "Permission denied")]).run
        referenceCipher [.reopen () false .ok]
    Settled referenceCipher s (s.step referenceCipher
        (.shred () "subject-123" (some "Permission denied"))).1 "subject-123" ↔
      keyFile referenceCipher s.dir s.files "subject-123" = none := by
  intro s
  apply failedShred_settled_iff referenceCipher_canonical
  · decide
  · rfl

/-- A key whose file survives a failed shred is back when the directory is
opened again. -/
theorem failedShred_reopened (hfiles : s.files.names.Nodup)
    {provider : KeyringProvider} (hi : s.providers () = some provider)
    {keyId : String} {key : Key} (hvalid : validKeyId keyId = true)
    (hkey : keyFile crates s.dir s.files keyId = some key) (reason : String)
    (autoCreate : Bool) :
    let failed := s.step crates (.shred () keyId (some reason))
    failed.2 = .shredded (.error (.io reason)) ∧
      failed.1.held () keyId = none ∧
      (failed.1.step crates (.reopen () autoCreate .ok)).1.held () keyId =
        some key := by
  intro failed
  have hfails : failed.2 = .shredded (.error (.io reason)) := by
    obtain ⟨node, hfind, _⟩ := Option.bind_eq_some_iff.mp hkey
    have hreply : failed.2 = (s.perform crates
      (.shred () keyId (some reason))).2 := rfl
    rw [hreply]
    simp only [perform, use_some hi, Keyring.shred, hvalid, hfind]
    rfl
  obtain ⟨hheld, hdir, hsame⟩ := step_of_failedShred hfails
  refine ⟨hfails, hheld, ?_⟩
  have hleft : keyFile crates failed.1.dir failed.1.files keyId = some key := by
    rw [← hkey, ← hdir, ← hsame]
  have hopen : openDir crates failed.1.dir autoCreate failed.1.files .ok =
      .ok _ := rfl
  have hread := (openDir_ok (hsame ▸ hfiles) hopen).2 keyId
  rw [loadedKey_ok, hleft] at hread
  have hstep : (failed.1.step crates (.reopen () autoCreate .ok)).1.held ()
      keyId = (failed.1.hold () (some _)).held () keyId := rfl
  rw [hstep, held_eq (providers_hold () _), hread]

/-- A record is sealed under a new key. -/
def sealSubject : List (KeyringCall Unit) :=
  [.reopen () true .ok,
    .cryptoSeal () "subject-123" Value.null (sealAnswers (sampleKey 1))]

/-- The key of the subject is reported as absent, and is back after the
directory is opened again. -/
theorem failedShred_key_returns :
    let s : SharedKeyring Unit :=
      (initial referenceCipher "keys" []).run referenceCipher sealSubject
    let failed := s.step referenceCipher
      (.shred () "subject-123" (some "Permission denied"))
    failed.2 = .shredded (.error (.io "Permission denied")) ∧
      failed.1.held () "subject-123" = none ∧
      (failed.1.step referenceCipher (.reopen () true .ok)).1.held ()
        "subject-123" = some (sampleKey 1) ∧
      ¬ Settled referenceCipher s failed.1 "subject-123" := by
  intro s failed
  have hvalid : validKeyId "subject-123" = true := by decide
  let opened : SharedKeyring Unit :=
    (initial referenceCipher "keys" []).run referenceCipher
      [.reopen () true .ok]
  have hopened : opened.providers () = some _ := rfl
  obtain ⟨bundle, _, hi, hfiles⟩ := seal_absent hopened rfl hvalid rfl rfl
    (sampleKey 1) Value.null
  have hsound : s.Sound referenceCipher :=
    Sound.run referenceCipher_canonical (initial_sound "keys" (by decide)) _
  have hkey : keyFile referenceCipher s.dir s.files "subject-123" =
      some (sampleKey 1) := by
    have hput : s.files = _ := hfiles
    rw [hput]
    exact keyFile_put_self referenceCipher_canonical _ _ _ _
  obtain ⟨hfails, hheld, hback⟩ := @failedShred_reopened referenceCipher s
    hsound.nodup _ hi _ _ hvalid hkey "Permission denied" true
  refine ⟨hfails, hheld, hback, fun hsettled => ?_⟩
  obtain ⟨_, hdir, hsame⟩ := step_of_failedShred hfails
  rcases hsettled.keptOrGone with ⟨_, key, hfound, _⟩ | ⟨_, hgone⟩
  · rw [hheld] at hfound
    cases hfound
  · rw [hdir, hsame, hkey] at hgone
    cases hgone

end SharedKeyring

end Chainlog
