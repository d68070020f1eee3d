import Chainlog.KeyringThreads
import Chainlog.Sealing

/-!
# Racing calls on a provider

What a thread can rely on while other threads use the same provider: a shred
that has returned holds against every later unwrap, and what one thread wraps
another can unwrap, although wrapping takes the lock more than once and any
number of threads may be about to mint the same key.
-/

namespace Chainlog

open AtomicScripts (Script)
open ReadersWriter (Follows Linearizes)
open KeyringProvider Keyring

namespace ProviderCall

/-- The call may mint a key for a key id. -/
def MayMint (autoCreate : Bool) (keyId : String) : ProviderCall → Prop
  | ensure id _ => id = keyId
  | wrapDek id _ _ => autoCreate = true ∧ id = keyId
  | _ => False

/-- The call may destroy the key of a key id. -/
def MayShred (keyId : String) : ProviderCall → Prop
  | shred id _ => id = keyId
  | _ => False

end ProviderCall

namespace KeyringOp

def Mints (keyId : String) : KeyringOp → Prop
  | ensure id _ => id = keyId
  | _ => False

def Shreds (keyId : String) : KeyringOp → Prop
  | shred id _ => id = keyId
  | _ => False

end KeyringOp

variable {crates : CipherCrates} {keyId : String}

/-! ## What scripts ask for -/

section Asks

variable {p : KeyringOp → Prop} {id : String}

theorem asks_ensureScript {answers : MintAnswers}
    {rest : Result Bool → ProviderScript}
    (h : (ensureScript crates id answers rest).Asks p) :
    p (.ensure id answers) ∨ ∃ result, (rest result).Asks p := by
  unfold ensureScript at h
  split_ifs at h with hvalid
  · exact Or.inr ⟨_, h⟩
  · exact h

theorem asks_shredScript {removal : Option String}
    {rest : Result Bool → ProviderScript}
    (h : (shredScript crates id removal rest).Asks p) :
    p (.shred id removal) ∨ ∃ result, (rest result).Asks p := by
  unfold shredScript at h
  split_ifs at h with hvalid
  · exact Or.inr ⟨_, h⟩
  · exact h

/-- What a call asks for, by the kind of call. -/
theorem asks_script {autoCreate : Bool} {call : ProviderCall}
    (h : (script crates autoCreate call).Asks p) :
    match call with
    | .ensure id answers => p (.ensure id answers)
    | .shred id removal => p (.shred id removal)
    | .list => p .list
    | .unwrapDek id _ => p (.get id)
    | .wrapDek id _ answers =>
        autoCreate = true ∧ p (.ensure id answers.mint) ∨ p (.get id) := by
  cases call with
  | ensure id answers =>
      rcases asks_ensureScript h with hop | ⟨_, hnext⟩
      · exact hop
      · exact hnext.elim
  | shred id removal =>
      rcases asks_shredScript h with hop | ⟨_, hnext⟩
      · exact hop
      · exact hnext.elim
  | list =>
      rcases h with hop | ⟨_, hnext⟩
      · exact hop
      · exact hnext.elim
  | unwrapDek id wrapped =>
      rcases h with hop | ⟨_, hnext⟩
      · exact hop
      · exact hnext.elim
  | wrapDek id dek answers =>
      simp only [script] at h
      split_ifs at h with hauto
      · rcases asks_ensureScript h with hop | ⟨ensured, hnext⟩
        · exact Or.inl ⟨hauto, hop⟩
        · cases ensured with
          | error err => exact hnext.elim
          | ok created =>
              rcases hnext with hop | ⟨_, hnext⟩
              · exact Or.inr hop
              · exact hnext.elim
      · rcases h with hop | ⟨_, hnext⟩
        · exact Or.inr hop
        · exact hnext.elim

end Asks

theorem mayMint_of_asks (autoCreate : Bool) (call : ProviderCall)
    (h : (script crates autoCreate call).Asks (KeyringOp.Mints keyId)) :
    call.MayMint autoCreate keyId := by
  have hasks := asks_script h
  cases call with
  | ensure other answers => exact hasks
  | shred other removal => exact hasks
  | list => exact hasks
  | unwrapDek other wrapped => exact hasks
  | wrapDek other dek answers => exact hasks.resolve_right id

theorem mayShred_of_asks (autoCreate : Bool) (call : ProviderCall)
    (h : (script crates autoCreate call).Asks (KeyringOp.Shreds keyId)) :
    call.MayShred keyId := by
  have hasks := asks_script h
  cases call with
  | ensure other answers => exact hasks
  | shred other removal => exact hasks
  | list => exact hasks
  | unwrapDek other wrapped => exact hasks
  | wrapDek other dek answers => exact hasks.elim And.right id

/-! ## What operations keep -/

/-- Neither the cache nor the directory has anything for a key id. -/
def Keyring.Absent (keyring : Keyring) (keyId : String) : Prop :=
  keyring.provider.cache.lookup keyId = none ∧
    keyring.files.find (keyFileName keyId) = none

theorem find_setFile_of_ne {keyring : Keyring} {other : String}
    (hne : keyId ≠ other) (content : Bytes) :
    (keyring.setFile other content).files.find (keyFileName keyId) =
      keyring.files.find (keyFileName keyId) := by
  unfold setFile
  rw [Dir.find_put, if_neg fun h => hne (keyFileName_injective h)]

theorem Keyring.Absent.act {keyring : Keyring} (h : keyring.Absent keyId)
    {op : KeyringOp} (hop : ¬ op.Mints keyId) :
    (keyring.act crates op).1.Absent keyId := by
  obtain ⟨hcache, hfile⟩ := h
  cases op with
  | get id => exact ⟨hcache, hfile⟩
  | list => exact ⟨hcache, hfile⟩
  | ensure id answers =>
      have hne : keyId ≠ id := fun h => hop h.symm
      show (keyring.ensure crates id answers).1.Absent keyId
      rcases keyring.ensure_cases id answers with
        ⟨result, hsame, _⟩ | ⟨key, _, _, _, hminted | ⟨n, reason, _, hcut⟩⟩
      · rw [hsame]
        exact ⟨hcache, hfile⟩
      · rw [hminted]
        refine ⟨?_, (find_setFile_of_ne hne _).trans hfile⟩
        exact (AList.lookup_insert_ne hne).trans hcache
      · rw [hcut]
        exact ⟨hcache, (find_setFile_of_ne hne _).trans hfile⟩
  | shred id removal =>
      have herase : (keyring.provider.cache.erase id).lookup keyId = none := by
        by_cases hid : keyId = id
        · rw [hid]
          exact AList.lookup_erase _ _
        · rw [AList.lookup_erase_ne hid]
          exact hcache
      have hremove : (keyring.removeFile id).files.find (keyFileName keyId) =
          none := by
        unfold removeFile
        rw [Dir.find_remove, hfile, ite_self]
      show (keyring.shred crates id removal).1.Absent keyId
      rcases keyring.shred_cases id removal with
        ⟨err, _, hsame⟩ | ⟨reason, _, hleft⟩ | ⟨present, hgone, _⟩
      · rw [hsame]
        exact ⟨hcache, hfile⟩
      · rw [hleft]
        exact ⟨herase, hfile⟩
      · rw [hgone]
        exact ⟨herase, hremove⟩

theorem Keyring.Absent.get {keyring : Keyring} (h : keyring.Absent keyId) :
    keyring.provider.get crates keyId = .error (.key
      s!"no key for key_id {crates.debug keyId} (shredded or never created)") := by
  unfold KeyringProvider.get
  rw [h.1]

/-- A shred that succeeds leaves nothing for its key id. -/
theorem absent_of_shred {keyring : Keyring} {removal : Option String}
    {present : Bool}
    (h : (keyring.shred crates keyId removal).2 = .ok present) :
    (keyring.shred crates keyId removal).1.Absent keyId := by
  rcases keyring.shred_cases keyId removal with
    ⟨err, _, hsame⟩ | ⟨reason, _, hleft⟩ | ⟨present, hgone, _⟩
  · rw [hsame] at h
    cases h
  · rw [hleft] at h
    cases h
  · rw [hgone]
    refine ⟨AList.lookup_erase _ _, ?_⟩
    show ((keyring.removeFile keyId).files).find (keyFileName keyId) = none
    unfold removeFile
    rw [Dir.find_remove, if_pos rfl]

/-- A cached key stays, whatever is asked for, until it is shredded. -/
theorem lookup_act {keyring : Keyring} {key : Key}
    (h : keyring.provider.cache.lookup keyId = some key) {op : KeyringOp}
    (hop : ¬ op.Shreds keyId) :
    (keyring.act crates op).1.provider.cache.lookup keyId = some key := by
  cases op with
  | get id => exact h
  | list => exact h
  | ensure id answers =>
      show (keyring.ensure crates id answers).1.provider.cache.lookup keyId = _
      rcases keyring.ensure_cases id answers with
        ⟨result, hsame, _⟩ |
          ⟨minted, _, _, habsent, hminted | ⟨n, reason, _, hcut⟩⟩
      · rw [hsame]
        exact h
      · have hne : keyId ≠ id := by
          rintro rfl
          rw [habsent] at h
          cases h
        rw [hminted]
        exact (AList.lookup_insert_ne hne).trans h
      · rw [hcut]
        exact h
  | shred id removal =>
      have herase : (keyring.provider.cache.erase id).lookup keyId =
          some key := by
        rw [AList.lookup_erase_ne fun hid => hop hid.symm]
        exact h
      show (keyring.shred crates id removal).1.provider.cache.lookup keyId = _
      rcases keyring.shred_cases id removal with
        ⟨err, _, hsame⟩ | ⟨reason, _, hleft⟩ | ⟨present, hgone, _⟩
      · rw [hsame]
        exact h
      · rw [hleft]
        exact herase
      · rw [hgone]
        exact herase

theorem get_of_lookup {keyring : Keyring} {key : Key}
    (h : keyring.provider.cache.lookup keyId = some key) :
    keyring.provider.get crates keyId = .ok key := by
  unfold KeyringProvider.get
  rw [h]

theorem lookup_of_get {keyring : Keyring} {key : Key}
    (h : keyring.provider.get crates keyId = .ok key) :
    keyring.provider.cache.lookup keyId = some key := by
  unfold KeyringProvider.get at h
  cases hlookup : keyring.provider.cache.lookup keyId with
  | none =>
      rw [hlookup] at h
      cases h
  | some held =>
      rw [hlookup] at h
      rw [Except.ok.inj h]

/-! ## Calls in real time -/

theorem leaves_unwrapDek {autoCreate : Bool} {wrapped : Bytes}
    {trace : List ((op : KeyringOp) × op.Answer)} {reply : ProviderReply}
    (h : (script crates autoCreate (.unwrapDek keyId wrapped)).Leaves trace
      (.done reply)) :
    ∃ found : Result Key, ⟨.get keyId, found⟩ ∈ trace ∧
      reply = .unwrapped (found >>= fun key =>
        unwrapWithKey crates key wrapped) := by
  simp only [script, getScript] at h
  rcases h with _ | @⟨_, _, found, _, _, h⟩
  cases h
  exact ⟨found, List.mem_singleton_self _, rfl⟩

theorem leaves_shred {autoCreate : Bool} {removal : Option String}
    {present : Bool} {trace : List ((op : KeyringOp) × op.Answer)}
    (h : (script crates autoCreate (.shred keyId removal)).Leaves trace
      (.done (.shredded (.ok present)))) :
    ⟨.shred keyId removal, (.ok present : Result Bool)⟩ ∈ trace := by
  simp only [script, shredScript] at h
  split_ifs at h with hvalid
  · cases h
  · rcases h with _ | @⟨_, _, answer, _, _, h⟩
    cases h
    exact List.mem_singleton_self _

theorem leaves_wrapDek {autoCreate : Bool} {dek wrapped : Bytes}
    {answers : WrapAnswers} {trace : List ((op : KeyringOp) × op.Answer)}
    (h : (script crates autoCreate (.wrapDek keyId dek answers)).Leaves trace
      (.done (.wrapped (.ok wrapped)))) :
    ∃ key : Key, ⟨.get keyId, (.ok key : Result Key)⟩ ∈ trace ∧
      wrapWithKey crates key dek answers.nonce = .ok wrapped := by
  have hlast : ∀ {trace : List ((op : KeyringOp) × op.Answer)},
      (getScript keyId fun found => .done (.wrapped (do
        let key ← found
        wrapWithKey crates key dek answers.nonce))).Leaves trace
        (.done (.wrapped (.ok wrapped))) →
      ∃ key : Key, ⟨.get keyId, (.ok key : Result Key)⟩ ∈ trace ∧
        wrapWithKey crates key dek answers.nonce = .ok wrapped := by
    intro trace h
    simp only [getScript] at h
    rcases h with _ | @⟨_, _, found, _, _, h⟩
    generalize hreply : (Script.done _ : ProviderScript) = last at h
    cases h
    simp only [Script.done.injEq, ProviderReply.wrapped.injEq] at hreply
    obtain ⟨key, rfl, hwrap⟩ := bind_eq_ok.mp hreply.symm
    exact ⟨key, List.mem_singleton_self _, hwrap⟩
  simp only [script] at h
  split_ifs at h with hauto
  · unfold ensureScript at h
    split_ifs at h with hvalid
    · generalize hreply : (Script.done _ : ProviderScript) = last at h
      cases h
      cases hreply
    · rcases h with _ | @⟨_, _, ensured, _, _, h⟩
      cases ensured with
      | error err =>
          generalize hreply : (Script.done _ : ProviderScript) = last at h
          cases h
          cases hreply
      | ok created =>
          obtain ⟨key, hkey, hwrap⟩ := hlast h
          exact ⟨key, List.mem_cons_of_mem _ hkey, hwrap⟩
  · exact hlast h

variable {κ : Type} [DecidableEq κ]

/-- Once a shred has returned, no unwrap that starts later finds the key,
unless a call that may mint it again was in progress during the shred or has
started since. -/
theorem unwrap_after_shred (crates : CipherCrates) (keyring : Keyring)
    (s : ProviderThreads κ) (keyId : String) (removal : Option String)
    (present : Bool) (wrapped : Bytes) (reply : ProviderReply)
    (hrun : ReadersWriter.Reaches (task crates keyring.provider.autoCreate)
      (ReadersWriter.start keyring) s)
    (hfollows : Follows
      (ProviderCall.MayMint keyring.provider.autoCreate keyId) s.history
      (.shred keyId removal) (.shredded (.ok present))
      (.unwrapDek keyId wrapped) reply) :
    reply = .unwrapped (.error (.key
      s!"no key for key_id {crates.debug keyId} (shredded or never created)")) := by
  obtain ⟨history, hlinear⟩ := keyring_linearizable crates keyring s hrun
  obtain ⟨trace, trace', hshred, hunwrap, hanswers⟩ :=
    hlinear.answers_of_follows (mayMint_of_asks _) hfollows
  obtain ⟨found, hfound, rfl⟩ := leaves_unwrapDek hunwrap
  obtain ⟨before, ops, hops, hgone, hget⟩ :=
    hanswers _ _ _ _ (leaves_shred hshred) hfound
  have hkeep : ∀ op ∈ ops, ∀ keyring : Keyring, keyring.Absent keyId →
      (keyring.act crates op).1.Absent keyId :=
    fun op hop _ habsent => habsent.act (hops op hop)
  have habsent := AtomicScripts.perform_keeps hkeep
    (absent_of_shred hgone.symm)
  have hnone : found = .error _ := hget.trans habsent.get
  rw [hnone]
  rfl

/-- A provider that holds a key for a subject. -/
def heldKeyring (key : Key) : Keyring :=
  emptyKeyring.setCache (emptyKeyring.provider.cache.insert "subject" key)

theorem unwrap_after_shred_subject :
    ∃ (s : ProviderThreads Unit) (reply : ProviderReply),
      s.history.getLast? = some (.returned () reply) ∧
        ∃ keyId, keyId = "subject" ∧ reply = .unwrapped (.error (.key
          s!"no key for key_id {referenceCipher.debug keyId} (shredded or never created)")) := by
  let keyring := heldKeyring (SharedKeyring.sampleKey 7)
  let shred : ProviderCall := .shred "subject" none
  let unwrap : ProviderCall := .unwrapDek "subject" []
  let code := task referenceCipher true
  let shredding : ProviderThreads Unit :=
    (ReadersWriter.start keyring).begin () shred (code shred)
  let shredded := (fun s => s.go ())^[7] shredding
  let unwrapping := shredded.begin () unwrap (code unwrap)
  have hrun : ReadersWriter.Reaches code (ReadersWriter.start keyring)
      ((fun s => s.go ())^[4] unwrapping) :=
    (((Relation.ReflTransGen.single (.call _ () shred rfl)).trans
      (ReadersWriter.reaches_iterate_go shredding () 7)).tail
        (.call _ () unwrap rfl)).trans
          (ReadersWriter.reaches_iterate_go unwrapping () 4)
  refine ⟨(fun s => s.go ())^[4] unwrapping, _, rfl, "subject", rfl, ?_⟩
  refine unwrap_after_shred referenceCipher keyring _ "subject" none true [] _
    hrun ?_
  refine ⟨[], (), [], [], (), [], [], rfl, by simp, by simp, ?_, id, id,
    by simp⟩
  intro before k other after hpast
  simp at hpast

/-- What one thread wraps another unwraps, however many threads were about to
mint the key, unless a shred of it was in progress or has started since. -/
theorem unwrap_after_wrap (crates : CipherCrates) (keyring : Keyring)
    (s : ProviderThreads κ) (keyId : String) (dek wrapped : Bytes)
    (answers : WrapAnswers) (reply : ProviderReply) (hideal : crates.Ideal)
    (hrun : ReadersWriter.Reaches (task crates keyring.provider.autoCreate)
      (ReadersWriter.start keyring) s)
    (hfollows : Follows (ProviderCall.MayShred keyId) s.history
      (.wrapDek keyId dek answers) (.wrapped (.ok wrapped))
      (.unwrapDek keyId wrapped) reply) :
    reply = .unwrapped (.ok dek) := by
  obtain ⟨history, hlinear⟩ := keyring_linearizable crates keyring s hrun
  obtain ⟨trace, trace', hwraps, hunwraps, hanswers⟩ :=
    hlinear.answers_of_follows (mayShred_of_asks _) hfollows
  obtain ⟨key, hkey, hwrap⟩ := leaves_wrapDek hwraps
  obtain ⟨found, hfound, rfl⟩ := leaves_unwrapDek hunwraps
  obtain ⟨before, ops, hops, hheld, hget⟩ := hanswers _ _ _ _ hkey hfound
  have hlookup := lookup_of_get hheld.symm
  have hkeep : ∀ op ∈ ops, ∀ keyring : Keyring,
      keyring.provider.cache.lookup keyId = some key →
        (keyring.act crates op).1.provider.cache.lookup keyId = some key :=
    fun op hop _ hlookup => lookup_act hlookup (hops op hop)
  have hkept := AtomicScripts.perform_keeps hkeep hlookup
  have hsame : found = .ok key := hget.trans (get_of_lookup hkept)
  rw [hsame, ← unwrapWithKey_wrapWithKey hideal hwrap]
  rfl

theorem unwrap_after_wrap_subject :
    ∃ (s : ProviderThreads Unit) (reply : ProviderReply),
      s.history.getLast? = some (.returned () reply) ∧
        reply = .unwrapped (.ok [1]) := by
  let keyring := heldKeyring (SharedKeyring.sampleKey 7)
  let code := task referenceCipher true
  let wrapping : ProviderThreads Unit :=
    (ReadersWriter.start keyring).begin () wrapSubject (code wrapSubject)
  let ready := (fun s => s.go ())^[7] wrapping
  obtain ⟨wrapped, hwrapped⟩ : ∃ wrapped, ready.history =
      [.called () wrapSubject, .returned () (.wrapped (.ok wrapped))] :=
    ⟨_, rfl⟩
  let unwrap : ProviderCall := .unwrapDek "subject" wrapped
  let unwrapping := ready.begin () unwrap (code unwrap)
  have hrun : ReadersWriter.Reaches code (ReadersWriter.start keyring)
      ((fun s => s.go ())^[4] unwrapping) :=
    (((Relation.ReflTransGen.single (.call _ () wrapSubject rfl)).trans
      (ReadersWriter.reaches_iterate_go wrapping () 7)).tail
        (.call _ () unwrap rfl)).trans
          (ReadersWriter.reaches_iterate_go unwrapping () 4)
  obtain ⟨reply, hhistory⟩ : ∃ reply, ((fun s => s.go ())^[4] unwrapping).history =
      (ready.history ++ [.called () unwrap]) ++ [.returned () reply] :=
    ⟨_, rfl⟩
  refine ⟨(fun s => s.go ())^[4] unwrapping, reply, ?_, ?_⟩
  · rw [hhistory, List.getLast?_concat]
  refine unwrap_after_wrap referenceCipher keyring _ "subject" [1] wrapped
    (SharedKeyring.sealAnswers (SharedKeyring.sampleKey 7)).wrap reply
    referenceCipher_ideal hrun ?_
  rw [hhistory, hwrapped]
  refine ⟨[], (), [], [], (), [], [], rfl, by simp, by simp, ?_, id, id,
    by simp⟩
  intro before k other after hpast
  simp at hpast

end Chainlog
