import Chainlog.CryptoShred
import Chainlog.Foundation.SectionAtomicity

/-!
# Threads that share a key provider

Every request handler and the writer thread use one provider.  Its cache is
behind a readers-writer lock, and its key files are touched only under that
lock.  `ensure` looks for the key twice, first as a reader and then as the
only writer; wrapping a data key takes the lock anew for every part.
-/

namespace Chainlog

open ReadersWriter (Task)
open AtomicScripts (Script)

/-- A call on a provider, with what the environment answers to it. -/
inductive ProviderCall where
  | ensure (keyId : String) (answers : MintAnswers)
  | shred (keyId : String) (removal : Option String)
  | list
  | wrapDek (keyId : String) (dek : Bytes) (answers : WrapAnswers)
  | unwrapDek (keyId : String) (wrapped : Bytes)

inductive ProviderReply where
  | ensured (result : Result Bool)
  | shredded (result : Result Bool)
  | listed (ids : List String)
  | wrapped (result : Result Bytes)
  | unwrapped (result : Result Bytes)

namespace KeyringProvider

variable (crates : CipherCrates)

/-! ## The code under the lock -/

/-- `ensure` once it is the only writer: the key may be there by now. -/
def mintTask (keyId : String) (answers : MintAnswers)
    (next : Result Bool → Task Keyring ProviderReply none) :
    Task Keyring ProviderReply (some .exclusive) :=
  .look fun keyring =>
    if (keyring.provider.cache.lookup keyId).isSome then
      .release (next (.ok false))
    else
      match randomBytes answers.draw with
      | .error err => .release (next (.error err))
      | .ok key =>
          .look fun keyring =>
            let (files, written) := keyring.files.write (keyFileName keyId)
              (asBytes (crates.base64Encode key.val)) answers.write
            .change (fun keyring => { keyring with files })
              (match written with
              | .error err => .release (next (.error err))
              | .ok () =>
                  .change (fun keyring => keyring.setCache
                    (keyring.provider.cache.insert keyId key))
                    (.release (next (.ok true))))

def ensureTask (keyId : String) (answers : MintAnswers)
    (next : Result Bool → Task Keyring ProviderReply none) :
    Task Keyring ProviderReply none :=
  if !validKeyId keyId then next (.error (invalidKeyId crates keyId))
  else
    .acquire .shared (.look fun keyring =>
      if (keyring.provider.cache.lookup keyId).isSome then
        .release (next (.ok false))
      else
        .release (.acquire .exclusive (mintTask crates keyId answers next)))

def getTask (keyId : String)
    (next : Result Key → Task Keyring ProviderReply none) :
    Task Keyring ProviderReply none :=
  .acquire .shared (.look fun keyring =>
    .release (next (keyring.provider.get crates keyId)))

/-- `shred` once it is the only writer: the key leaves the cache before its
file is removed. -/
def destroyTask (keyId : String) (removal : Option String)
    (next : Result Bool → Task Keyring ProviderReply none) :
    Task Keyring ProviderReply (some .exclusive) :=
  .look fun keyring =>
    let had := (keyring.provider.cache.lookup keyId).isSome
    .change (fun keyring =>
        keyring.setCache (keyring.provider.cache.erase keyId))
      (.look fun keyring =>
        let fileExisted := (keyring.files.find (keyFileName keyId)).isSome
        if fileExisted then
          match removal with
          | some reason => .release (next (.error (.io reason)))
          | none =>
              .change (fun keyring => keyring.removeFile keyId)
                (.release (next (.ok (had || fileExisted))))
        else .release (next (.ok (had || fileExisted))))

def shredTask (keyId : String) (removal : Option String)
    (next : Result Bool → Task Keyring ProviderReply none) :
    Task Keyring ProviderReply none :=
  if !validKeyId keyId then next (.error (invalidKeyId crates keyId))
  else .acquire .exclusive (destroyTask keyId removal next)

def listTask (next : List String → Task Keyring ProviderReply none) :
    Task Keyring ProviderReply none :=
  .acquire .shared (.look fun keyring => .release (next keyring.provider.list))

/-- The code of a call on a provider that was opened with `auto_create`. -/
def task (autoCreate : Bool) :
    ProviderCall → Task Keyring ProviderReply none
  | .ensure keyId answers =>
      ensureTask crates keyId answers fun result => .done (.ensured result)
  | .shred keyId removal =>
      shredTask crates keyId removal fun result => .done (.shredded result)
  | .list => listTask fun ids => .done (.listed ids)
  | .wrapDek keyId dek answers =>
      let wrap : Task Keyring ProviderReply none :=
        getTask crates keyId fun found => .done (.wrapped (do
          let key ← found
          wrapWithKey crates key dek answers.nonce))
      if autoCreate then
        ensureTask crates keyId answers.mint fun ensured =>
          match ensured with
          | .error err => .done (.wrapped (.error err))
          | .ok _ => wrap
      else wrap
  | .unwrapDek keyId wrapped =>
      getTask crates keyId fun found => .done (.unwrapped (do
        let key ← found
        unwrapWithKey crates key wrapped))

end KeyringProvider

/-! ## The operations -/

/-- What happens at one moment. -/
inductive KeyringOp where
  | ensure (keyId : String) (answers : MintAnswers)
  | get (keyId : String)
  | shred (keyId : String) (removal : Option String)
  | list

def KeyringOp.Answer : KeyringOp → Type
  | ensure _ _ => Result Bool
  | get _ => Result Key
  | shred _ _ => Result Bool
  | list => List String

namespace Keyring

variable (crates : CipherCrates)

def act (keyring : Keyring) : (op : KeyringOp) → Keyring × op.Answer
  | .ensure keyId answers => keyring.ensure crates keyId answers
  | .get keyId => (keyring, keyring.provider.get crates keyId)
  | .shred keyId removal => keyring.shred crates keyId removal
  | .list => (keyring, keyring.provider.list)

abbrev ProviderScript := Script KeyringOp KeyringOp.Answer ProviderReply

/-- A key id that does not map onto a key file is refused without a look at
the keyring. -/
def ensureScript (keyId : String) (answers : MintAnswers)
    (next : Result Bool → ProviderScript) : ProviderScript :=
  if !validKeyId keyId then next (.error (invalidKeyId crates keyId))
  else .perform (.ensure keyId answers) next

def getScript (keyId : String) (next : Result Key → ProviderScript) :
    ProviderScript := .perform (.get keyId) next

def shredScript (keyId : String) (removal : Option String)
    (next : Result Bool → ProviderScript) : ProviderScript :=
  if !validKeyId keyId then next (.error (invalidKeyId crates keyId))
  else .perform (.shred keyId removal) next

/-- What a call does: one operation, or `ensure` and then `get` where a data
key is wrapped. -/
def script (autoCreate : Bool) : ProviderCall → ProviderScript
  | .ensure keyId answers =>
      ensureScript crates keyId answers fun result => .done (.ensured result)
  | .shred keyId removal =>
      shredScript crates keyId removal fun result => .done (.shredded result)
  | .list => .perform .list fun ids => .done (.listed ids)
  | .wrapDek keyId dek answers =>
      let wrap : ProviderScript := getScript keyId fun found =>
        .done (.wrapped (do
          let key ← found
          wrapWithKey crates key dek answers.nonce))
      if autoCreate then
        ensureScript crates keyId answers.mint fun ensured =>
          match ensured with
          | .error err => .done (.wrapped (.error err))
          | .ok _ => wrap
      else wrap
  | .unwrapDek keyId wrapped => getScript keyId fun found =>
      .done (.unwrapped (do
        let key ← found
        unwrapWithKey crates key wrapped))

end Keyring

/-! ## The code implements the operations -/

open KeyringProvider Keyring
open ReadersWriter (Implements)

variable {crates : CipherCrates}

theorem settle_mintTask {keyId : String} (hvalid : validKeyId keyId = true)
    (answers : MintAnswers)
    (next : Result Bool → Task Keyring ProviderReply none)
    (keyring : Keyring) :
    (mintTask crates keyId answers next).settle keyring =
      ((keyring.ensure crates keyId answers).1,
        next (keyring.ensure crates keyId answers).2) := by
  unfold mintTask ensure
  simp only [hvalid, Bool.not_true, Bool.false_eq_true, if_false, Task.settle]
  by_cases hcached : (keyring.provider.cache.lookup keyId).isSome = true
  · simp only [hcached, if_true, Task.settle]
  · simp only [hcached, if_false, Bool.false_eq_true]
    cases randomBytes answers.draw with
    | error err => rfl
    | ok key =>
        simp only [Task.settle]
        cases hwritten : (keyring.files.write (keyFileName keyId)
            (asBytes (crates.base64Encode key.val)) answers.write).2 with
        | error err => rfl
        | ok done => rfl

theorem settle_destroyTask {keyId : String} (hvalid : validKeyId keyId = true)
    (removal : Option String)
    (next : Result Bool → Task Keyring ProviderReply none)
    (keyring : Keyring) :
    (destroyTask keyId removal next).settle keyring =
      ((keyring.shred crates keyId removal).1,
        next (keyring.shred crates keyId removal).2) := by
  unfold destroyTask shred
  simp only [hvalid, Bool.not_true, Bool.false_eq_true, if_false, Task.settle]
  have hfiles : (keyring.setCache (keyring.provider.cache.erase keyId)).files =
      keyring.files := rfl
  rw [hfiles]
  by_cases hfile : (keyring.files.find (keyFileName keyId)).isSome = true
  · simp only [hfile, if_true]
    cases removal with
    | some reason => rfl
    | none => rfl
  · simp only [hfile, if_false, Bool.false_eq_true]
    rfl

section Implements

variable {keyId : String}

theorem implements_get {next : Result Key → Task Keyring ProviderReply none}
    {rest : Result Key → ProviderScript}
    (hnext : ∀ found, Implements (act crates) (next found) (rest found)) :
    Implements (act crates) (getTask crates keyId next)
      (getScript keyId rest) :=
  .single (fun _ => rfl) hnext

theorem implements_shred {next : Result Bool → Task Keyring ProviderReply none}
    {rest : Result Bool → ProviderScript} (removal : Option String)
    (hnext : ∀ result, Implements (act crates) (next result) (rest result)) :
    Implements (act crates) (shredTask crates keyId removal next)
      (shredScript crates keyId removal rest) := by
  unfold shredTask shredScript
  by_cases hvalid : validKeyId keyId = true
  · simp only [hvalid, Bool.not_true, Bool.false_eq_true, if_false]
    exact .single (settle_destroyTask hvalid removal next) hnext
  · simp only [hvalid, Bool.not_false, if_true]
    exact hnext _

/-- The reader's look decides only where the key is there; otherwise the
operation is left to the writer, who looks again. -/
theorem implements_ensure {next : Result Bool → Task Keyring ProviderReply none}
    {rest : Result Bool → ProviderScript} (answers : MintAnswers)
    (hnext : ∀ result, Implements (act crates) (next result) (rest result)) :
    Implements (act crates) (ensureTask crates keyId answers next)
      (ensureScript crates keyId answers rest) := by
  unfold ensureTask ensureScript
  by_cases hvalid : validKeyId keyId = true
  · simp only [hvalid, Bool.not_true, Bool.false_eq_true, if_false]
    have hmint : Implements (act crates)
        (.acquire .exclusive (mintTask crates keyId answers next))
        (.perform (.ensure keyId answers) rest) :=
      .single (settle_mintTask hvalid answers next) hnext
    refine @Implements.acquire _ _ _ KeyringOp.Answer (act crates) .shared _
      (.ensure keyId answers) rest
      (fun keyring => keyring.provider.cache.lookup keyId = none) ?_ ?_ ?_ ?_
    · intro keyring habsent
      simp [Task.settle, habsent]
    · intro keyring habsent
      simpa [Task.settle, habsent] using hmint
    · intro keyring hpresent
      obtain ⟨key, hkey⟩ := Option.ne_none_iff_exists'.mp hpresent
      simp [Task.settle, hkey, act, ensure_present hvalid hkey]
    · intro keyring hpresent
      obtain ⟨key, hkey⟩ := Option.ne_none_iff_exists'.mp hpresent
      simpa [Task.settle, hkey, act, ensure_present hvalid hkey] using
        hnext (.ok false)
  · simp only [hvalid, Bool.not_false, if_true]
    exact hnext _

theorem implements_task (autoCreate : Bool) (call : ProviderCall) :
    Implements (act crates) (task crates autoCreate call)
      (script crates autoCreate call) := by
  cases call with
  | ensure keyId answers => exact implements_ensure answers fun _ => .done _
  | shred keyId removal => exact implements_shred removal fun _ => .done _
  | list => exact .single (fun _ => rfl) fun _ => .done _
  | unwrapDek keyId wrapped =>
      simp only [task, script]
      exact implements_get fun _ => .done _
  | wrapDek keyId dek answers =>
      simp only [task, script]
      cases autoCreate with
      | false =>
          simp only [Bool.false_eq_true, if_false]
          exact implements_get fun _ => .done _
      | true =>
          simp only [if_true]
          refine implements_ensure answers.mint fun ensured => ?_
          cases ensured with
          | error err => exact .done _
          | ok created => exact implements_get fun _ => .done _

end Implements

/-! ## Threads -/

/-- Threads that use one provider. -/
abbrev ProviderThreads (κ : Type) :=
  ReadersWriter.System κ ProviderCall Keyring ProviderReply

variable {κ : Type} [DecidableEq κ]

/-- Whatever the threads of a provider do, there is one order of whole
operations behind it: the operations answer as they would one after the other,
every call performs its own between its start and its return, and the cache
and the key files are what the operations leave. -/
theorem keyring_linearizable (crates : CipherCrates) (keyring : Keyring)
    (s : ProviderThreads κ)
    (hrun : ReadersWriter.Reaches (task crates keyring.provider.autoCreate)
      (ReadersWriter.start keyring) s) :
    ∃ history, ReadersWriter.Linearizes (act crates)
      (script crates keyring.provider.autoCreate) keyring s history :=
  ReadersWriter.exists_linearization (implements_task _) hrun

/-- A provider that was opened on an empty directory. -/
def emptyKeyring : Keyring where
  provider := { dir := "keys", cache := ∅, autoCreate := true }
  files := []

/-- A call wraps a data key under a subject that has no key yet. -/
def wrapSubject : ProviderCall :=
  .wrapDek "subject" [1]
    (SharedKeyring.sealAnswers (SharedKeyring.sampleKey 7)).wrap

theorem keyring_linearizable_subject :
    ∃ s : ProviderThreads Unit, s.history.length = 2 ∧
      ∃ history, ReadersWriter.Linearizes (act referenceCipher)
        (script referenceCipher true) emptyKeyring s history := by
  let called : ProviderThreads Unit :=
    (ReadersWriter.start emptyKeyring).begin () wrapSubject
      (task referenceCipher true wrapSubject)
  refine ⟨(fun s => s.go ())^[13] called, rfl, ?_⟩
  exact keyring_linearizable referenceCipher emptyKeyring _
    ((Relation.ReflTransGen.single (.call _ () wrapSubject rfl)).trans
      (ReadersWriter.reaches_iterate_go called () 13))

section Within

variable {keyId : String} {n : ℕ}

end Within

end Chainlog
