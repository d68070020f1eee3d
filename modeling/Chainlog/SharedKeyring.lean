import Chainlog.Foundation.SharedStore
import Chainlog.Keyring

/-!
# Keyrings that share a directory

Each process opens a provider with a cache of its own over one directory of
key files.  A call is one operation of one provider, with what the random
source and the file system answer to it.
-/

namespace Chainlog

/-- The directory of key files, the provider each process holds open, and the
keys that the random source has given so far. -/
structure SharedKeyring (ι : Type) where
  dir : String
  files : Dir
  providers : ι → Option KeyringProvider
  drawn : List Key

inductive KeyringCall (ι : Type) where
  | reopen (i : ι) (autoCreate : Bool) (answers : OpenAnswers)
  | close (i : ι)
  | ensure (i : ι) (keyId : String) (answers : MintAnswers)
  | wrapDek (i : ι) (keyId : String) (dek : Bytes) (answers : WrapAnswers)
  | cryptoSeal (i : ι) (keyId : String) (pii : Value)
      (answers : SealAnswers WrapAnswers)
  | cryptoOpen (i : ι) (bundle : EncryptedPii)
  | shred (i : ι) (keyId : String) (removal : Option String)
  | list (i : ι)

inductive KeyringReply where
  /-- The process holds no provider. -/
  | closed
  | opened (result : Result Unit)
  | ensured (result : Result Bool)
  | wrapped (result : Result Bytes)
  | sealed (result : Result EncryptedPii)
  | plaintext (result : Except Panic (Result Value))
  | shredded (result : Result Bool)
  | listed (ids : List String)

namespace KeyringCall

variable {ι : Type}

/-- The process that makes the call. -/
def caller : KeyringCall ι → ι
  | reopen i _ _ | close i | ensure i _ _ | wrapDek i _ _ _
  | cryptoSeal i _ _ _ | cryptoOpen i _ | shred i _ _ | list i => i

/-- The key that the random source would give for a key id. -/
def draw : KeyringCall ι → Option Key
  | ensure _ _ answers => answers.draw.toOption
  | wrapDek _ _ _ answers => answers.mint.draw.toOption
  | cryptoSeal _ _ _ answers => answers.wrap.mint.draw.toOption
  | _ => none

/-- The key id that a provider makes a key for, if its cache has none. -/
def target (autoCreate : Bool) : KeyringCall ι → Option String
  | ensure _ keyId _ => some keyId
  | wrapDek _ keyId _ _ => if autoCreate then some keyId else none
  | cryptoSeal _ keyId _ _ => if autoCreate then some keyId else none
  | _ => none

/-- Every answer of the file system is a success. -/
def Succeeds : KeyringCall ι → Prop
  | reopen _ _ answers => answers = .ok
  | ensure _ _ answers => answers.write = .written
  | wrapDek _ _ _ answers => answers.mint.write = .written
  | cryptoSeal _ _ _ answers => answers.wrap.mint.write = .written
  | shred _ _ removal => removal = none
  | _ => True

end KeyringCall

namespace SharedKeyring

variable {ι : Type} [DecidableEq ι] (crates : CipherCrates)

/-- No process has opened the directory yet. -/
def initial (dir : String) (files : Dir) : SharedKeyring ι where
  dir := dir
  files := files
  providers _ := none
  drawn := files.filterMap fun file =>
    (KeyringProvider.readKeyFile crates
      (KeyringProvider.filePath dir file.1) file.2).toOption

def hold (s : SharedKeyring ι) (i : ι) (provider : Option KeyringProvider) :
    SharedKeyring ι :=
  { s with providers := Function.update s.providers i provider }

def set (s : SharedKeyring ι) (i : ι) (keyring : Keyring) : SharedKeyring ι :=
  { s.hold i (some keyring.provider) with files := keyring.files }

/-- An operation of the provider that a process holds. -/
def use {α : Type} (s : SharedKeyring ι) (i : ι)
    (operation : Keyring → Keyring × α) (reply : α → KeyringReply) :
    SharedKeyring ι × KeyringReply :=
  match s.providers i with
  | none => (s, .closed)
  | some provider =>
      let (next, result) := operation { provider, files := s.files }
      (s.set i next, reply result)

def perform (s : SharedKeyring ι) :
    KeyringCall ι → SharedKeyring ι × KeyringReply
  | .reopen i autoCreate answers =>
      match KeyringProvider.openDir crates s.dir autoCreate s.files answers with
      | .ok provider => (s.hold i (some provider), .opened (.ok ()))
      | .error err => (s.hold i none, .opened (.error err))
  | .close i => (s.hold i none, .closed)
  | .ensure i keyId answers =>
      s.use i (fun keyring => keyring.ensure crates keyId answers) .ensured
  | .wrapDek i keyId dek answers =>
      s.use i (fun keyring => keyring.wrapDek crates keyId dek answers) .wrapped
  | .cryptoSeal i keyId pii answers =>
      s.use i (fun keyring => Chainlog.cryptoSeal crates keyring keyId pii answers)
        .sealed
  | .cryptoOpen i bundle =>
      s.use i (fun keyring =>
        (keyring, Chainlog.cryptoOpen crates keyring bundle)) .plaintext
  | .shred i keyId removal =>
      s.use i (fun keyring => keyring.shred crates keyId removal) .shredded
  | .list i => s.use i (fun keyring => (keyring, keyring.provider.list)) .listed

def step (s : SharedKeyring ι) (call : KeyringCall ι) :
    SharedKeyring ι × KeyringReply :=
  let (next, reply) := s.perform crates call
  ({ next with drawn := call.draw.toList ++ s.drawn }, reply)

def run (s : SharedKeyring ι) (calls : List (KeyringCall ι)) :
    SharedKeyring ι :=
  calls.foldl (fun s call => (s.step crates call).1) s

/-- A condition on every call of a run, in the state it is made in. -/
def Along (p : SharedKeyring ι → KeyringCall ι → Prop) :
    SharedKeyring ι → List (KeyringCall ι) → Prop
  | _, [] => True
  | s, call :: rest => p s call ∧ Along p (s.step crates call).1 rest

/-- A condition on some call of a run. -/
def Sometime (p : SharedKeyring ι → KeyringCall ι → Prop) :
    SharedKeyring ι → List (KeyringCall ι) → Prop
  | _, [] => False
  | s, call :: rest => p s call ∨ Sometime p (s.step crates call).1 rest

/-- The call is a `shred` of the key id and returns `Ok(true)`. -/
def Shreds (keyId : String) (s : SharedKeyring ι) (call : KeyringCall ι) : Prop :=
  (∃ i removal, call = .shred i keyId removal) ∧
    (s.step crates call).2 = .shredded (.ok true)

/-- The key that the cache of a process holds. -/
def held (s : SharedKeyring ι) (i : ι) (keyId : String) : Option Key :=
  (s.providers i).bind fun provider => provider.cache.lookup keyId

/-- The call makes a key for a key id: the cache of its provider has none. -/
def Mints (s : SharedKeyring ι) (i : ι) (keyId : String)
    (call : KeyringCall ι) : Prop :=
  call.caller = i ∧ validKeyId keyId = true ∧ (∃ key, call.draw = some key) ∧
    ∃ provider, s.providers i = some provider ∧
      call.target provider.autoCreate = some keyId ∧
      provider.cache.lookup keyId = none

/-- A provider mints or shreds a key only while no other cache holds one for
its id. -/
def ExclusiveAt (keyId : String) (s : SharedKeyring ι) (call : KeyringCall ι) :
    Prop :=
  ∀ i, (s.Mints i keyId call ∨ ∃ removal, call = .shred i keyId removal) →
    ∀ j, j ≠ i → s.held j keyId = none

def Exclusive (s : SharedKeyring ι) (call : KeyringCall ι) : Prop :=
  ∀ keyId, ExclusiveAt keyId s call

/-- The random source does not repeat itself. -/
def Fresh (s : SharedKeyring ι) (call : KeyringCall ι) : Prop :=
  ∀ key, call.draw = some key → key ∉ s.drawn

/-- Key files and caches as a store with private copies. -/
def view (s : SharedKeyring ι) : SharedStore.State ι String Key where
  store := keyFile crates s.dir s.files
  copy := s.held

/-- What one call can do. -/
inductive Transition (s : SharedKeyring ι) (call : KeyringCall ι) :
    SharedKeyring ι → Prop
  | same : Transition s call s
  | opened {i : ι} {autoCreate : Bool} {answers : OpenAnswers}
      {provider : KeyringProvider} (hcall : call = .reopen i autoCreate answers)
      (hopen : KeyringProvider.openDir crates s.dir autoCreate s.files answers =
        .ok provider) : Transition s call (s.hold i (some provider))
  | closed (i : ι) : Transition s call (s.hold i none)
  | minted {i : ι} {provider : KeyringProvider} {keyId : String} {key : Key}
      (hi : s.providers i = some provider) (hmints : s.Mints i keyId call)
      (hdraw : call.draw = some key) :
      Transition s call (s.set i
        ((Keyring.setFile { provider, files := s.files } keyId
          (keyText crates key)).setCache (provider.cache.insert keyId key)))
  | cut {i : ι} {provider : KeyringProvider} {keyId : String} {key : Key}
      {n : ℕ} (hi : s.providers i = some provider)
      (hmints : s.Mints i keyId call) (hdraw : call.draw = some key)
      (hfault : ¬ call.Succeeds) :
      Transition s call (s.set i
        (Keyring.setFile { provider, files := s.files } keyId
          ((keyText crates key).take n)))
  | forgotten {i : ι} {provider : KeyringProvider} {keyId reason : String}
      (hi : s.providers i = some provider)
      (hcall : call = .shred i keyId (some reason)) :
      Transition s call (s.set i
        (Keyring.setCache { provider, files := s.files }
          (provider.cache.erase keyId)))
  | shredded {i : ι} {provider : KeyringProvider} {keyId : String}
      {removal : Option String} (hi : s.providers i = some provider)
      (hcall : call = .shred i keyId removal) :
      Transition s call (s.set i
        ((Keyring.removeFile { provider, files := s.files } keyId).setCache
          (provider.cache.erase keyId)))

variable {crates} {s : SharedKeyring ι} {call : KeyringCall ι}

theorem set_same {i : ι} {provider : KeyringProvider}
    (hi : s.providers i = some provider) :
    s.set i { provider, files := s.files } = s := by
  unfold set hold
  simp only [← hi, Function.update_eq_self]

theorem providers_hold (i : ι) (provider : Option KeyringProvider) :
    (s.hold i provider).providers i = provider := by
  simp only [hold, Function.update_self]

theorem providers_set (i : ι) (keyring : Keyring) :
    (s.set i keyring).providers i = some keyring.provider := by
  simp only [set, hold, Function.update_self]

theorem use_some {α : Type} {i : ι} {provider : KeyringProvider}
    (hi : s.providers i = some provider)
    (operation : Keyring → Keyring × α) (reply : α → KeyringReply) :
    s.use i operation reply =
      (s.set i (operation { provider, files := s.files }).1,
        reply (operation { provider, files := s.files }).2) := by
  unfold use
  rw [hi]

theorem use_transition {α : Type} {i : ι} {operation : Keyring → Keyring × α}
    {reply : α → KeyringReply}
    (h : ∀ provider, s.providers i = some provider → Transition crates s call
      (s.set i (operation { provider, files := s.files }).1)) :
    Transition crates s call (s.use i operation reply).1 := by
  cases hi : s.providers i with
  | none =>
      unfold use
      rw [hi]
      exact .same
  | some provider =>
      rw [use_some hi]
      exact h provider hi

/-- A call leaves the providers of the other processes as they are. -/
theorem perform_providers {j : ι} (hj : j ≠ call.caller) :
    (s.perform crates call).1.providers j = s.providers j := by
  have hhold : ∀ i provider, call.caller = i →
      (s.hold i provider).providers j = s.providers j := by
    rintro i provider rfl
    exact Function.update_of_ne hj _ _
  have huse : ∀ {α : Type} i (operation : Keyring → Keyring × α) reply,
      call.caller = i →
        (s.use i operation reply).1.providers j = s.providers j := by
    intro α i operation reply hcaller
    unfold use
    cases s.providers i with
    | none => rfl
    | some provider => exact hhold i _ hcaller
  cases call with
  | reopen i autoCreate answers =>
      simp only [perform]
      cases KeyringProvider.openDir crates s.dir autoCreate s.files answers with
      | ok provider => exact hhold i _ rfl
      | error err => exact hhold i _ rfl
  | close i => exact hhold i _ rfl
  | ensure i keyId answers => exact huse i _ _ rfl
  | wrapDek i keyId dek answers => exact huse i _ _ rfl
  | cryptoSeal i keyId pii answers => exact huse i _ _ rfl
  | cryptoOpen i bundle => exact huse i _ _ rfl
  | shred i keyId removal => exact huse i _ _ rfl
  | list i => exact huse i _ _ rfl

/-- Minting is the only thing that `ensure` does. -/
theorem transition_ensure {provider : KeyringProvider} {keyId : String}
    {answers : MintAnswers} (hi : s.providers call.caller = some provider)
    (htarget : call.target provider.autoCreate = some keyId)
    (hdraw : call.draw = answers.draw.toOption)
    (hwrite : call.Succeeds → answers.write = .written) :
    Transition crates s call (s.set call.caller
      (Keyring.ensure crates { provider, files := s.files } keyId answers).1) := by
  rcases @Keyring.ensure_cases crates
      { provider, files := s.files } keyId answers with
    ⟨result, hsame, _⟩ | ⟨key, hkey, hvalid, hlookup, houtcome⟩
  · rw [hsame, set_same hi]
    exact .same
  · rw [hkey] at hdraw
    have hmints : s.Mints call.caller keyId call :=
      ⟨rfl, hvalid, ⟨key, hdraw⟩, provider, hi, htarget, hlookup⟩
    rcases houtcome with hminted | ⟨n, reason, hcut, hleft⟩
    · rw [hminted]
      exact .minted hi hmints hdraw
    · rw [hleft]
      refine .cut hi hmints hdraw fun hsucceeds => ?_
      rw [hwrite hsucceeds] at hcut
      cases hcut

theorem perform_transition (s : SharedKeyring ι) (call : KeyringCall ι) :
    Transition crates s call (s.perform crates call).1 := by
  cases call with
  | reopen i autoCreate answers =>
      simp only [perform]
      cases hopen : KeyringProvider.openDir crates s.dir autoCreate s.files
          answers with
      | ok provider => exact .opened rfl hopen
      | error err => exact .closed i
  | close i => exact .closed i
  | ensure i keyId answers =>
      apply use_transition
      intro provider hi
      exact transition_ensure hi rfl rfl id
  | wrapDek i keyId dek answers =>
      apply use_transition
      intro provider hi
      rw [Keyring.wrapDek_fst]
      by_cases hauto : provider.autoCreate = true
      · rw [if_pos hauto]
        exact transition_ensure hi (if_pos hauto) rfl id
      · rw [if_neg hauto, set_same hi]
        exact .same
  | cryptoSeal i keyId pii answers =>
      apply use_transition
      intro provider hi
      rcases @Keyring.cryptoSeal_fst crates
          { provider, files := s.files } keyId pii answers with
        hsame | ⟨hauto, hensure⟩
      · rw [hsame, set_same hi]
        exact .same
      · rw [hensure]
        exact transition_ensure hi (if_pos hauto) rfl id
  | cryptoOpen i bundle =>
      apply use_transition
      intro provider hi
      rw [set_same hi]
      exact .same
  | shred i keyId removal =>
      apply use_transition
      intro provider hi
      rcases @Keyring.shred_cases crates
          { provider, files := s.files } keyId removal with
        ⟨err, _, hsame⟩ | ⟨reason, rfl, hleft⟩ | ⟨present, hgone, _⟩
      · rw [hsame, set_same hi]
        exact .same
      · rw [hleft]
        exact .forgotten hi rfl
      · rw [hgone]
        exact .shredded hi rfl
  | list i =>
      apply use_transition
      intro provider hi
      rw [set_same hi]
      exact .same

/-! ## What a call does to the shared store -/

/-- The actions that a call can amount to. -/
inductive Effect (s : SharedKeyring ι) (call : KeyringCall ι) :
    SharedStore.Action ι String Key → Prop
  | refill (i : ι) (copy : String → Option Key) :
      Effect s call (.refill i copy)
  | mint {i : ι} {keyId : String} {key : Key} (hmints : s.Mints i keyId call)
      (hdraw : call.draw = some key) : Effect s call (.write i keyId (some key))
  | cut {i : ι} {keyId : String} {left : Option Key}
      (hmints : s.Mints i keyId call)
      (hleft : ∀ key, left = some key → call.draw = some key)
      (hfault : ¬ call.Succeeds) : Effect s call (.spoil keyId left)
  | shred {i : ι} {keyId : String} {removal : Option String}
      (hcall : call = .shred i keyId removal) :
      Effect s call (.write i keyId none)

theorem view_hold (i : ι) (provider : Option KeyringProvider) :
    (s.hold i provider).view crates = (s.view crates).apply
      (.refill i fun keyId => provider.bind fun p => p.cache.lookup keyId) := by
  unfold view SharedStore.State.apply hold
  congr 1
  funext j
  by_cases hj : j = i
  · subst hj
    funext keyId
    simp [held]
  · funext keyId
    simp [held, hj]

theorem view_set {i : ι} {keyring : Keyring} {keyId : String}
    {key : Option Key}
    (hfiles : ∀ id, keyFile crates s.dir keyring.files id =
      if id = keyId then key else keyFile crates s.dir s.files id)
    (hcache : ∀ id, keyring.provider.cache.lookup id =
      if id = keyId then key else s.held i id) :
    (s.set i keyring).view crates =
      (s.view crates).apply (.write i keyId key) := by
  unfold view SharedStore.State.apply set hold
  congr 1
  · funext id
    rw [Function.update_apply]
    exact hfiles id
  · funext j
    by_cases hj : j = i
    · subst hj
      funext id
      simp [held, hcache, Function.update_apply]
    · funext id
      simp [held, hj]

omit [DecidableEq ι] in
theorem held_eq {s : SharedKeyring ι} {i : ι} {provider : KeyringProvider}
    (hi : s.providers i = some provider) (keyId : String) :
    s.held i keyId = provider.cache.lookup keyId := by
  rw [held, hi, Option.bind_some]

omit [DecidableEq ι] in
theorem Mints.held_eq_none {i : ι} {keyId : String}
    (h : s.Mints i keyId call) :
    (∃ provider, s.providers i = some provider) ∧ s.held i keyId = none := by
  obtain ⟨_, _, _, provider, hi, _, hnone⟩ := h
  exact ⟨⟨provider, hi⟩, (held_eq hi keyId).trans hnone⟩

omit [DecidableEq ι] in
/-- A call is exclusive while no other process holds a provider. -/
theorem exclusive_of_alone
    (halone : ∀ j, j ≠ call.caller → s.providers j = none) :
    s.Exclusive call := by
  intro keyId i hchange j hj
  have hcaller : call.caller = i := by
    rcases hchange with hmints | ⟨removal, rfl⟩
    · exact hmints.1
    · rfl
  rw [held, halone j (hcaller ▸ hj), Option.bind_none]

theorem view_minted (hbase : crates.Canonical) {i : ι}
    {provider : KeyringProvider} (hi : s.providers i = some provider)
    (keyId : String) (key : Key) :
    (s.set i ((Keyring.setFile { provider, files := s.files } keyId
        (keyText crates key)).setCache
      (provider.cache.insert keyId key))).view crates =
      (s.view crates).apply (.write i keyId (some key)) := by
  apply view_set
  · intro id
    by_cases hid : id = keyId
    · subst hid
      rw [if_pos rfl]
      exact keyFile_put_self hbase _ _ _ _
    · rw [if_neg hid]
      exact keyFile_put_of_ne _ _ hid _
  · intro id
    by_cases hid : id = keyId
    · subst hid
      rw [if_pos rfl]
      exact AList.lookup_insert _
    · rw [if_neg hid, held_eq hi]
      exact AList.lookup_insert_ne hid

theorem view_shredded {i : ι} {provider : KeyringProvider}
    (hi : s.providers i = some provider) (keyId : String) :
    (s.set i ((Keyring.removeFile { provider, files := s.files }
        keyId).setCache (provider.cache.erase keyId))).view crates =
      (s.view crates).apply (.write i keyId none) := by
  apply view_set
  · intro id
    exact keyFile_remove _ _ _ _
  · intro id
    by_cases hid : id = keyId
    · subst hid
      rw [if_pos rfl]
      exact AList.lookup_erase _ _
    · rw [if_neg hid, held_eq hi]
      exact AList.lookup_erase_ne hid

/-- Every call amounts to one action on the shared store. -/
theorem Transition.effect (hbase : crates.Canonical)
    (hfiles : s.files.names.Nodup) {t : SharedKeyring ι}
    (h : Transition crates s call t) :
    ∃ action, Effect s call action ∧ (s.view crates).Honest action ∧
      t.view crates = (s.view crates).apply action := by
  cases h with
  | same =>
      refine ⟨.refill call.caller (s.held call.caller), .refill _ _,
        fun _ _ h => Or.inr h, ?_⟩
      unfold view SharedStore.State.apply
      simp only [Function.update_eq_self]
  | @opened i autoCreate answers provider hcall hopen =>
      refine ⟨_, .refill _ _, ?_, view_hold i (some provider)⟩
      intro keyId key hkey
      simp only [Option.bind_some,
        (openDir_ok hfiles hopen).2] at hkey
      exact Or.inl (keyFile_of_loadedKey hkey)
  | closed i =>
      refine ⟨_, .refill _ _, ?_, view_hold i none⟩
      intro keyId key hkey
      cases hkey
  | @minted i provider keyId key hi hmints hdraw =>
      exact ⟨_, .mint hmints hdraw, trivial, view_minted hbase hi keyId key⟩
  | @cut i provider keyId key n hi hmints hdraw hfault =>
      -- what is left of the file holds the drawn key or none
      refine ⟨.spoil keyId (keyFile crates s.dir (s.files.put
        (keyFileName keyId) ((keyText crates key).take n)) keyId),
        .cut hmints ?_ hfault, trivial, ?_⟩
      · intro left hleft
        unfold keyFile at hleft
        rw [Dir.find_put, if_pos rfl, Option.bind_some] at hleft
        cases hread : KeyringProvider.readKeyFile crates
            (KeyringProvider.filePath s.dir (keyFileName keyId))
            (.readable ((keyText crates key).take n)) with
        | error err =>
            rw [hread] at hleft
            cases hleft
        | ok found =>
            rw [hread] at hleft
            rw [hdraw, ← readKeyFile_take hbase hread]
            exact hleft
      · unfold view SharedStore.State.apply set hold Keyring.setFile
        congr 1
        · funext id
          rw [Function.update_apply]
          by_cases hid : id = keyId
          · subst hid
            rw [if_pos rfl]
          · rw [if_neg hid]
            exact keyFile_put_of_ne _ _ hid _
        · simp only [← hi, Function.update_eq_self]
          rfl
  | @forgotten i provider keyId reason hi hcall =>
      let left : KeyringProvider :=
        { provider with cache := provider.cache.erase keyId }
      have hset : s.set i (Keyring.setCache { provider, files := s.files }
          (provider.cache.erase keyId)) = s.hold i (some left) := rfl
      rw [hset]
      refine ⟨_, .refill _ _, ?_, view_hold i (some left)⟩
      intro id key hkey
      simp only [Option.bind_some] at hkey
      by_cases hid : id = keyId
      · subst hid
        rw [AList.lookup_erase] at hkey
        cases hkey
      · rw [AList.lookup_erase_ne hid] at hkey
        exact Or.inr ((held_eq hi id).trans hkey)
  | @shredded i provider keyId removal hi hcall =>
      exact ⟨_, .shred hcall, trivial, view_shredded hi keyId⟩

theorem Transition.nodup (hfiles : s.files.names.Nodup) {t : SharedKeyring ι}
    (h : Transition crates s call t) : t.files.names.Nodup := by
  cases h with
  | same => exact hfiles
  | opened => exact hfiles
  | closed => exact hfiles
  | minted => exact Dir.nodup_put hfiles _ _
  | cut => exact Dir.nodup_put hfiles _ _
  | forgotten => exact hfiles
  | shredded => exact Dir.nodup_remove hfiles _

/-- A key file is changed by a call that mints or shreds its key only. -/
theorem Transition.find_eq {t : SharedKeyring ι}
    (h : Transition crates s call t) {keyId : String}
    (hmint : ∀ i, ¬ s.Mints i keyId call)
    (hshred : ∀ i removal, call ≠ .shred i keyId removal) :
    t.files.find (keyFileName keyId) = s.files.find (keyFileName keyId) := by
  cases h with
  | same => rfl
  | opened => rfl
  | closed => rfl
  | @minted i provider id key hi hmints hdraw =>
      have hid : keyFileName keyId ≠ keyFileName id := fun heq =>
        hmint i (keyFileName_injective heq ▸ hmints)
      exact (Dir.find_put _ _ _ _).trans (if_neg hid)
  | @cut i provider id key n hi hmints hdraw hfault =>
      have hid : keyFileName keyId ≠ keyFileName id := fun heq =>
        hmint i (keyFileName_injective heq ▸ hmints)
      exact (Dir.find_put _ _ _ _).trans (if_neg hid)
  | forgotten => rfl
  | @shredded i provider id removal hi hcall =>
      have hid : keyFileName keyId ≠ keyFileName id := fun heq =>
        hshred i removal (keyFileName_injective heq ▸ hcall)
      exact (Dir.find_remove _ _ _).trans (if_neg hid)

/-! ## Runs -/

theorem run_append (s : SharedKeyring ι) (front back : List (KeyringCall ι)) :
    s.run crates (front ++ back) = (s.run crates front).run crates back :=
  List.foldl_append

section Along

variable {p q : SharedKeyring ι → KeyringCall ι → Prop}

theorem Along.append_iff {front back : List (KeyringCall ι)} :
    Along crates p s (front ++ back) ↔
      Along crates p s front ∧ Along crates p (s.run crates front) back := by
  induction front generalizing s with
  | nil => exact ⟨fun h => ⟨trivial, h⟩, fun h => h.2⟩
  | cons call rest ih =>
      rw [List.cons_append, Along, Along, ih, and_assoc]
      rfl

theorem Along.imp (himp : ∀ s call, p s call → q s call)
    {calls : List (KeyringCall ι)} (h : Along crates p s calls) :
    Along crates q s calls := by
  induction calls generalizing s with
  | nil => trivial
  | cons call rest ih => exact ⟨himp s call h.1, ih h.2⟩

theorem Along.and {calls : List (KeyringCall ι)} (hp : Along crates p s calls)
    (hq : Along crates q s calls) :
    Along crates (fun s call => p s call ∧ q s call) s calls := by
  induction calls generalizing s with
  | nil => trivial
  | cons call rest ih => exact ⟨⟨hp.1, hq.1⟩, ih hp.2 hq.2⟩

theorem Along.of_forall {p : KeyringCall ι → Prop}
    {calls : List (KeyringCall ι)} (h : ∀ call ∈ calls, p call) :
    Along crates (fun _ call => p call) s calls := by
  induction calls generalizing s with
  | nil => trivial
  | cons call rest ih =>
      exact ⟨h call List.mem_cons_self,
        ih fun c hc => h c (List.mem_cons_of_mem _ hc)⟩

theorem Along.keeps (inv : SharedKeyring ι → Prop)
    (hstep : ∀ s call, p s call → inv s → inv (s.step crates call).1)
    {calls : List (KeyringCall ι)} (h : Along crates p s calls) (hinv : inv s) :
    inv (s.run crates calls) := by
  induction calls generalizing s with
  | nil => exact hinv
  | cons call rest ih => exact ih h.2 (hstep s call h.1 hinv)

end Along

/-! ## Sound states -/

variable (crates) in
/-- Files have distinct names, and every key was drawn. -/
structure Sound (s : SharedKeyring ι) : Prop where
  nodup : s.files.names.Nodup
  within : (s.view crates).Within {key | key ∈ s.drawn}

omit [DecidableEq ι] in
theorem initial_sound (dir : String) {files : Dir}
    (hfiles : files.names.Nodup) :
    (initial crates dir files : SharedKeyring ι).Sound crates where
  nodup := hfiles
  within := by
    constructor
    · intro keyId key hkey
      obtain ⟨node, hfind, hread⟩ := Option.bind_eq_some_iff.mp hkey
      exact List.mem_filterMap.mpr ⟨_, Dir.mem_of_find hfind, hread⟩
    · intro i keyId key hkey
      cases hkey

omit [DecidableEq ι] in
/-- What an action brings in, the call has drawn. -/
theorem Effect.brings {action : SharedStore.Action ι String Key}
    (h : Effect s call action) {key : Key} (hkey : action.Brings key) :
    call.draw = some key := by
  cases h with
  | refill i copy => cases hkey
  | mint hmints hdraw => rwa [← Option.some.inj hkey]
  | cut hmints hleft hfault => exact hleft key hkey
  | shred hcall => cases hkey

namespace Sound

theorem effect (hbase : crates.Canonical) (h : s.Sound crates)
    (call : KeyringCall ι) :
    ∃ action, Effect s call action ∧ (s.view crates).Honest action ∧
      (s.step crates call).1.view crates = (s.view crates).apply action :=
  (perform_transition s call).effect hbase h.nodup

theorem step (hbase : crates.Canonical) (h : s.Sound crates)
    (call : KeyringCall ι) : (s.step crates call).1.Sound crates where
  nodup := (perform_transition s call).nodup h.nodup
  within := by
    obtain ⟨action, heffect, hhonest, hview⟩ := h.effect hbase call
    rw [hview]
    apply h.within.apply hhonest
    · intro key hkey
      exact List.mem_append_right _ hkey
    · intro key hkey
      apply List.mem_append_left
      rw [heffect.brings hkey]
      exact List.mem_singleton_self key

theorem run (hbase : crates.Canonical) (h : s.Sound crates)
    (calls : List (KeyringCall ι)) : (s.run crates calls).Sound crates := by
  induction calls generalizing s with
  | nil => exact h
  | cons call rest ih => exact ih (h.step hbase call)

theorem withdrawn_step (hbase : crates.Canonical) (h : s.Sound crates)
    (hfresh : s.Fresh call) {keyId : String} {key : Key} (hkey : key ∈ s.drawn)
    (hgone : (s.view crates).Withdrawn keyId key) :
    ((s.step crates call).1.view crates).Withdrawn keyId key := by
  obtain ⟨action, heffect, hhonest, hview⟩ := h.effect hbase call
  rw [hview]
  exact hgone.apply hhonest fun _ hbrings =>
    hfresh key (heffect.brings hbrings) hkey

theorem withdrawn_run (hbase : crates.Canonical) (h : s.Sound crates)
    {calls : List (KeyringCall ι)} (hfresh : Along crates Fresh s calls)
    {keyId : String} {key : Key} (hkey : key ∈ s.drawn)
    (hgone : (s.view crates).Withdrawn keyId key) :
    ((s.run crates calls).view crates).Withdrawn keyId key := by
  induction calls generalizing s with
  | nil => exact hgone
  | cons call rest ih =>
      exact ih (h.step hbase call) hfresh.2 (List.mem_append_right _ hkey)
        (h.withdrawn_step hbase hfresh.1 hkey hgone)

/-- Caches do not outlive key files where they are changed exclusively. -/
theorem backed_step (hbase : crates.Canonical) (h : s.Sound crates)
    {keyId : String} (hexclusive : ExclusiveAt keyId s call)
    (hbacked : (s.view crates).Backed keyId) :
    ((s.step crates call).1.view crates).Backed keyId := by
  obtain ⟨action, heffect, hhonest, hview⟩ := h.effect hbase call
  rw [hview]
  apply hbacked.apply hhonest
  cases heffect with
  | refill i copy => trivial
  | @mint i id key hmints hdraw =>
      rintro rfl j hj
      exact hexclusive i (Or.inl hmints) j hj
  | @cut i id left hmints hleft hfault =>
      rintro rfl j
      by_cases hj : j = i
      · rw [hj]
        exact hmints.held_eq_none.2
      · exact hexclusive i (Or.inl hmints) j hj
  | @shred i id removal hcall =>
      rintro rfl j hj
      exact hexclusive i (Or.inr ⟨removal, hcall⟩) j hj

omit [DecidableEq ι] in
theorem exists_openDir (h : s.Sound crates) (autoCreate : Bool) :
    ∃ provider, KeyringProvider.openDir crates s.dir autoCreate s.files .ok =
        .ok provider ∧ provider.autoCreate = autoCreate ∧
      ∀ keyId, provider.cache.lookup keyId =
        keyFile crates s.dir s.files keyId := by
  have hopen : KeyringProvider.openDir crates s.dir autoCreate s.files .ok =
      .ok _ := rfl
  exact ⟨_, hopen, openDir_ok h.nodup hopen⟩

end Sound

omit [DecidableEq ι] in
theorem initial_backed (dir : String) (files : Dir) (keyId : String) :
    ((initial crates dir files : SharedKeyring ι).view crates).Backed keyId := by
  intro i key hheld
  cases hheld

/-! ## Shredding and sealing -/

theorem perform_shred {i : ι} {provider : KeyringProvider}
    (hi : s.providers i = some provider) (keyId : String)
    (removal : Option String) :
    (∃ err, validKeyId keyId = false ∧
        s.perform crates (.shred i keyId removal) =
          (s, .shredded (.error err))) ∨
      (∃ reason, removal = some reason ∧
        s.perform crates (.shred i keyId removal) =
          (s.set i (Keyring.setCache { provider, files := s.files }
            (provider.cache.erase keyId)), .shredded (.error (.io reason)))) ∨
      ∃ present, s.perform crates (.shred i keyId removal) =
          (s.set i ((Keyring.removeFile { provider, files := s.files }
              keyId).setCache (provider.cache.erase keyId)),
            .shredded (.ok present)) ∧
        (present = false → provider.cache.lookup keyId = none ∧
          s.files.find (keyFileName keyId) = none) := by
  simp only [perform, use_some hi]
  rcases @Keyring.shred_cases crates { provider, files := s.files } keyId
      removal with
    ⟨err, hinvalid, hsame⟩ | ⟨reason, hremoval, hleft⟩ |
      ⟨present, hgone, habsent⟩
  · rw [hsame, set_same hi]
    exact Or.inl ⟨err, hinvalid, rfl⟩
  · rw [hleft]
    exact Or.inr (Or.inl ⟨reason, hremoval, rfl⟩)
  · rw [hgone]
    exact Or.inr (Or.inr ⟨present, rfl, habsent⟩)

/-- A shred that no other cache contradicts takes every key of the id. -/
theorem withdrawn_of_shreds {i : ι} {keyId : String} {removal : Option String}
    (hreply : (s.step crates (.shred i keyId removal)).2 =
      .shredded (.ok true))
    (halone : (s.view crates).Alone i keyId) (key : Key) :
    ((s.step crates (.shred i keyId removal)).1.view crates).Withdrawn
      keyId key := by
  have hreply' : (s.perform crates (.shred i keyId removal)).2 =
      .shredded (.ok true) := hreply
  have hview : (s.step crates (.shred i keyId removal)).1.view crates =
      (s.perform crates (.shred i keyId removal)).1.view crates := rfl
  rw [hview]
  cases hi : s.providers i with
  | none =>
      simp only [perform, use, hi] at hreply'
      cases hreply'
  | some provider =>
      rcases perform_shred hi keyId removal with
        ⟨err, _, hsame⟩ | ⟨reason, _, hleft⟩ | ⟨present, hgone, _⟩
      · rw [hsame] at hreply'
        cases hreply'
      · rw [hleft] at hreply'
        cases hreply'
      · rw [hgone, view_shredded hi]
        exact SharedStore.State.withdrawn_write_none halone

theorem sealedUnder_of_step {i : ι} {keyId : String} {pii : Value}
    {answers : SealAnswers WrapAnswers} {bundle : EncryptedPii}
    (hreply : (s.step crates (.cryptoSeal i keyId pii answers)).2 =
      .sealed (.ok bundle)) :
    bundle.keyId = keyId ∧ ∃ key,
      (s.step crates (.cryptoSeal i keyId pii answers)).1.held i keyId =
          some key ∧
        SealedUnder crates key pii bundle := by
  have hreply' : (s.perform crates (.cryptoSeal i keyId pii answers)).2 =
      .sealed (.ok bundle) := hreply
  have hheld : (s.step crates (.cryptoSeal i keyId pii answers)).1.held i keyId =
      (s.perform crates (.cryptoSeal i keyId pii answers)).1.held i keyId := rfl
  rw [hheld]
  cases hi : s.providers i with
  | none =>
      simp only [perform, use, hi] at hreply'
      cases hreply'
  | some provider =>
      simp only [perform, use_some hi, KeyringReply.sealed.injEq] at hreply' ⊢
      obtain ⟨hid, key, hlookup, hsealed⟩ := Keyring.cryptoSeal_sealedUnder
        { provider, files := s.files } keyId (Prod.ext rfl hreply')
      refine ⟨hid, key, ?_, hsealed⟩
      simp only [held, set, hold, Function.update_self, Option.bind_some]
      exact hlookup

end SharedKeyring

end Chainlog
