import Chainlog.CrashPoints
import Chainlog.CryptoShred
import Chainlog.Reloading

/-!
# Power loss

What is written to a file is durable only after `sync_all`, and a power loss
may drop the rest.  The log is synced on every append and the key files never
are, so an acknowledged record may outlive the key that was minted for it.
-/

namespace Chainlog

/-! ## Keyrings that grow -/

namespace Keyring

variable {cipher : CipherCrates} {keyring : Keyring} {keyId : String}

/-- The directory is the same and every file that is there stays. -/
structure Grows (keyring next : Keyring) : Prop where
  dir : next.provider.dir = keyring.provider.dir
  names : keyring.files.names.Nodup → next.files.names.Nodup
  files : ∀ name node, keyring.files.find name = some node →
    next.files.find name = some node

theorem Grows.refl (keyring : Keyring) : keyring.Grows keyring where
  dir := rfl
  names := id
  files _ _ := id

/-- A new key file is written beside the others, whole or cut short. -/
theorem grows_setFile (hnew : keyring.files.find (keyFileName keyId) = none)
    (content : Bytes) : keyring.Grows (keyring.setFile keyId content) where
  dir := rfl
  names hnames := Dir.nodup_put hnames _ _
  files name node hfind := by
    have hne : name ≠ keyFileName keyId := by
      rintro rfl
      rw [hnew] at hfind
      cases hfind
    show (keyring.files.put (keyFileName keyId) content).find name = some node
    rw [Dir.find_put, if_neg hne, hfind]

theorem grows_ensure (hnew : keyring.provider.cache.lookup keyId ≠ none ∨
      keyring.files.find (keyFileName keyId) = none)
    (minting : MintAnswers) :
    keyring.Grows (keyring.ensure cipher keyId minting).1 := by
  rcases keyring.ensure_cases keyId minting with
    ⟨result, hsame, _⟩ | ⟨key, _, _, habsent, hminted⟩
  · rw [hsame]
    exact Grows.refl _
  · have hfile : keyring.files.find (keyFileName keyId) = none := by
      rcases hnew with hheld | hfile
      · exact absurd habsent hheld
      · exact hfile
    have hgrows (content : Bytes) := grows_setFile hfile content
    rcases hminted with hwritten | ⟨n, reason, _, hcut⟩
    · rw [hwritten]
      exact ⟨rfl, (hgrows _).names, (hgrows _).files⟩
    · rw [hcut]
      exact hgrows _

theorem cryptoSeal_held {key : Key}
    (hheld : keyring.provider.cache.lookup keyId = some key) (pii : Value)
    (sealing : SealAnswers WrapAnswers) :
    (cryptoSeal cipher keyring keyId pii sealing).1 = keyring := by
  rcases keyring.cryptoSeal_fst keyId pii sealing with hsame | ⟨_, hensured⟩
  · exact hsame
  · rw [hensured]
    rcases keyring.ensure_cases keyId sealing.wrap.mint with
      ⟨result, hsame, _⟩ | ⟨minted, _, _, habsent, _⟩
    · rw [hsame]
    · rw [hheld] at habsent
      cases habsent

end Keyring

/-! ## Files and power -/

/-- What a power loss may leave of a key file. -/
inductive Remains (durable current : Option FileNode) :
    Option FileNode → Prop where
  | dropped : Remains durable current durable
  | written : Remains durable current current
  | torn {content front : Bytes}
      (hwritten : current = some (.readable content))
      (hvolatile : durable ≠ current) (hfront : front <+: content) :
      Remains durable current (some (.readable front))

theorem Remains.eq_of_durable {node left : Option FileNode}
    (h : Remains node node left) : left = node := by
  cases h with
  | dropped => rfl
  | written => rfl
  | torn _ hvolatile _ => exact absurd rfl hvolatile

structure Leftover where
  log : Bytes
  keys : Dir

/-- A log in a file and its keyring, and what of their files is durable. -/
structure PowerState where
  writer : WriterState FileStore
  keyring : Keyring
  durableLog : Bytes
  durableKeys : Dir
  /-- The acknowledged entries with PII, and its values, but for those whose
  key has been shredded. -/
  acked : List (AuditEntry × Value)

inductive PowerCall where
  | record (record : Record) (now : Int64) (sealing : SealAnswers WrapAnswers)
      (io : IoOutcome)
  | ensure (keyId : String) (minting : MintAnswers)
  | shred (keyId : String) (removal : Option String)
  | restart (reading : OpenAnswers)
  | powerLoss (left : Leftover) (reading : OpenAnswers)

variable (crates : Crates) (cipher : CipherCrates)

/-- `FileStore::open`, `KeyringProvider::open` with `auto_create`, and
`Builder::build`. -/
def openFiles (dir : String) (path : DataPath) (keys : Dir)
    (reading : OpenAnswers) : Result (WriterState FileStore × Keyring) := do
  let store ← FileStore.openPath crates path
  let provider ← KeyringProvider.openDir cipher dir true keys reading
  let writer ← Builder.build { store := some store, hasProvider := true }
  return (writer, { provider, files := keys })

namespace PowerState

/-- What is on disk at the start is durable. -/
def start (dir : String) (path : DataPath) (keys : Dir)
    (reading : OpenAnswers) : Result PowerState := do
  let (writer, keyring) ← openFiles crates cipher dir path keys reading
  return { writer, keyring, durableLog := writer.store.content
           durableKeys := keys, acked := [] }

def log (s : PowerState) : Bytes := s.writer.store.content

def dir (s : PowerState) : String := s.keyring.provider.dir

/-- The environment of a record; its PII is sealed through the keyring. -/
def call (s : PowerState) (now : Int64) (sealing : SealAnswers WrapAnswers)
    (io : IoOutcome) : Call where
  now
  cryptoSeal keyId value := (cryptoSeal cipher s.keyring keyId value sealing).2
  io

/-- The keyring after the PII of the record has been sealed. -/
def keyringAfter (s : PowerState) (record : Record)
    (sealing : SealAnswers WrapAnswers) : Keyring :=
  match record.pii with
  | none => s.keyring
  | some value => (cryptoSeal cipher s.keyring record.keyId value sealing).1

/-- The entry and the value of a record that is acknowledged. -/
def newlyAcked (s : PowerState) (call : Call) (record : Record)
    (reply : Result Receipt) : List (AuditEntry × Value) :=
  match record.pii, s.writer.nextEntry crates call record, reply with
  | some value, .ok entry, .ok _ => [(entry, value)]
  | _, _, _ => []

/-- An append that succeeds ends with `sync_all` on the log; the key file of a
key that was minted before has only been written. -/
def record (s : PowerState) (record : Record) (now : Int64)
    (sealing : SealAnswers WrapAnswers) (io : IoOutcome) :
    PowerState × Result Receipt :=
  let call := s.call cipher now sealing io
  let (writer, reply) := s.writer.process crates call record
  ({ writer
     keyring := s.keyringAfter cipher record sealing
     durableLog := if reply.isOk then writer.store.content else s.durableLog
     durableKeys := s.durableKeys
     acked := s.newlyAcked crates call record reply ++ s.acked }, reply)

def ensure (s : PowerState) (keyId : String) (minting : MintAnswers) :
    PowerState × Result Bool :=
  let (keyring, reply) := s.keyring.ensure cipher keyId minting
  ({ s with keyring }, reply)

def shred (s : PowerState) (keyId : String) (removal : Option String) :
    PowerState × Result Bool :=
  let (keyring, reply) := s.keyring.shred cipher keyId removal
  let acked :=
    if reply.isOk then
      s.acked.filter fun kept =>
        kept.1.payload.pii.map EncryptedPii.keyId ≠ some keyId
    else s.acked
  ({ s with keyring, acked }, reply)

def restart (s : PowerState) (reading : OpenAnswers) : Result PowerState := do
  let (writer, keyring) ← openFiles crates cipher s.dir
    (.file (.readable s.log)) s.keyring.files reading
  return { s with writer, keyring }

/-- The files that a power loss may leave. -/
structure Leaves (s : PowerState) (left : Leftover) : Prop where
  durable : s.durableLog <+: left.log
  written : left.log <+: s.log
  names : left.keys.names.Nodup
  keys : ∀ name, Remains (s.durableKeys.find name)
    (s.keyring.files.find name) (left.keys.find name)

/-- Log and keyring are opened again from what a power loss left. -/
def powerLoss (s : PowerState) (left : Leftover) (reading : OpenAnswers) :
    Result PowerState := do
  let (writer, keyring) ← openFiles crates cipher s.dir
    (.file (.readable left.log)) left.keys reading
  return { s with writer, keyring, durableLog := left.log
                  durableKeys := left.keys }

/-- One call.  A file that cannot be opened leaves nothing running, and the
disk as it is. -/
def Step (s : PowerState) : PowerCall → PowerState → Prop
  | .record record now sealing io, t =>
      t = (s.record crates cipher record now sealing io).1
  | .ensure keyId minting, t => t = (s.ensure cipher keyId minting).1
  | .shred keyId removal, t => t = (s.shred cipher keyId removal).1
  | .restart reading, t => s.restart crates cipher reading = .ok t
  | .powerLoss left reading, t =>
      s.Leaves left ∧ s.powerLoss crates cipher left reading = .ok t

def Runs (condition : PowerState → PowerCall → Prop) :
    PowerState → PowerState → Prop :=
  Relation.ReflTransGen fun s t =>
    ∃ call, condition s call ∧ s.Step crates cipher call t

/-! ## What survives -/

/-- The entry is in the log, and its bundle opens to the value. -/
def Recovers (s : PowerState) (entry : AuditEntry) (value : Value) : Prop :=
  (∃ found, readAll crates (.file (.readable s.log)) = .ok found ∧
      entry ∈ found) ∧
    ∃ bundle, entry.payload.pii = some bundle ∧
      cryptoOpen cipher s.keyring bundle = .ok (.ok value)

/-- Behind its durable part the log has whole lines of entries that are not
nested too deep; the last line may lack its newline. -/
def Untorn (limit : ℕ) (s : PowerState) (log : Bytes) : Prop :=
  ∃ entries : List AuditEntry, (∀ e ∈ entries, e.FitsBelow limit) ∧
    (log = s.durableLog ++ linesOf crates entries ∨
      log ++ [newline] = s.durableLog ++ linesOf crates entries)

/-- Whatever a power loss leaves without tearing a line of the log, log and
keyring are opened again, and every acknowledged record with PII is there. -/
def Survivable (limit : ℕ) (s : PowerState) : Prop :=
  ∀ left, s.Leaves left → Untorn crates limit s left.log →
    ∃ t, s.powerLoss crates cipher left .ok = .ok t ∧
      ∀ kept ∈ s.acked, t.Recovers crates cipher kept.1 kept.2

/-! ## When it survives -/

/-- A key for the id is held, or none would be replaced. -/
def MintsNew (s : PowerState) (keyId : String) : Prop :=
  s.keyring.provider.cache.lookup keyId ≠ none ∨
    s.keyring.files.find (keyFileName keyId) = none

/-- The key for the id is in a file, and the file is durable. -/
def KeyDurable (s : PowerState) (keyId : String) : Prop :=
  s.durableKeys.find (keyFileName keyId) =
      s.keyring.files.find (keyFileName keyId) ∧
    ∃ key, s.keyring.provider.cache.lookup keyId = some key ∧
      keyFile cipher s.dir s.durableKeys keyId = some key

/-- Records are appended behind whole lines and not nested too deep, no key
file is replaced, PII that is acknowledged is sealed under a durable key, and
the numbers in it and beside it are read back as they are. -/
def Preserves (limit : ℕ) (round : FloatBits → FloatBits) (s : PowerState) :
    PowerCall → Prop
  | .record record _ _ io =>
      Lines.Terminated newline s.log ∧ record.data.depth + 2 ≤ limit ∧
        ∀ value, record.pii = some value →
          3 ≤ limit ∧ s.MintsNew record.keyId ∧
            (io.write = .synced → s.KeyDurable cipher record.keyId ∧
              record.data.Stable round ∧ value.depth ≤ limit ∧
              value.Stable round)
  | .ensure keyId _ => s.MintsNew keyId
  | .shred _ _ => True
  | .restart _ => True
  | .powerLoss left _ => Untorn crates limit s left.log

/-! ## Opening the files -/

variable {crates cipher}

theorem openFiles_eq_ok {dir : String} {path : DataPath} {keys : Dir}
    {reading : OpenAnswers} {writer : WriterState FileStore}
    {keyring : Keyring}
    (h : openFiles crates cipher dir path keys reading =
      .ok (writer, keyring)) :
    FileStore.openPath crates path = .ok writer.store ∧
      KeyringProvider.openDir cipher dir true keys reading =
        .ok keyring.provider ∧ keyring.files = keys := by
  unfold openFiles at h
  obtain ⟨store, hstore, h⟩ := bind_eq_ok.mp h
  obtain ⟨provider, hprovider, h⟩ := bind_eq_ok.mp h
  obtain ⟨built, hbuild, h⟩ := bind_eq_ok.mp h
  rw [build_eq rfl] at hbuild
  obtain rfl := Except.ok.inj hbuild
  cases h
  exact ⟨hstore, hprovider, rfl⟩

theorem openPath_readable_eq_ok {content : Bytes} {store : FileStore}
    (h : FileStore.openPath crates (.file (.readable content)) = .ok store) :
    store.content = content ∧
      ∃ found, readFile crates (.readable content) = .ok found := by
  unfold FileStore.openPath at h
  obtain ⟨tail, htail, h⟩ := bind_eq_ok.mp h
  obtain ⟨found, hfound, _⟩ := bind_eq_ok.mp htail
  cases h
  exact ⟨rfl, found, hfound⟩

theorem exists_openFiles (dir : String) {content : Bytes} (keys : Dir)
    {found : List AuditEntry}
    (hread : readFile crates (.readable content) = .ok found) :
    ∃ writer keyring,
      openFiles crates cipher dir (.file (.readable content)) keys .ok =
          .ok (writer, keyring) ∧ writer.store.content = content := by
  let store : FileStore := { content, cachedTail := lastHead found }
  have hstore : FileStore.openPath crates (.file (.readable content)) =
      .ok store := by
    simp [FileStore.openPath, FileStore.readTail, readAll, hread, openAppend,
      bind, Except.bind, pure, Except.pure, lastHead, store]
  have htail : Store.tail store = .ok store.cachedTail := rfl
  unfold openFiles
  simp only [hstore, KeyringProvider.openDir, OpenAnswers.ok, build_eq htail,
    bind, Except.bind, pure, Except.pure]
  exact ⟨_, _, rfl, rfl⟩

/-! ## The invariant -/

variable (cipher) in
/-- The bundle of the entry opens with a key that no power loss drops. -/
def Backed (s : PowerState) (entry : AuditEntry) (value : Value) : Prop :=
  ∃ bundle key, entry.payload.pii = some bundle ∧
    SealedUnder cipher key value bundle ∧
    keyFile cipher s.dir s.durableKeys bundle.keyId = some key ∧
    s.durableKeys.find (keyFileName bundle.keyId) =
      s.keyring.files.find (keyFileName bundle.keyId)

variable (crates cipher) in
/-- The log is its durable part, whole lines and at most one torn line; what
has been acknowledged is durable. -/
structure Sound (limit : ℕ) (s : PowerState) : Prop where
  names : s.keyring.files.names.Nodup
  lines : ∃ (entries : List AuditEntry) (torn : Bytes),
    (∀ e ∈ entries, e.FitsBelow limit) ∧ newline ∉ torn ∧
      s.log = s.durableLog ++ linesOf crates entries ++ torn
  terminated : Lines.Terminated newline s.durableLog ∨ s.log = s.durableLog
  read : ∃ found, readFile crates (.readable s.durableLog) = .ok found ∧
    ∀ kept ∈ s.acked, kept.1 ∈ found
  backed : ∀ kept ∈ s.acked, s.Backed cipher kept.1 kept.2 ∧
    valueFromSlice cipher (cipher.serde.toVec kept.2.toDocument) = .ok kept.2

section Reading

variable {limit : ℕ} {round : FloatBits → FloatBits}

/-- A log that a power loss did not tear is read on behind its durable part. -/
theorem readFile_untorn
    (hserde : crates.serde.InvertsUpToFloats limit round) {s : PowerState}
    {log : Bytes} {found : List AuditEntry}
    (hterminated : Lines.Terminated newline s.durableLog)
    (hread : readFile crates (.readable s.durableLog) = .ok found)
    (hlog : s.durableLog <+: log) (huntorn : Untorn crates limit s log) :
    ∃ more, readFile crates (.readable log) = .ok (found ++ more) := by
  obtain ⟨entries, hfits, hwhole | hcut⟩ := huntorn
  · refine ⟨entries.map (AuditEntry.reload round), ?_⟩
    rw [hwhole, readFile_append crates hterminated, hread,
      (readFile_linesOf hserde entries).1 hfits]
    rfl
  · cases entries using List.reverseRecOn with
    | nil =>
        -- the log is no shorter than its durable part
        have hshort := congrArg List.length hcut
        have hlong := hlog.length_le
        simp [linesOf] at hshort
        omega
    | append_singleton entries e =>
        have htext : log = s.durableLog ++ linesOf crates entries ++
            asBytes (entryText crates e) := by
          rw [linesOf_snoc, entryLine_eq, ← List.append_assoc,
            ← List.append_assoc] at hcut
          exact List.append_cancel_right hcut
        have hbefore := (readFile_linesOf hserde entries).1 fun f hf =>
          hfits f (List.mem_append_left _ hf)
        have hlast := (decodeEntry_entryText hserde e).1 (hfits e (by simp))
        refine ⟨(entries ++ [e]).map (AuditEntry.reload round), ?_⟩
        rw [htext, readFile_append crates
          (hterminated.append (terminated_linesOf entries)),
          readFile_append crates hterminated, hread, hbefore,
          readFile_entryText, hlast]
        simp [Except.map]

/-- What a power loss leaves of the log is read, and what was durable is in
it. -/
theorem Sound.exists_read (hserde : crates.serde.InvertsUpToFloats limit round)
    {s : PowerState} (h : s.Sound crates cipher limit) {left : Leftover}
    (hleft : s.Leaves left) (huntorn : Untorn crates limit s left.log) :
    ∃ found, readFile crates (.readable left.log) = .ok found ∧
      ∀ kept ∈ s.acked, kept.1 ∈ found := by
  obtain ⟨found, hread, hkept⟩ := h.read
  rcases h.terminated with hterminated | hsame
  · obtain ⟨more, hmore⟩ :=
      readFile_untorn hserde hterminated hread hleft.durable huntorn
    exact ⟨found ++ more, hmore, fun kept hin =>
      List.mem_append_left _ (hkept kept hin)⟩
  · -- the whole log is durable
    have hlog : left.log = s.durableLog := by
      have hwritten := hleft.written
      rw [hsame] at hwritten
      exact hwritten.eq_of_length_le hleft.durable.length_le
    exact ⟨found, by rw [hlog, hread], hkept⟩

theorem Leaves.keyFile_eq {s : PowerState} {left : Leftover}
    (hleft : s.Leaves left) {keyId : String}
    (hdurable : s.durableKeys.find (keyFileName keyId) =
      s.keyring.files.find (keyFileName keyId)) :
    keyFile cipher s.dir left.keys keyId =
      keyFile cipher s.dir s.durableKeys keyId := by
  have hremains := hleft.keys (keyFileName keyId)
  rw [← hdurable] at hremains
  unfold keyFile
  rw [hremains.eq_of_durable]

theorem lookup_openFiles {dir : String} {path : DataPath} {keys : Dir}
    {writer : WriterState FileStore} {keyring : Keyring}
    (hkeys : keys.names.Nodup)
    (h : openFiles crates cipher dir path keys .ok = .ok (writer, keyring))
    (keyId : String) :
    keyring.provider.cache.lookup keyId = keyFile cipher dir keys keyId := by
  obtain ⟨_, hprovider, _⟩ := openFiles_eq_ok h
  rw [(openDir_ok hkeys hprovider).2, loadedKey_ok]

theorem Sound.survivable (hserde : crates.serde.InvertsUpToFloats limit round)
    (hbase : cipher.Canonical) (hideal : cipher.Ideal) {s : PowerState}
    (h : s.Sound crates cipher limit) :
    s.Survivable crates cipher limit := by
  intro left hleft huntorn
  obtain ⟨found, hread, hfound⟩ := h.exists_read hserde hleft huntorn
  obtain ⟨writer, keyring, hopen, hcontent⟩ :=
    @exists_openFiles crates cipher s.dir left.log left.keys found hread
  refine ⟨{ s with writer, keyring, durableLog := left.log
                   durableKeys := left.keys }, ?_, ?_⟩
  · unfold powerLoss
    rw [hopen]
    rfl
  intro kept hin
  obtain ⟨⟨bundle, key, hbundle, hsealed, hkey, hdurable⟩, hvalue⟩ :=
    h.backed kept hin
  have hlog : (writer.store).content = left.log := hcontent
  have hlookup : keyring.provider.cache.lookup bundle.keyId = some key := by
    rw [lookup_openFiles hleft.names hopen, hleft.keyFile_eq hdurable, hkey]
  refine ⟨⟨found, ?_, hfound kept hin⟩, bundle, hbundle, ?_⟩
  · show readFile crates (.readable writer.store.content) = .ok found
    rw [hlog, hread]
  · rcases keyring.openPlaintext_cases hbase hideal hsealed with
      ⟨hplain, _⟩ | ⟨_, hne⟩
    · rw [cryptoOpen_of_plaintext hplain, hvalue]
    · exact absurd hlookup hne

end Reading

/-! ## Steps -/

section Steps

variable {limit : ℕ} {round : FloatBits → FloatBits} {s : PowerState}

/-- A key file that changes is none that an acknowledged record rests on. -/
theorem Backed.of_files {t : PowerState} {entry : AuditEntry} {value : Value}
    (h : s.Backed cipher entry value) (hdir : t.dir = s.dir)
    (hkeys : t.durableKeys = s.durableKeys)
    (hfiles : ∀ keyId node,
      entry.payload.pii.map EncryptedPii.keyId = some keyId →
      s.keyring.files.find (keyFileName keyId) = some node →
        t.keyring.files.find (keyFileName keyId) = some node) :
    t.Backed cipher entry value := by
  obtain ⟨bundle, key, hbundle, hsealed, hkey, hdurable⟩ := h
  refine ⟨bundle, key, hbundle, hsealed, ?_, ?_⟩
  · rw [hdir, hkeys, hkey]
  · obtain ⟨node, hnode, _⟩ := Option.bind_eq_some_iff.mp hkey
    rw [hdurable] at hnode
    rw [hkeys, hdurable, hnode, hfiles _ node (by rw [hbundle]; rfl) hnode]

theorem grows_keyringAfter {record : Record}
    (hnew : ∀ value, record.pii = some value → s.MintsNew record.keyId)
    (sealing : SealAnswers WrapAnswers) :
    s.keyring.Grows (s.keyringAfter cipher record sealing) := by
  unfold keyringAfter
  cases hpii : record.pii with
  | none => exact Keyring.Grows.refl _
  | some value =>
      dsimp only
      rcases s.keyring.cryptoSeal_fst record.keyId value sealing with
        hsame | ⟨_, hensured⟩
      · rw [hsame]
        exact Keyring.Grows.refl _
      · rw [hensured]
        exact Keyring.grows_ensure (hnew value hpii) _

variable {record : Record} {now : Int64} {sealing : SealAnswers WrapAnswers}
  {io : IoOutcome}

theorem fileStore_append_cases (store : FileStore) (entry : AuditEntry)
    (io : IoOutcome) :
    (∃ next err, Store.append crates store entry io = (next, .error err) ∧
        next.content =
          store.content ++ io.write.written (entryLine crates entry)) ∨
      ∃ next, io.write = .synced ∧
        Store.append crates store entry io = (next, .ok ()) ∧
        next.content = store.content ++ entryLine crates entry := by
  show (∃ next err, FileStore.append crates store entry io =
    (next, .error err) ∧ _) ∨ ∃ next, _ ∧
      FileStore.append crates store entry io = (next, .ok ()) ∧ _
  unfold FileStore.append
  cases hwrite : io.write with
  | synced => exact Or.inr ⟨_, rfl, rfl, rfl⟩
  | writeFailed n reason => exact Or.inl ⟨_, _, rfl, rfl⟩
  | flushFailed reason => exact Or.inl ⟨_, _, rfl, rfl⟩
  | syncFailed reason => exact Or.inl ⟨_, _, rfl, rfl⟩

theorem record_cases (s : PowerState) (record : Record) (now : Int64)
    (sealing : SealAnswers WrapAnswers) (io : IoOutcome) :
    let next := s.writer.nextEntry crates (s.call cipher now sealing io) record
    let t := s.record crates cipher record now sealing io
    ((∃ err, t.2 = .error err) ∧ t.1.durableLog = s.durableLog ∧
      t.1.acked = s.acked ∧
      (t.1.log = s.log ∨ ∃ entry, next = .ok entry ∧
        t.1.log = s.log ++ io.write.written (entryLine crates entry))) ∨
    ∃ entry, next = .ok entry ∧ io.write = .synced ∧
      t.1.log = s.log ++ entryLine crates entry ∧ t.1.durableLog = t.1.log ∧
      t.1.acked = (record.pii.map (Prod.mk entry)).toList ++ s.acked := by
  intro next t
  have ht : t = s.record crates cipher record now sealing io := rfl
  unfold PowerState.record at ht
  rcases s.writer.process_cases crates (s.call cipher now sealing io) record with
    ⟨err, hnext, hprocess⟩ | ⟨entry, store, err, hnext, happend, hprocess⟩ |
      ⟨entry, store, hnext, happend, hprocess⟩
  · left
    simp only [hprocess, newlyAcked, hnext] at ht
    rw [ht]
    refine ⟨⟨err, rfl⟩, rfl, ?_, Or.inl rfl⟩
    cases record.pii <;> rfl
  · left
    simp only [hprocess, newlyAcked, hnext] at ht
    rw [ht]
    refine ⟨⟨err, rfl⟩, rfl, ?_, Or.inr ⟨entry, hnext, ?_⟩⟩
    · cases record.pii <;> rfl
    · rcases @fileStore_append_cases crates s.writer.store entry io with
        ⟨after, reason, hafter, hcontent⟩ | ⟨after, _, hafter, _⟩
      · obtain rfl := congrArg Prod.fst (happend.symm.trans hafter)
        exact hcontent
      · have hreply := congrArg Prod.snd (happend.symm.trans hafter)
        cases hreply
  · right
    simp only [hprocess, newlyAcked, hnext] at ht
    rw [ht]
    rcases @fileStore_append_cases crates s.writer.store entry io with
      ⟨after, reason, hafter, _⟩ | ⟨after, hsynced, hafter, hcontent⟩
    · have hreply := congrArg Prod.snd (happend.symm.trans hafter)
      cases hreply
    · obtain rfl := congrArg Prod.fst (happend.symm.trans hafter)
      refine ⟨entry, hnext, hsynced, hcontent, rfl, ?_⟩
      cases record.pii <;> rfl

theorem Sound.whole (h : s.Sound crates cipher limit)
    (hlog : Lines.Terminated newline s.log) :
    Lines.Terminated newline s.durableLog ∧
      ∃ entries : List AuditEntry, (∀ e ∈ entries, e.FitsBelow limit) ∧
        s.log = s.durableLog ++ linesOf crates entries := by
  constructor
  · rcases h.terminated with hterminated | hsame
    · exact hterminated
    · rwa [← hsame]
  · obtain ⟨entries, torn, hfits, htorn, hlines⟩ := h.lines
    have hnone : torn = [] := by
      by_contra hsome
      rw [hlines] at hlog
      exact Lines.not_terminated_of_notMem hsome htorn _ hlog
    refine ⟨entries, hfits, ?_⟩
    rw [hlines, hnone, List.append_nil]

theorem written_cases (e : AuditEntry) (write : WriteOutcome) :
    write.written (entryLine crates e) = entryLine crates e ∨
      newline ∉ write.written (entryLine crates e) := by
  have htext := newline_notMem_asBytes (entryText_printable crates e)
  rcases Engine.cut_cases (write.written_prefix _) with ⟨hcut, _⟩ | hwhole | hline
  · exact Or.inr fun hmem => htext (hcut.subset hmem)
  · rw [hwhole]
    exact Or.inr htext
  · exact Or.inl hline

/-- The PII of the next entry is sealed under the key that is then held. -/
theorem sealed_nextEntry {entry : AuditEntry} {value : Value}
    (hpii : record.pii = some value)
    (hnext : s.writer.nextEntry crates (s.call cipher now sealing io) record =
      .ok entry) :
    ∃ bundle key, entry.payload.pii = some bundle ∧
      bundle.keyId = record.keyId ∧
      (s.keyringAfter cipher record sealing).provider.cache.lookup
          record.keyId = some key ∧
      SealedUnder cipher key value bundle := by
  unfold WriterState.nextEntry sealPii call at hnext
  unfold keyringAfter
  rw [hpii]
  dsimp only
  cases hseal : cryptoSeal cipher s.keyring record.keyId value sealing with
  | mk next result =>
      simp only [hpii, hseal] at hnext
      cases result with
      | error err => cases hnext
      | ok bundle =>
          obtain rfl := Except.ok.inj hnext
          obtain ⟨hid, key, hlookup, hsealed⟩ :=
            s.keyring.cryptoSeal_sealedUnder record.keyId hseal
          exact ⟨bundle, key, rfl, hid, hlookup, hsealed⟩

/-- The PII of a record that is acknowledged is sealed under the durable
key. -/
theorem backed_nextEntry {entry : AuditEntry} {value : Value}
    (hpii : record.pii = some value)
    (hkey : s.KeyDurable cipher record.keyId)
    (hnext : s.writer.nextEntry crates (s.call cipher now sealing io) record =
      .ok entry) :
    (s.record crates cipher record now sealing io).1.Backed cipher entry
      value := by
  obtain ⟨hsame, key, hheld, hdurable⟩ := hkey
  have hkeyring : s.keyringAfter cipher record sealing = s.keyring := by
    unfold keyringAfter
    rw [hpii]
    exact Keyring.cryptoSeal_held hheld value sealing
  obtain ⟨bundle, held, hbundle, hid, hlookup, hsealed⟩ :=
    sealed_nextEntry hpii hnext
  rw [hkeyring, hheld] at hlookup
  obtain rfl := Option.some.inj hlookup
  have hafter : (s.record crates cipher record now sealing io).1.keyring =
      s.keyring := hkeyring
  refine ⟨bundle, key, hbundle, hsealed, ?_, ?_⟩
  · rw [hid]
    unfold dir
    rw [hafter]
    exact hdurable
  · rw [hid, hafter]
    exact hsame

theorem fits_nextEntry {writer : WriterState FileStore} {call : Call}
    {entry : AuditEntry}
    (hnext : writer.nextEntry crates call record = .ok entry)
    (hdata : record.data.depth + 2 ≤ limit)
    (hpii : ∀ value, record.pii = some value → 3 ≤ limit) :
    entry.FitsBelow limit := by
  obtain ⟨hsame, hsome⟩ := payload_nextEntry hnext
  unfold AuditEntry.FitsBelow
  rw [hsame, hsome]
  refine ⟨hdata, fun h => ?_⟩
  obtain ⟨value, hvalue⟩ := Option.isSome_iff_exists.mp h
  exact hpii value hvalue

theorem valueFromSlice_of_stable
    (hserde : cipher.serde.InvertsUpToFloats limit round) {value : Value}
    (hdepth : value.depth ≤ limit) (hstable : value.Stable round) :
    valueFromSlice cipher (cipher.serde.toVec value.toDocument) = .ok value := by
  apply valueFromSlice_toVec
  rw [(hserde value.toDocument).1 hdepth]
  exact congrArg (fun v => Except.ok (Subtype.val v))
    ((Value.reload_eq_self_iff value).mpr hstable)

theorem Preserves.grows
    (h : s.Preserves crates cipher limit round (.record record now sealing io)) :
    s.keyring.Grows (s.keyringAfter cipher record sealing) :=
  grows_keyringAfter (fun value hvalue => (h.2.2 value hvalue).2.1) sealing

theorem Preserves.fits
    (h : s.Preserves crates cipher limit round (.record record now sealing io))
    {entry : AuditEntry}
    (hnext : s.writer.nextEntry crates (s.call cipher now sealing io) record =
      .ok entry) : entry.FitsBelow limit :=
  fits_nextEntry hnext h.2.1 fun value hvalue => (h.2.2 value hvalue).1

theorem Sound.backed_record (h : s.Sound crates cipher limit)
    (hpreserves : s.Preserves crates cipher limit round
      (.record record now sealing io)) {kept : AuditEntry × Value}
    (hkept : kept ∈ s.acked) :
    (s.record crates cipher record now sealing io).1.Backed cipher kept.1
        kept.2 ∧
      valueFromSlice cipher (cipher.serde.toVec kept.2.toDocument) =
        .ok kept.2 := by
  obtain ⟨hkey, hvalue⟩ := h.backed kept hkept
  have hgrows := hpreserves.grows
  exact ⟨hkey.of_files hgrows.dir rfl fun keyId node _ =>
    hgrows.files (keyFileName keyId) node, hvalue⟩

/-- A record that is not acknowledged adds a whole line, a torn line, or
nothing. -/
theorem Sound.record_unacked (h : s.Sound crates cipher limit)
    (hpreserves : s.Preserves crates cipher limit round
      (.record record now sealing io))
    (hdurable : (s.record crates cipher record now sealing io).1.durableLog =
      s.durableLog)
    (hacked : (s.record crates cipher record now sealing io).1.acked = s.acked)
    (hwritten : (s.record crates cipher record now sealing io).1.log = s.log ∨
      ∃ entry, s.writer.nextEntry crates (s.call cipher now sealing io) record =
          .ok entry ∧
        (s.record crates cipher record now sealing io).1.log =
          s.log ++ io.write.written (entryLine crates entry)) :
    (s.record crates cipher record now sealing io).1.Sound crates cipher
      limit := by
  obtain ⟨hterminated, entries, hfits, hlines⟩ := h.whole hpreserves.1
  refine ⟨hpreserves.grows.names h.names, ?_, ?_, ?_, ?_⟩
  · rw [hdurable]
    rcases hwritten with hkept | ⟨entry, hnext, hafter⟩
    · exact ⟨entries, [], hfits, List.not_mem_nil, by
        rw [hkept, hlines, List.append_nil]⟩
    · rw [hafter, hlines]
      rcases @written_cases crates entry io.write with hwhole | htorn
      · refine ⟨entries ++ [entry], [], ?_, List.not_mem_nil, ?_⟩
        · rw [List.forall_mem_append, List.forall_mem_singleton]
          exact ⟨hfits, hpreserves.fits hnext⟩
        · rw [hwhole, linesOf_snoc, List.append_nil, List.append_assoc]
      · exact ⟨entries, _, hfits, htorn, rfl⟩
  · rw [hdurable]
    exact Or.inl hterminated
  · rw [hdurable, hacked]
    exact h.read
  · rw [hacked]
    exact fun kept hkept => h.backed_record hpreserves hkept

/-- What a log that ends with a newline is read as, once an entry has been
written behind it. -/
theorem Sound.read_appended
    (hserde : crates.serde.InvertsUpToFloats limit round)
    (h : s.Sound crates cipher limit)
    (hlog : Lines.Terminated newline s.log) {entry : AuditEntry}
    (hfits : entry.FitsBelow limit) :
    ∃ found, readFile crates (.readable (s.log ++ entryLine crates entry)) =
        .ok (found ++ [entry.reload round]) ∧
      ∀ kept ∈ s.acked, kept.1 ∈ found := by
  obtain ⟨hterminated, entries, hwhole, hlines⟩ := h.whole hlog
  obtain ⟨found, hread, hfound⟩ := h.read
  refine ⟨found ++ entries.map (AuditEntry.reload round), ?_, fun kept hkept =>
    List.mem_append_left _ (hfound kept hkept)⟩
  rw [readFile_append crates hlog, readFile_entryLine,
    (decodeEntry_entryText hserde entry).1 hfits, hlines,
    readFile_append crates hterminated, hread,
    (readFile_linesOf hserde entries).1 hwhole]
  rfl

theorem Sound.step_record (hserde : crates.serde.InvertsUpToFloats limit round)
    (hsame : cipher.serde = crates.serde) (h : s.Sound crates cipher limit)
    (hpreserves : s.Preserves crates cipher limit round
      (.record record now sealing io)) :
    (s.record crates cipher record now sealing io).1.Sound crates cipher
      limit := by
  rcases @record_cases crates cipher s record now sealing io with
    ⟨_, hdurable, hacked, hwritten⟩ |
      ⟨entry, hnext, hsynced, hafter, hdurable, hnewly⟩
  · exact h.record_unacked hpreserves hdurable hacked hwritten
  · -- the entry is synced behind whole lines
    have hacked : ∀ kept ∈ (s.record crates cipher record now sealing io).1.acked,
        kept ∈ s.acked ∨ kept.1 = entry ∧ record.pii = some kept.2 := by
      intro kept hkept
      rw [hnewly] at hkept
      rcases List.mem_append.mp hkept with hnew | hold
      · obtain ⟨value, hvalue, rfl⟩ :=
          Option.map_eq_some_iff.mp (Option.mem_toList.mp hnew)
        exact Or.inr ⟨rfl, hvalue⟩
      · exact Or.inl hold
    have hpii := hpreserves.2.2
    obtain ⟨found, hread, hfound⟩ :=
      h.read_appended hserde hpreserves.1 (hpreserves.fits hnext)
    refine ⟨hpreserves.grows.names h.names,
      ⟨[], [], by simp, List.not_mem_nil, ?_⟩, Or.inr hdurable.symm,
      ⟨found ++ [entry.reload round], ?_, ?_⟩, ?_⟩
    · rw [hdurable]
      simp [linesOf]
    · rw [hdurable, hafter, hread]
    · intro kept hkept
      rcases hacked kept hkept with hold | ⟨hnew, hvalue⟩
      · exact List.mem_append_left _ (hfound kept hold)
      · obtain ⟨_, hstable, _⟩ := (hpii kept.2 hvalue).2.2 hsynced
        rw [← (payload_nextEntry hnext).1] at hstable
        rw [hnew, AuditEntry.reload_eq_self hstable]
        exact List.mem_append_right _ List.mem_cons_self
    · intro kept hkept
      rcases hacked kept hkept with hold | ⟨hnew, hvalue⟩
      · exact h.backed_record hpreserves hold
      · obtain ⟨hkey, _, hdepth, hstable⟩ := (hpii kept.2 hvalue).2.2 hsynced
        rw [hnew]
        rw [← hsame] at hserde
        exact ⟨backed_nextEntry hvalue hkey hnext,
          valueFromSlice_of_stable hserde hdepth hstable⟩

theorem Sound.step_ensure (h : s.Sound crates cipher limit) {keyId : String}
    (hnew : s.MintsNew keyId) (minting : MintAnswers) :
    (s.ensure cipher keyId minting).1.Sound crates cipher limit := by
  have hgrows : s.keyring.Grows (s.ensure cipher keyId minting).1.keyring :=
    Keyring.grows_ensure hnew minting
  refine ⟨hgrows.names h.names, h.lines, h.terminated, h.read, ?_⟩
  intro kept hkept
  obtain ⟨hkey, hvalue⟩ := h.backed kept hkept
  exact ⟨hkey.of_files hgrows.dir rfl fun keyId node _ =>
    hgrows.files (keyFileName keyId) node, hvalue⟩

theorem Sound.step_shred (h : s.Sound crates cipher limit) (keyId : String)
    (removal : Option String) :
    (s.shred cipher keyId removal).1.Sound crates cipher limit := by
  rcases s.keyring.shred_cases keyId removal with
    ⟨err, _, hsame⟩ | ⟨reason, _, hsame⟩ | ⟨present, hgone, _⟩
  · have hshred : (s.shred cipher keyId removal).1 = s := by
      unfold shred
      rw [hsame]
      rfl
    rw [hshred]
    exact h
  · unfold shred
    rw [hsame]
    exact ⟨h.names, h.lines, h.terminated, h.read, h.backed⟩
  · unfold shred
    rw [hgone]
    obtain ⟨found, hread, hfound⟩ := h.read
    refine ⟨Dir.nodup_remove h.names _, h.lines, h.terminated,
      ⟨found, hread, fun kept hkept => hfound kept (List.mem_of_mem_filter hkept)⟩,
      ?_⟩
    intro kept hkept
    obtain ⟨hold, hother⟩ := List.mem_filter.mp hkept
    obtain ⟨hkey, hvalue⟩ := h.backed kept hold
    refine ⟨hkey.of_files rfl rfl fun other node hid hfind => ?_, hvalue⟩
    have hne : keyFileName other ≠ keyFileName keyId := by
      intro hname
      rw [keyFileName_injective hname] at hid
      simp [hid] at hother
    show (s.keyring.files.remove (keyFileName keyId)).find _ = some node
    rw [Dir.find_remove, if_neg hne, hfind]

theorem openDir_dir {dir : String} {autoCreate : Bool} {files : Dir}
    {reading : OpenAnswers} {provider : KeyringProvider}
    (h : KeyringProvider.openDir cipher dir autoCreate files reading =
      .ok provider) : provider.dir = dir := by
  unfold KeyringProvider.openDir at h
  cases hlisting : reading.listing with
  | some reason =>
      rw [hlisting] at h
      cases h
  | none =>
      rw [hlisting] at h
      rw [← Except.ok.inj h]

theorem Sound.step_restart (h : s.Sound crates cipher limit)
    {reading : OpenAnswers} {t : PowerState}
    (hrestart : s.restart crates cipher reading = .ok t) :
    t.Sound crates cipher limit := by
  obtain ⟨⟨writer, keyring⟩, hopen, ht⟩ := bind_eq_ok.mp hrestart
  obtain rfl := Except.ok.inj ht
  obtain ⟨hstore, hprovider, hfiles⟩ := openFiles_eq_ok hopen
  have hlog : writer.store.content = s.log := (openPath_readable_eq_ok hstore).1
  refine ⟨?_, ?_, ?_, h.read, ?_⟩
  · rw [hfiles]
    exact h.names
  · unfold PowerState.log
    rw [hlog]
    exact h.lines
  · unfold PowerState.log
    rw [hlog]
    exact h.terminated
  · intro kept hkept
    obtain ⟨hkey, hvalue⟩ := h.backed kept hkept
    refine ⟨hkey.of_files (openDir_dir hprovider) rfl fun _ node _ hfind => ?_,
      hvalue⟩
    rw [hfiles, hfind]

theorem Sound.step_powerLoss
    (hserde : crates.serde.InvertsUpToFloats limit round)
    (h : s.Sound crates cipher limit) {left : Leftover}
    (hleft : s.Leaves left) (huntorn : Untorn crates limit s left.log)
    {reading : OpenAnswers} {t : PowerState}
    (hloss : s.powerLoss crates cipher left reading = .ok t) :
    t.Sound crates cipher limit := by
  obtain ⟨⟨writer, keyring⟩, hopen, ht⟩ := bind_eq_ok.mp hloss
  obtain rfl := Except.ok.inj ht
  obtain ⟨hstore, hprovider, hfiles⟩ := openFiles_eq_ok hopen
  have hlog : writer.store.content = left.log :=
    (openPath_readable_eq_ok hstore).1
  refine ⟨?_, ⟨[], [], by simp, List.not_mem_nil, ?_⟩, Or.inr hlog,
    h.exists_read hserde hleft huntorn, ?_⟩
  · rw [hfiles]
    exact hleft.names
  · unfold PowerState.log
    simp [hlog, linesOf]
  · intro kept hkept
    obtain ⟨⟨bundle, key, hbundle, hsealed, hkey, hdurable⟩, hvalue⟩ :=
      h.backed kept hkept
    refine ⟨⟨bundle, key, hbundle, hsealed, ?_, ?_⟩, hvalue⟩
    · have hdir : keyring.provider.dir = s.dir := openDir_dir hprovider
      rw [← hkey, ← hleft.keyFile_eq hdurable]
      exact congrArg (fun dir => keyFile cipher dir left.keys bundle.keyId) hdir
    · rw [hfiles]

theorem Sound.step (hserde : crates.serde.InvertsUpToFloats limit round)
    (hsame : cipher.serde = crates.serde) (h : s.Sound crates cipher limit)
    {call : PowerCall} {t : PowerState}
    (hpreserves : s.Preserves crates cipher limit round call)
    (hstep : s.Step crates cipher call t) : t.Sound crates cipher limit := by
  cases call with
  | record record now sealing io =>
      obtain rfl : t = _ := hstep
      exact h.step_record hserde hsame hpreserves
  | ensure keyId minting =>
      obtain rfl : t = _ := hstep
      exact h.step_ensure hpreserves minting
  | shred keyId removal =>
      obtain rfl : t = _ := hstep
      exact h.step_shred keyId removal
  | restart reading => exact h.step_restart hstep
  | powerLoss left reading =>
      exact h.step_powerLoss hserde hstep.1 hpreserves hstep.2

end Steps

theorem exists_read_openPath {path : DataPath} {store : FileStore}
    (h : FileStore.openPath crates path = .ok store) :
    ∃ found, readFile crates (.readable store.content) = .ok found := by
  cases path with
  | missing =>
      obtain rfl := Except.ok.inj h
      exact ⟨[], rfl⟩
  | directory entries => cases h
  | file node =>
      cases node with
      | unreadable reason => cases h
      | readable content =>
          obtain ⟨hcontent, found, hfound⟩ := openPath_readable_eq_ok h
          exact ⟨found, by rw [hcontent, hfound]⟩

theorem sound_start {limit : ℕ} {dir : String} {path : DataPath} {keys : Dir}
    {reading : OpenAnswers} {s : PowerState} (hkeys : keys.names.Nodup)
    (hstart : start crates cipher dir path keys reading = .ok s) :
    s.Sound crates cipher limit := by
  obtain ⟨⟨writer, keyring⟩, hopen, hs⟩ := bind_eq_ok.mp hstart
  obtain rfl := Except.ok.inj hs
  obtain ⟨hstore, hprovider, hfiles⟩ := openFiles_eq_ok hopen
  obtain ⟨found, hfound⟩ := exists_read_openPath hstore
  refine ⟨?_, ⟨[], [], by simp, List.not_mem_nil, ?_⟩, Or.inr rfl,
    ⟨found, hfound, by simp⟩, by simp⟩
  · rw [hfiles]
    exact hkeys
  · simp [PowerState.log, linesOf]

/-! ## A key that was minted for a record -/

/-- A record whose key has no durable file is lost with the key. -/
theorem not_survivable_of_volatile_key (hbase : cipher.Canonical)
    (hideal : cipher.Ideal) (limit : ℕ) {s : PowerState} {record : Record}
    {value : Value} {now : Int64} {sealing : SealAnswers WrapAnswers}
    {io : IoOutcome} {receipt : Receipt}
    (hkeys : s.durableKeys.names.Nodup) (hpii : record.pii = some value)
    (hvolatile : s.durableKeys.find (keyFileName record.keyId) = none)
    (hreply : (s.record crates cipher record now sealing io).2 =
      .ok receipt) :
    ¬(s.record crates cipher record now sealing io).1.Survivable crates cipher
      limit := by
  intro hsurvives
  rcases @record_cases crates cipher s record now sealing io with
    ⟨⟨err, herr⟩, _⟩ | ⟨entry, hnext, _, _, hdurable, hacked⟩
  · rw [hreply] at herr
    cases herr
  · -- the power loss keeps the log and drops every key file not synced
    let left : Leftover := {
      log := (s.record crates cipher record now sealing io).1.durableLog
      keys := s.durableKeys }
    have hleft : (s.record crates cipher record now sealing io).1.Leaves left :=
      { durable := List.prefix_rfl
        written := by
          show PowerState.durableLog _ <+: _
          rw [hdurable]
        names := hkeys
        keys := fun _ => .dropped }
    obtain ⟨t, hloss, hrecovers⟩ := hsurvives left hleft
      ⟨[], by simp, Or.inl (by simp [linesOf, left])⟩
    obtain ⟨⟨writer, keyring⟩, hopen, ht⟩ := bind_eq_ok.mp hloss
    obtain rfl := Except.ok.inj ht
    obtain ⟨_, bundle, hbundle, hopened⟩ := hrecovers (entry, value) (by
      rw [hacked, hpii]
      exact List.mem_cons_self)
    obtain ⟨sealed, key, hsealed, hid, _, hunder⟩ :=
      sealed_nextEntry hpii hnext
    obtain rfl : bundle = sealed := by
      rw [hsealed] at hbundle
      exact (Option.some.inj hbundle).symm
    have hlookup : keyring.provider.cache.lookup bundle.keyId = none := by
      rw [lookup_openFiles hkeys hopen, hid]
      unfold keyFile
      rw [hvolatile]
      rfl
    rcases keyring.openPlaintext_cases hbase hideal hunder with
      ⟨_, hheld⟩ | ⟨⟨err, hfail⟩, _⟩
    · rw [hlookup] at hheld
      cases hheld
    · rw [cryptoOpen_of_error hfail] at hopened
      cases hopened

theorem nodup_durableKeys {s t : PowerState}
    (hrun : Runs crates cipher (fun _ _ => True) s t)
    (hkeys : s.durableKeys.names.Nodup) : t.durableKeys.names.Nodup := by
  induction hrun with
  | refl => exact hkeys
  | tail _ hstep ih =>
      obtain ⟨call, _, hstep⟩ := hstep
      cases call with
      | record record now sealing io =>
          obtain rfl := hstep
          exact ih
      | ensure keyId minting =>
          obtain rfl := hstep
          exact ih
      | shred keyId removal =>
          obtain rfl := hstep
          exact ih
      | restart reading =>
          obtain ⟨_, _, ht⟩ := bind_eq_ok.mp hstep
          obtain rfl := Except.ok.inj ht
          exact ih
      | powerLoss left reading =>
          obtain ⟨_, _, ht⟩ := bind_eq_ok.mp hstep.2
          obtain rfl := Except.ok.inj ht
          exact hstep.1.names

/-- Where every acknowledged record with PII is sealed under a key whose file
is durable, log and keyring bring it back after any power loss at any time; a
record whose key has no durable file is lost. -/
theorem acknowledged_survives (crates : Crates) (cipher : CipherCrates)
    (limit : ℕ) (round : FloatBits → FloatBits)
    (hserde : crates.serde.InvertsUpToFloats limit round)
    (hsame : cipher.serde = crates.serde) (hbase : cipher.Canonical)
    (hideal : cipher.Ideal) (dir : String) (path : DataPath) (keys : Dir)
    (hkeys : keys.names.Nodup) (reading : OpenAnswers) (s : PowerState)
    (hstart : start crates cipher dir path keys reading = .ok s) :
    (∀ t, Runs crates cipher (Preserves crates cipher limit round) s t →
      t.Survivable crates cipher limit) ∧
    ∀ t, Runs crates cipher (fun _ _ => True) s t →
      ∀ record value now sealing io receipt,
        record.pii = some value →
        t.durableKeys.find (keyFileName record.keyId) = none →
        (t.record crates cipher record now sealing io).2 = .ok receipt →
          ¬(t.record crates cipher record now sealing io).1.Survivable crates
            cipher limit := by
  constructor
  · intro t hrun
    have hsound : t.Sound crates cipher limit := by
      induction hrun with
      | refl => exact sound_start hkeys hstart
      | tail _ hstep ih =>
          obtain ⟨call, hpreserves, hstep⟩ := hstep
          exact ih.step hserde hsame hpreserves hstep
    exact hsound.survivable hserde hbase hideal
  · intro t hrun record value now sealing io receipt hpii hvolatile hreply
    have hdurable : s.durableKeys = keys := by
      obtain ⟨_, _, hs⟩ := bind_eq_ok.mp hstart
      obtain rfl := Except.ok.inj hs
      rfl
    rw [← hdurable] at hkeys
    exact not_survivable_of_volatile_key hbase hideal limit
      (nodup_durableKeys hrun hkeys) hpii hvolatile hreply

/-! ## A subject's first record -/

section Subject

open SharedKeyring

/-- A log that does not exist yet, and a keyring over its files. -/
noncomputable def fresh (keys : Dir) : PowerState where
  writer := { store := { content := [], cachedTail := none }, seq := 0
              prevHash := genesisPrevHash }
  keyring := {
    provider := {
      dir := "keys"
      cache := keys.foldl
        (KeyringProvider.loadKeyFile referenceCipher "keys" .ok) ∅
      autoCreate := true }
    files := keys }
  durableLog := []
  durableKeys := keys
  acked := []

theorem start_fresh (keys : Dir) :
    start referenceCrates referenceCipher "keys" .missing keys .ok =
      .ok (fresh keys) := rfl

def subjectLogin : Record :=
  (alice.withKeyId "subject-123").withPii
    ⟨.string "555-0100", by simp [Json.Sorted]⟩

/-- Sealing and appending succeed; `key` is what is minted, if one is. -/
noncomputable def subjectRecord (keys : Dir) (key : Key) :
    PowerState × Result Receipt :=
  (fresh keys).record referenceCrates referenceCipher subjectLogin 0
    (sealAnswers key) .ok

theorem subjectRecord_ok {keys : Dir} {key held : Key} {next : Keyring}
    {created : Bool}
    (hensure : (fresh keys).keyring.ensure referenceCipher "subject-123"
      (mintAnswers key) = (next, .ok created))
    (hlookup : next.provider.cache.lookup "subject-123" = some held) :
    ∃ receipt, (subjectRecord keys key).2 = .ok receipt := by
  obtain ⟨bundle, hseal⟩ := cryptoSeal_ensured rfl hensure hlookup
    ⟨.string "555-0100", by simp [Json.Sorted]⟩
  unfold subjectRecord PowerState.record WriterState.process sealPii call
  simp only [subjectLogin, Record.withPii, Record.withKeyId, hseal, Except.map]
  exact ⟨_, rfl⟩

/-- The subject's key, in a file that is there from the start. -/
noncomputable def subjectKeys : Dir :=
  [(keyFileName "subject-123",
    .readable (keyText referenceCipher (sampleKey 1)))]

theorem keyFile_subjectKeys :
    keyFile referenceCipher "keys" subjectKeys "subject-123" =
      some (sampleKey 1) := by
  unfold keyFile subjectKeys
  rw [Dir.find_cons, if_pos rfl, Option.bind_some,
    readKeyFile_keyText referenceCipher_canonical]
  rfl

theorem nodup_subjectKeys : subjectKeys.names.Nodup := List.nodup_singleton _

theorem lookup_subjectKeys :
    (fresh subjectKeys).keyring.provider.cache.lookup "subject-123" =
      some (sampleKey 1) := by
  have hopen : KeyringProvider.openDir referenceCipher "keys" true subjectKeys
      .ok = .ok (fresh subjectKeys).keyring.provider := rfl
  rw [(openDir_ok nodup_subjectKeys hopen).2, loadedKey_ok]
  exact keyFile_subjectKeys

theorem acknowledged_survives_subject :
    ∃ receipt, (subjectRecord subjectKeys (sampleKey 2)).2 = .ok receipt ∧
      (subjectRecord subjectKeys (sampleKey 2)).1.Survivable referenceCrates
        referenceCipher 127 := by
  have hvalid : validKeyId "subject-123" = true := by decide
  have hheld := @Keyring.ensure_present referenceCipher _ _ _ hvalid
    lookup_subjectKeys (mintAnswers (sampleKey 2))
  obtain ⟨receipt, hreply⟩ := subjectRecord_ok hheld lookup_subjectKeys
  obtain ⟨hsurvives, _⟩ := acknowledged_survives referenceCrates referenceCipher
    127 id (referenceSerde_invertsUpTo 127).floats rfl
    referenceCipher_canonical referenceCipher_ideal "keys" .missing subjectKeys
    nodup_subjectKeys .ok (fresh subjectKeys) (start_fresh subjectKeys)
  refine ⟨receipt, hreply, hsurvives _ (.single
    ⟨.record subjectLogin 0 (sealAnswers (sampleKey 2)) .ok, ?_, rfl⟩)⟩
  have hstable (value : Value) : value.Stable id := fun _ _ => rfl
  refine ⟨Lines.terminated_nil newline, ?_, ?_⟩
  · simp [subjectLogin, Record.withPii, Record.withKeyId, alice, Record.new,
      Value.depth, Value.toDocument, Value.null]
  · intro value hvalue
    obtain rfl := Option.some.inj hvalue
    refine ⟨by omega, Or.inl ?_, fun _ => ⟨⟨rfl, sampleKey 1, ?_, ?_⟩,
      hstable _, ?_, hstable _⟩⟩
    · rw [show subjectLogin.keyId = "subject-123" from rfl, lookup_subjectKeys]
      simp
    · exact lookup_subjectKeys
    · exact keyFile_subjectKeys
    · simp [Value.depth, Value.toDocument]

/-- The key of a first record is lost with the power, and the record with
it. -/
theorem first_record_lost :
    ∃ receipt, start referenceCrates referenceCipher "keys" .missing [] .ok =
        .ok (fresh []) ∧
      (subjectRecord [] (sampleKey 1)).2 = .ok receipt ∧
      ¬(subjectRecord [] (sampleKey 1)).1.Survivable referenceCrates
        referenceCipher 127 := by
  have hvalid : validKeyId "subject-123" = true := by decide
  have hminted := @Keyring.ensure_absent referenceCipher (fresh []).keyring
    "subject-123" (sampleKey 1) (mintAnswers (sampleKey 1)) hvalid rfl rfl rfl
    (fun _ h => nomatch h)
  obtain ⟨receipt, hreply⟩ :=
    subjectRecord_ok hminted (AList.lookup_insert _)
  exact ⟨receipt, start_fresh [], hreply,
    not_survivable_of_volatile_key referenceCipher_canonical
      referenceCipher_ideal 127 List.nodup_nil rfl rfl hreply⟩

end Subject

end PowerState

end Chainlog
