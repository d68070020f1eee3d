import Chainlog.Crypto
import Chainlog.Directory
import Mathlib.Data.List.AList

/-!
# The keyring

A key provider with one key for each key id.  The keys live as base64 files in
a directory; a provider reads them once, when it is opened, and answers from
its cache.  Locking is left out: no call panics while it holds the lock.
-/

namespace Chainlog

def keyFilePrefix : List Char := ['k', 'e', 'y', '-']

def keyFileSuffix : List Char := ['.', 'b', '6', '4']

def keyFileName (keyId : String) : String :=
  String.ofList (keyFilePrefix ++ keyId.toList ++ keyFileSuffix)

/-- The key id that a file name stands for. -/
def keyIdOf (name : String) : Option String := do
  let rest ← stripPrefix keyFilePrefix name.toList
  let id ← stripSuffix keyFileSuffix rest
  return String.ofList id

def isKeyIdByte (b : UInt8) : Bool :=
  (48 ≤ b && b ≤ 57) || (65 ≤ b && b ≤ 90) || (97 ≤ b && b ≤ 122) ||
    b = 45 || b = 95 || b = 46

/-- Key ids must be filesystem-safe to map onto key files. -/
def validKeyId (id : String) : Bool :=
  !(asBytes id).isEmpty && (asBytes id).length ≤ 128 &&
    (asBytes id).all isKeyIdByte

/-- `HashMap<String, [u8; MASTER_KEY_LEN]>`. -/
abbrev KeyCache := AList fun _ : String => Key

structure KeyringProvider where
  dir : String
  cache : KeyCache
  /-- If set, wrapping mints a key for an unknown key id. -/
  autoCreate : Bool

/-- A provider and the files of its directory. -/
structure Keyring where
  provider : KeyringProvider
  files : Dir

/-- What the file system answers while a keyring is opened: an error of
creating or listing the directory, and passing errors of reading its files. -/
structure OpenAnswers where
  listing : Option String
  read : String → Option String

def OpenAnswers.ok : OpenAnswers where
  listing := none
  read _ := none

/-- The file as this reader finds it. -/
def OpenAnswers.node (answers : OpenAnswers) (file : String × FileNode) :
    FileNode :=
  match answers.read file.1 with
  | some reason => .unreadable reason
  | none => file.2

/-- What is answered while a key is made. -/
structure MintAnswers where
  draw : Except String Key
  write : FileWrite

/-- What is answered while a data key is wrapped. -/
structure WrapAnswers where
  mint : MintAnswers
  nonce : Except String Nonce

def invalidKeyId (crates : CipherCrates) (keyId : String) : Error :=
  .key s!"invalid key_id {crates.debug keyId}"

namespace KeyringProvider

variable (crates : CipherCrates)

/-- `Path::join`, as it is displayed. -/
def filePath (dir name : String) : String := dir ++ "/" ++ name

def readKeyFile (path : String) (node : FileNode) : Result Key := do
  let raw ← match node with
    | .unreadable reason => .error (.io reason)
    | .readable content =>
        match fromUtf8 content with
        | some text => .ok text
        | none => .error (.io "stream did not contain valid UTF-8")
  let bytes ← (crates.base64Decode (trim raw)).mapError Error.base64
  if h : bytes.length = keyLen then .ok ⟨bytes, h⟩
  else .error (.key s!"key file {path} has wrong length")

/-- One turn of the loop of `open`: a file that cannot be read is skipped. -/
def loadKeyFile (dir : String) (answers : OpenAnswers) (cache : KeyCache)
    (file : String × FileNode) : KeyCache :=
  match keyIdOf file.1 with
  | none => cache
  | some id =>
      match readKeyFile crates (filePath dir file.1) (answers.node file) with
      | .ok key => cache.insert id key
      | .error _ => cache

def openDir (dir : String) (autoCreate : Bool) (files : Dir)
    (answers : OpenAnswers) : Result KeyringProvider :=
  match answers.listing with
  | some reason => .error (.io reason)
  | none => .ok {
      dir
      cache := files.foldl (loadKeyFile crates dir answers) ∅
      autoCreate }

def get (provider : KeyringProvider) (keyId : String) : Result Key :=
  match provider.cache.lookup keyId with
  | some key => .ok key
  | none => .error (.key
      s!"no key for key_id {crates.debug keyId} (shredded or never created)")

def list (provider : KeyringProvider) : List String :=
  provider.cache.keys.insertionSort fun a b => a ≤ b

end KeyringProvider

namespace Keyring

open KeyringProvider

variable (crates : CipherCrates)

def setCache (keyring : Keyring) (cache : KeyCache) : Keyring :=
  { keyring with provider := { keyring.provider with cache } }

/-- Ensure a key exists for `keyId`, creating it if absent; true if a new key
was created.  The key file is written before the cache. -/
def ensure (keyring : Keyring) (keyId : String) (answers : MintAnswers) :
    Keyring × Result Bool :=
  if !validKeyId keyId then (keyring, .error (invalidKeyId crates keyId))
  else if (keyring.provider.cache.lookup keyId).isSome then
    (keyring, .ok false)
  else
    match randomBytes answers.draw with
    | .error err => (keyring, .error err)
    | .ok key =>
        let (files, written) := keyring.files.write (keyFileName keyId)
          (asBytes (crates.base64Encode key.val)) answers.write
        match written with
        | .error err => ({ keyring with files }, .error err)
        | .ok () =>
            ({ keyring with files }.setCache
              (keyring.provider.cache.insert keyId key), .ok true)

/-- Destroy the key for `keyId`; true if a key was present and removed.  The
key leaves the cache before its file is removed. -/
def shred (keyring : Keyring) (keyId : String) (removal : Option String) :
    Keyring × Result Bool :=
  if !validKeyId keyId then (keyring, .error (invalidKeyId crates keyId))
  else
    let had := (keyring.provider.cache.lookup keyId).isSome
    let next := keyring.setCache (keyring.provider.cache.erase keyId)
    let fileExisted := (keyring.files.find (keyFileName keyId)).isSome
    if fileExisted then
      match removal with
      | some reason => (next, .error (.io reason))
      | none =>
          ({ next with files := keyring.files.remove (keyFileName keyId) },
            .ok (had || fileExisted))
    else (next, .ok (had || fileExisted))

def wrapDek (keyring : Keyring) (keyId : String) (dek : Bytes)
    (answers : WrapAnswers) : Keyring × Result Bytes :=
  let (next, ensured) :=
    if keyring.provider.autoCreate then keyring.ensure crates keyId answers.mint
    else (keyring, .ok false)
  (next, do
    let _ ← ensured
    let key ← next.provider.get crates keyId
    wrapWithKey crates key dek answers.nonce)

def unwrapDek (keyring : Keyring) (keyId : String) (wrapped : Bytes) :
    Result Bytes := do
  let key ← keyring.provider.get crates keyId
  unwrapWithKey crates key wrapped

end Keyring

instance : KeyProvider Keyring WrapAnswers where
  wrapDek := Keyring.wrapDek
  unwrapDek := Keyring.unwrapDek

/-! ## Key files -/

theorem keyIdOf_keyFileName (keyId : String) :
    keyIdOf (keyFileName keyId) = some keyId := by
  unfold keyIdOf keyFileName
  rw [String.toList_ofList, List.append_assoc, stripPrefix_append]
  simp only [bind, Option.bind, stripSuffix_append]
  exact congrArg some String.ofList_toList

theorem keyFileName_injective : Function.Injective keyFileName := by
  intro a b h
  have hread := congrArg keyIdOf h
  rw [keyIdOf_keyFileName, keyIdOf_keyFileName] at hread
  exact Option.some.inj hread

theorem keyIdOf_eq_some {name keyId : String} (h : keyIdOf name = some keyId) :
    name = keyFileName keyId := by
  unfold keyIdOf at h
  obtain ⟨rest, hrest, hafter⟩ := Option.bind_eq_some_iff.mp h
  obtain ⟨id, hid, hsome⟩ := Option.bind_eq_some_iff.mp hafter
  obtain rfl := Option.some.inj hsome
  unfold keyFileName
  rw [String.toList_ofList, List.append_assoc, ← stripSuffix_eq_some hid,
    ← stripPrefix_eq_some hrest]
  exact String.ofList_toList.symm

section Files

variable (crates : CipherCrates)

/-- The key that the file of a key id holds. -/
def keyFile (dir : String) (files : Dir) (keyId : String) : Option Key :=
  (files.find (keyFileName keyId)).bind fun node =>
    (KeyringProvider.readKeyFile crates
      (KeyringProvider.filePath dir (keyFileName keyId)) node).toOption

/-- The content of the file of a key. -/
def keyText (key : Key) : Bytes := asBytes (crates.base64Encode key.val)

end Files

variable {crates : CipherCrates}

open KeyringProvider

theorem readKeyFile_keyText (hbase : crates.Canonical) (path : String)
    (key : Key) :
    readKeyFile crates path (.readable (keyText crates key)) = .ok key := by
  unfold readKeyFile keyText
  simp only [fromUtf8_asBytes, bind, Except.bind]
  rw [trim_eq_self (hbase.encode_graphic _), (hbase.decode_iff _ _).mpr rfl]
  simp only [Except.mapError]
  rw [dif_pos key.property]

theorem keyText_injective (hbase : crates.Canonical) :
    Function.Injective (keyText crates) := by
  intro key key' h
  have hread := readKeyFile_keyText hbase "" key
  rw [h, readKeyFile_keyText hbase] at hread
  exact (Except.ok.inj hread).symm

/-- A front part of a key file holds that key or none. -/
theorem readKeyFile_take (hbase : crates.Canonical) {path : String}
    {key held : Key} {n : ℕ}
    (hread : readKeyFile crates path
      (.readable ((keyText crates key).take n)) = .ok held) : held = key := by
  unfold readKeyFile at hread
  simp only [bind, Except.bind] at hread
  cases htext : fromUtf8 ((keyText crates key).take n) with
  | none =>
      rw [htext] at hread
      cases hread
  | some text =>
      rw [htext] at hread
      simp only at hread
      have hfront : asBytes text <+: keyText crates key := by
        rw [← fromUtf8_eq_some.mp htext]
        exact List.take_prefix _ _
      obtain ⟨rest, hrest⟩ := exists_append_of_asBytes_prefix hfront
      have hgraphic : ∀ c ∈ text.toList, isWhitespace c = false := by
        intro c hc
        apply hbase.encode_graphic key.val c
        rw [hrest, String.toList_append]
        exact List.mem_append_left _ hc
      rw [trim_eq_self hgraphic] at hread
      cases hdecode : crates.base64Decode text with
      | error e =>
          rw [hdecode] at hread
          cases hread
      | ok bytes =>
          rw [hdecode] at hread
          simp only [Except.mapError] at hread
          split_ifs at hread with hlen
          obtain rfl := Except.ok.inj hread
          have hcode := (hbase.decode_iff text bytes).mp hdecode
          have hsame : (crates.base64Encode key.val).length = text.length := by
            rw [hcode, hbase.length_encode, hbase.length_encode, hlen,
              key.property]
          have hempty : rest = "" := by
            rw [hrest, String.length_append] at hsame
            apply String.toList_inj.mp
            apply List.length_eq_zero_iff.mp
            rw [String.length_toList]
            omega
          rw [hempty, String.append_empty] at hrest
          have hkey := (hbase.decode_iff text key.val).mpr hrest.symm
          rw [hdecode] at hkey
          exact Subtype.ext (Except.ok.inj hkey)

theorem keyFile_put_self (hbase : crates.Canonical) (dir : String)
    (files : Dir) (keyId : String) (key : Key) :
    keyFile crates dir
      (files.put (keyFileName keyId) (keyText crates key)) keyId = some key := by
  unfold keyFile
  rw [Dir.find_put, if_pos rfl, Option.bind_some, readKeyFile_keyText hbase]
  rfl

theorem keyFile_put_of_ne (dir : String) (files : Dir) {keyId other : String}
    (hne : other ≠ keyId) (content : Bytes) :
    keyFile crates dir (files.put (keyFileName keyId) content) other =
      keyFile crates dir files other := by
  unfold keyFile
  rw [Dir.find_put, if_neg fun h => hne (keyFileName_injective h)]

theorem keyFile_remove (dir : String) (files : Dir) (keyId other : String) :
    keyFile crates dir (files.remove (keyFileName keyId)) other =
      if other = keyId then none else keyFile crates dir files other := by
  unfold keyFile
  rw [Dir.find_remove]
  by_cases hother : other = keyId
  · rw [if_pos (congrArg keyFileName hother), if_pos hother]
    rfl
  · rw [if_neg fun h => hother (keyFileName_injective h), if_neg hother]

/-! ## Opening -/

/-- The key that a reader finds in the file of a key id. -/
def loadedKey (crates : CipherCrates) (dir : String) (answers : OpenAnswers)
    (files : Dir) (keyId : String) : Option Key :=
  (files.find (keyFileName keyId)).bind fun node =>
    (readKeyFile crates (filePath dir (keyFileName keyId))
      (answers.node (keyFileName keyId, node))).toOption

theorem loadedKey_ok (dir : String) (files : Dir) (keyId : String) :
    loadedKey crates dir .ok files keyId = keyFile crates dir files keyId := rfl

/-- A file that is read at all is read as it is. -/
theorem keyFile_of_loadedKey {dir : String} {answers : OpenAnswers}
    {files : Dir} {keyId : String} {key : Key}
    (hloaded : loadedKey crates dir answers files keyId = some key) :
    keyFile crates dir files keyId = some key := by
  obtain ⟨node, hfind, hread⟩ := Option.bind_eq_some_iff.mp hloaded
  unfold keyFile
  rw [hfind, Option.bind_some]
  unfold OpenAnswers.node at hread
  cases hanswer : answers.read (keyFileName keyId) with
  | none =>
      rw [hanswer] at hread
      exact hread
  | some reason =>
      rw [hanswer] at hread
      cases hread

theorem lookup_foldl_loadKeyFile (dir : String) (answers : OpenAnswers)
    {files : Dir} (hfiles : files.names.Nodup) (cache : KeyCache)
    (keyId : String) :
    (files.foldl (loadKeyFile crates dir answers) cache).lookup keyId =
      (loadedKey crates dir answers files keyId).or (cache.lookup keyId) := by
  induction files generalizing cache with
  | nil => rfl
  | cons file rest ih =>
      obtain ⟨hnew, hrest⟩ := List.nodup_cons.mp hfiles
      rw [List.foldl_cons, ih hrest]
      unfold loadedKey
      rw [Dir.find_cons]
      by_cases hname : file.1 = keyFileName keyId
      · -- the rest of the listing has no file of this name
        have hnone : Dir.find rest (keyFileName keyId) = none := by
          rw [← hname]
          exact Dir.find_eq_none.mpr hnew
        rw [hnone, if_pos hname, Option.bind_none, Option.none_or,
          Option.bind_some, loadKeyFile, hname, keyIdOf_keyFileName]
        have hfile : file = (keyFileName keyId, file.2) := by rw [← hname]
        rw [← hfile]
        cases readKeyFile crates (filePath dir (keyFileName keyId))
          (answers.node file) with
        | error err => rfl
        | ok key => exact AList.lookup_insert _
      · rw [if_neg hname]
        congr 1
        unfold loadKeyFile
        cases hid : keyIdOf file.1 with
        | none => rfl
        | some id =>
            have hne : keyId ≠ id := by
              rintro rfl
              exact hname (keyIdOf_eq_some hid)
            cases readKeyFile crates (filePath dir file.1)
              (answers.node file) with
            | error err => rfl
            | ok key => exact AList.lookup_insert_ne hne

theorem openDir_ok {dir : String} {autoCreate : Bool} {files : Dir}
    (hfiles : files.names.Nodup) {answers : OpenAnswers}
    {provider : KeyringProvider}
    (hopen : openDir crates dir autoCreate files answers = .ok provider) :
    provider.autoCreate = autoCreate ∧ ∀ keyId, provider.cache.lookup keyId =
      loadedKey crates dir answers files keyId := by
  unfold openDir at hopen
  cases hlisting : answers.listing with
  | some reason =>
      rw [hlisting] at hopen
      cases hopen
  | none =>
      rw [hlisting] at hopen
      obtain rfl := Except.ok.inj hopen
      refine ⟨rfl, fun keyId => ?_⟩
      simp only [lookup_foldl_loadKeyFile dir answers hfiles, AList.lookup_empty,
        Option.or_none]

/-! ## What the operations do -/

namespace Keyring

variable (keyring : Keyring) (keyId : String)

def setFile (content : Bytes) : Keyring :=
  { keyring with files := keyring.files.put (keyFileName keyId) content }

def removeFile : Keyring :=
  { keyring with files := keyring.files.remove (keyFileName keyId) }

/-- `ensure` changes nothing, mints a key, or fails while it writes one. -/
theorem ensure_cases (answers : MintAnswers) :
    (∃ result, keyring.ensure crates keyId answers = (keyring, result) ∧
        result ≠ .ok true) ∨
      ∃ key, answers.draw = .ok key ∧ validKeyId keyId = true ∧
        keyring.provider.cache.lookup keyId = none ∧
        (keyring.ensure crates keyId answers =
            ((keyring.setFile keyId (keyText crates key)).setCache
              (keyring.provider.cache.insert keyId key), .ok true) ∨
          ∃ n reason, answers.write = .writeFailed n reason ∧
            keyring.ensure crates keyId answers =
              (keyring.setFile keyId ((keyText crates key).take n),
                .error (.io reason))) := by
  unfold ensure
  by_cases hvalid : validKeyId keyId = true
  · simp only [hvalid, Bool.not_true, Bool.false_eq_true, if_false]
    cases hlookup : keyring.provider.cache.lookup keyId with
    | some key => exact Or.inl ⟨_, rfl, by simp⟩
    | none =>
        simp only [Option.isSome_none, Bool.false_eq_true, if_false]
        cases hdraw : answers.draw with
        | error e => exact Or.inl ⟨_, rfl, by simp⟩
        | ok key =>
            simp only [randomBytes, Except.mapError]
            rcases Dir.write_cases keyring.files (keyFileName keyId)
                (asBytes (crates.base64Encode key.val)) answers.write with
              ⟨err, hwrite⟩ | ⟨_, hwrite⟩ | ⟨n, reason, hanswer, hwrite⟩
            · rw [hwrite]
              exact Or.inl ⟨_, rfl, by simp⟩
            · rw [hwrite]
              exact Or.inr ⟨key, rfl, trivial, trivial, Or.inl rfl⟩
            · rw [hwrite]
              exact Or.inr ⟨key, rfl, trivial, trivial,
                Or.inr ⟨n, reason, hanswer, rfl⟩⟩
  · simp only [hvalid]
    exact Or.inl ⟨_, rfl, by simp⟩

variable {keyring keyId} in
theorem ensure_present {key : Key} (hvalid : validKeyId keyId = true)
    (hlookup : keyring.provider.cache.lookup keyId = some key)
    (answers : MintAnswers) :
    keyring.ensure crates keyId answers = (keyring, .ok false) := by
  unfold ensure
  simp [hvalid, hlookup]

variable {keyring keyId} in
/-- A key that the cache lacks is minted, whatever its file holds. -/
theorem ensure_absent {key : Key} {answers : MintAnswers}
    (hvalid : validKeyId keyId = true)
    (hlookup : keyring.provider.cache.lookup keyId = none)
    (hdraw : answers.draw = .ok key) (hwrite : answers.write = .written)
    (hfile : ∀ reason,
      keyring.files.find (keyFileName keyId) ≠ some (.unreadable reason)) :
    keyring.ensure crates keyId answers =
      ((keyring.setFile keyId (keyText crates key)).setCache
        (keyring.provider.cache.insert keyId key), .ok true) := by
  unfold ensure
  simp only [hvalid, hlookup, hdraw, hwrite, randomBytes, Except.mapError,
    Dir.write_written hfile]
  rfl

/-- `shred` refuses the id, fails to remove the file, or leaves nothing; it
answers `false` where there was nothing. -/
theorem shred_cases (removal : Option String) :
    (∃ err, validKeyId keyId = false ∧
        keyring.shred crates keyId removal = (keyring, .error err)) ∨
      (∃ reason, removal = some reason ∧
        keyring.shred crates keyId removal =
          (keyring.setCache (keyring.provider.cache.erase keyId),
            .error (.io reason))) ∨
      ∃ present, keyring.shred crates keyId removal =
          ((keyring.removeFile keyId).setCache
            (keyring.provider.cache.erase keyId), .ok present) ∧
        (present = false → keyring.provider.cache.lookup keyId = none ∧
          keyring.files.find (keyFileName keyId) = none) := by
  unfold shred
  by_cases hvalid : validKeyId keyId = true
  · simp only [hvalid, Bool.not_true, Bool.false_eq_true, if_false]
    refine Or.inr ?_
    cases hfind : keyring.files.find (keyFileName keyId) with
    | some node =>
        simp only [Option.isSome_some, if_true, Bool.or_true]
        cases removal with
        | some reason => exact Or.inl ⟨reason, rfl, rfl⟩
        | none => exact Or.inr ⟨true, rfl, by simp⟩
    | none =>
        have hsame : keyring.removeFile keyId = keyring := by
          unfold removeFile
          rw [Dir.remove_eq_self hfind]
        rw [hsame]
        simp only [Option.isSome_none, Bool.false_eq_true, if_false,
          Bool.or_false]
        refine Or.inr ⟨_, rfl, fun hhad => ⟨?_, trivial⟩⟩
        simpa using hhad
  · refine Or.inl ⟨invalidKeyId crates keyId, by simpa using hvalid, ?_⟩
    simp only [hvalid]
    rfl

theorem wrapDek_fst (dek : Bytes) (answers : WrapAnswers) :
    (keyring.wrapDek crates keyId dek answers).1 =
      if keyring.provider.autoCreate then
        (keyring.ensure crates keyId answers.mint).1
      else keyring := by
  unfold wrapDek
  by_cases hauto : keyring.provider.autoCreate = true <;> simp [hauto]

theorem wrapDek_of_ensure {dek : Bytes} {answers : WrapAnswers}
    {next : Keyring} {created : Bool} {key : Key}
    (hauto : keyring.provider.autoCreate = true)
    (hensure : keyring.ensure crates keyId answers.mint = (next, .ok created))
    (hlookup : next.provider.cache.lookup keyId = some key) :
    keyring.wrapDek crates keyId dek answers =
      (next, wrapWithKey crates key dek answers.nonce) := by
  unfold wrapDek KeyringProvider.get
  simp only [hauto, if_true, hensure, hlookup, bind, Except.bind]

theorem wrapDek_ok {dek wrapped : Bytes} {answers : WrapAnswers}
    {next : Keyring}
    (hwrap : keyring.wrapDek crates keyId dek answers = (next, .ok wrapped)) :
    ∃ key, next.provider.cache.lookup keyId = some key ∧
      wrapWithKey crates key dek answers.nonce = .ok wrapped := by
  unfold wrapDek at hwrap
  generalize (if keyring.provider.autoCreate = true then
    keyring.ensure crates keyId answers.mint else (keyring, .ok false)) =
      outcome at hwrap
  obtain ⟨after, ensured⟩ := outcome
  simp only [Prod.mk.injEq] at hwrap
  obtain ⟨rfl, hresult⟩ := hwrap
  cases ensured with
  | error err => cases hresult
  | ok created =>
      simp only [bind, Except.bind] at hresult
      unfold KeyringProvider.get at hresult
      cases hlookup : after.provider.cache.lookup keyId with
      | none =>
          rw [hlookup] at hresult
          cases hresult
      | some key =>
          rw [hlookup] at hresult
          exact ⟨key, rfl, hresult⟩

/-- Sealing leaves the keyring as it is or as minting leaves it. -/
theorem cryptoSeal_fst (pii : Value) (answers : SealAnswers WrapAnswers) :
    (cryptoSeal crates keyring keyId pii answers).1 = keyring ∨
      keyring.provider.autoCreate = true ∧
        (cryptoSeal crates keyring keyId pii answers).1 =
          (keyring.ensure crates keyId answers.wrap.mint).1 := by
  unfold cryptoSeal
  cases encryptPii crates pii answers.dek answers.nonce with
  | error err => exact Or.inl rfl
  | ok parts =>
      obtain ⟨dek, nonce, ciphertext⟩ := parts
      have hfst := @wrapDek_fst crates keyring keyId dek.val answers.wrap
      have hwrap : KeyProvider.wrapDek crates keyring keyId dek.val
          answers.wrap = keyring.wrapDek crates keyId dek.val answers.wrap := rfl
      simp only [hwrap]
      cases houtcome : keyring.wrapDek crates keyId dek.val answers.wrap with
      | mk after result =>
          rw [houtcome] at hfst
          have hafter : after = keyring ∨ keyring.provider.autoCreate = true ∧
              after = (keyring.ensure crates keyId answers.wrap.mint).1 := by
            by_cases hauto : keyring.provider.autoCreate = true
            · rw [if_pos hauto] at hfst
              exact Or.inr ⟨hauto, hfst⟩
            · rw [if_neg hauto] at hfst
              exact Or.inl hfst
          cases result <;> exact hafter

/-- A bundle is sealed under the key the cache holds afterwards. -/
theorem cryptoSeal_sealedUnder {pii : Value}
    {answers : SealAnswers WrapAnswers} {next : Keyring} {bundle : EncryptedPii}
    (hseal : cryptoSeal crates keyring keyId pii answers = (next, .ok bundle)) :
    bundle.keyId = keyId ∧ ∃ key, next.provider.cache.lookup keyId = some key ∧
      SealedUnder crates key pii bundle := by
  obtain ⟨dek, nonce, ciphertext, wrapped, hpii, hwrap, rfl⟩ :=
    cryptoSeal_ok hseal
  obtain ⟨key, hlookup, hkey⟩ := wrapDek_ok keyring keyId hwrap
  obtain ⟨wrapNonce, ct, hct, rfl⟩ := wrapWithKey_ok hkey
  exact ⟨rfl, key, hlookup, dek, nonce, wrapNonce, ct, ciphertext,
    (encryptPii_ok hpii).2.2, hct, rfl, rfl, rfl⟩

/-- A bundle is opened by the key the cache holds and by no other. -/
theorem openPlaintext_cases (hbase : crates.Canonical) (hideal : crates.Ideal)
    {key : Key} {pii : Value} {bundle : EncryptedPii}
    (hsealed : SealedUnder crates key pii bundle) :
    openPlaintext crates keyring bundle =
          .ok (.ok (crates.serde.toVec pii.toDocument)) ∧
        keyring.provider.cache.lookup bundle.keyId = some key ∨
      (∃ err, openPlaintext crates keyring bundle = .ok (.error err)) ∧
        keyring.provider.cache.lookup bundle.keyId ≠ some key := by
  have hget : ∀ wrapped, KeyProvider.unwrapDek crates keyring bundle.keyId
      wrapped = (keyring.provider.get crates bundle.keyId >>= fun key =>
        unwrapWithKey crates key wrapped) := fun _ => rfl
  unfold KeyringProvider.get at hget
  cases hlookup : keyring.provider.cache.lookup bundle.keyId with
  | none =>
      rw [hlookup] at hget
      exact Or.inr ⟨⟨_, openPlaintext_of_unwrapDek_error hbase hsealed hget⟩,
        by simp⟩
  | some held =>
      rw [hlookup] at hget
      rcases openPlaintext_of_sealedUnder hbase hideal hsealed hget with
        ⟨hopen, rfl⟩ | ⟨hfail, hne⟩
      · exact Or.inl ⟨hopen, rfl⟩
      · exact Or.inr ⟨hfail, fun h => hne (Option.some.inj h)⟩

end Keyring

end Chainlog
