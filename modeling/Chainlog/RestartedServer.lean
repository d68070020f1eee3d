import Chainlog.Foundation.Machine
import Chainlog.ReopenedKeyrings
import Chainlog.ServerStart

/-!
# Restarts are invisible

A server that is stopped and started again answers every later request as one
that was never stopped: its log resumes at the head, and its keyring holds what
the key files hold.
-/

namespace Chainlog

/-! ## Keys that are alike -/

section Sealing

variable (cipher : CipherCrates) (keyId : String) (pii : Value)
  (answers : SealAnswers WrapAnswers)

/-- A master key does not change. -/
theorem Keys.cryptoSeal_master (provider : LocalKeyProvider) :
    (cryptoSeal cipher (Keys.master provider) keyId pii answers).1 =
      .master provider := by
  unfold cryptoSeal
  cases encryptPii cipher pii answers.dek answers.nonce with
  | error err => rfl
  | ok parts =>
      obtain ⟨dek, nonce, ciphertext⟩ := parts
      have hwrap : (KeyProvider.wrapDek cipher (Keys.master provider) keyId
          dek.val answers.wrap).1 = .master provider := rfl
      dsimp only
      generalize KeyProvider.wrapDek cipher (Keys.master provider) keyId
        dek.val answers.wrap = outcome at hwrap
      obtain ⟨next, err | wrapped⟩ := outcome
      · exact hwrap
      · exact hwrap

/-- The log seals with the keyring that the handlers manage. -/
theorem Keys.cryptoSeal_keyring (held : Keyring) :
    cryptoSeal cipher (Keys.keyring held) keyId pii answers =
      (cryptoSeal cipher held keyId pii answers).map .keyring id := by
  unfold cryptoSeal
  cases encryptPii cipher pii answers.dek answers.nonce with
  | error err => rfl
  | ok parts =>
      obtain ⟨dek, nonce, ciphertext⟩ := parts
      have hwrap : KeyProvider.wrapDek cipher (Keys.keyring held) keyId dek.val
          answers.wrap = (KeyProvider.wrapDek cipher held keyId dek.val
            answers.wrap).map .keyring id := rfl
      dsimp only
      rw [hwrap]
      generalize KeyProvider.wrapDek cipher held keyId dek.val answers.wrap =
        outcome
      obtain ⟨next, err | wrapped⟩ := outcome
      · rfl
      · rfl

end Sealing

/-- Providers that unwrap alike open alike. -/
theorem cryptoOpen_congr {cipher : CipherCrates} {a b : Keys}
    (h : ∀ keyId wrapped, a.unwrapDek cipher keyId wrapped =
      b.unwrapDek cipher keyId wrapped) (bundle : EncryptedPii) :
    cryptoOpen cipher a bundle = cryptoOpen cipher b bundle := by
  have hunwrap : ∀ wrapped, KeyProvider.unwrapDek cipher a bundle.keyId wrapped =
      KeyProvider.unwrapDek cipher b bundle.keyId wrapped := h bundle.keyId
  unfold Chainlog.cryptoOpen openPlaintext
  simp only [hunwrap]

inductive Keys.Alike : Keys → Keys → Prop
  | master (provider : LocalKeyProvider) :
      Alike (.master provider) (.master provider)
  | keyring {a b : Keyring} (alike : a.Alike b) :
      Alike (.keyring a) (.keyring b)

namespace Keys.Alike

variable (cipher : CipherCrates) {a b : Keys}

theorem refl (keys : Keys) : keys.Alike keys := by
  cases keys with
  | master provider => exact .master provider
  | keyring held => exact .keyring (.refl held)

theorem trans {c : Keys} (h : a.Alike b) (h' : b.Alike c) : a.Alike c := by
  cases h with
  | master provider => exact h'
  | keyring alike =>
      cases h' with
      | keyring alike' => exact .keyring (alike.trans alike')

theorem wrapDek (h : a.Alike b) (keyId : String) (dek : Bytes)
    (answers : WrapAnswers) :
    (a.wrapDek cipher keyId dek answers).2 =
        (b.wrapDek cipher keyId dek answers).2 ∧
      (a.wrapDek cipher keyId dek answers).1.Alike
        (b.wrapDek cipher keyId dek answers).1 := by
  cases h with
  | master provider => exact ⟨rfl, .master provider⟩
  | keyring alike =>
      obtain ⟨hresult, hnext⟩ := alike.wrapDek cipher keyId dek
        answers
      exact ⟨hresult, .keyring hnext⟩

theorem unwrapDek (h : a.Alike b) (keyId : String) (wrapped : Bytes) :
    a.unwrapDek cipher keyId wrapped = b.unwrapDek cipher keyId wrapped := by
  cases h with
  | master provider => rfl
  | keyring alike => exact alike.unwrapDek cipher keyId wrapped

theorem cryptoSeal (h : a.Alike b) (keyId : String) (pii : Value)
    (answers : SealAnswers WrapAnswers) :
    (cryptoSeal cipher a keyId pii answers).2 =
        (cryptoSeal cipher b keyId pii answers).2 ∧
      (cryptoSeal cipher a keyId pii answers).1.Alike
        (cryptoSeal cipher b keyId pii answers).1 := by
  unfold Chainlog.cryptoSeal
  cases encryptPii cipher pii answers.dek answers.nonce with
  | error err => exact ⟨rfl, h⟩
  | ok parts =>
      obtain ⟨dek, nonce, ciphertext⟩ := parts
      obtain ⟨hresult, hnext⟩ := h.wrapDek cipher keyId dek.val
        answers.wrap
      change (KeyProvider.wrapDek cipher a keyId dek.val answers.wrap).2 =
        (KeyProvider.wrapDek cipher b keyId dek.val answers.wrap).2 at hresult
      change (KeyProvider.wrapDek cipher a keyId dek.val answers.wrap).1.Alike
        (KeyProvider.wrapDek cipher b keyId dek.val answers.wrap).1 at hnext
      dsimp only
      generalize KeyProvider.wrapDek cipher a keyId dek.val answers.wrap =
        left at hresult hnext
      generalize KeyProvider.wrapDek cipher b keyId dek.val answers.wrap =
        right at hresult hnext
      obtain ⟨nextA, result⟩ := left
      obtain ⟨nextB, result'⟩ := right
      obtain rfl : result = result' := hresult
      cases result with
      | error err => exact ⟨rfl, hnext⟩
      | ok wrapped => exact ⟨rfl, hnext⟩

theorem cryptoOpen (h : a.Alike b) (bundle : EncryptedPii) :
    cryptoOpen cipher a bundle = cryptoOpen cipher b bundle :=
  cryptoOpen_congr (h.unwrapDek cipher) bundle

theorem showEntries (h : a.Alike b) (decrypt : Bool)
    (entries : List AuditEntry) :
    showEntries cipher a decrypt entries =
      showEntries cipher b decrypt entries := by
  induction entries with
  | nil => rfl
  | cons e rest ih =>
      have hentry : showEntry cipher a decrypt e = showEntry cipher b decrypt e := by
        unfold showEntry
        simp only [h.cryptoOpen cipher]
      unfold Chainlog.showEntries
      rw [hentry, ih]

end Keys.Alike

/-! ## Servers that are alike -/

section Twins

variable {signing : SigningCrates} {crates : Crates} {cipher : CipherCrates}
  {axum : Extractors}

/-- Servers over logs of the same entries, with the same tokens, that hold the
same keys. -/
structure ApiState.Twins (crates : Crates) (entries : List AuditEntry)
    (s t : ApiState LogStore signing) : Prop where
  left : s.Serves crates entries
  right : t.Serves crates entries
  writeToken : s.writeToken = t.writeToken
  readToken : s.readToken = t.readToken
  adminToken : s.adminToken = t.adminToken
  signer : s.signer = t.signer
  keys : s.keys.Alike t.keys

/-- What the server does when the data path names its own log. -/
def ApiState.handleOnDisk (crates : Crates) (cipher : CipherCrates)
    (axum : Extractors) (s : ApiState LogStore signing) (request : ApiRequest)
    (env : ApiCall) : ApiState LogStore signing × Response :=
  s.handle crates cipher axum request { env with disk := s.log.store.disk }

theorem ApiState.Serves.readLog {s : ApiState LogStore signing}
    {entries : List AuditEntry} (h : s.Serves crates entries) :
    readLog crates s.log.store.disk s.segmented = .ok entries := by
  rw [Chainlog.readLog, h.layout,
    show readStored crates s.log.store.isSegmented s.log.store.disk =
      .ok entries from h.holds.read]

namespace ApiState.Twins

variable {s t : ApiState LogStore signing} {entries : List AuditEntry}

theorem head (h : s.Twins crates entries t) : s.log.head = t.log.head :=
  (Engine.Holds.head_eq h.left.holds).trans
    (Engine.Holds.head_eq h.right.holds).symm

theorem managedKeyring (h : s.Twins crates entries t) (headers : HeaderMap) :
    (∃ err, s.managedKeyring headers = .error err ∧
        t.managedKeyring headers = .error err) ∨
      ∃ a b, s.managedKeyring headers = .ok a ∧
        t.managedKeyring headers = .ok b ∧ a.Alike b := by
  unfold ApiState.managedKeyring ApiState.requireKeyring
  rw [h.adminToken]
  cases require headers t.adminToken with
  | error err => exact Or.inl ⟨err, rfl, rfl⟩
  | ok done =>
      have hkeys := h.keys
      generalize s.keys = left at hkeys
      generalize t.keys = right at hkeys
      cases hkeys with
      | master provider => exact Or.inl ⟨_, rfl, rfl⟩
      | keyring alike => exact Or.inr ⟨_, _, rfl, rfl, alike⟩

/-- Twins answer a reading request alike. -/
theorem answerGet (h : s.Twins crates entries t) (request : ApiRequest)
    (env : ApiCall) (getter : Getter) :
    s.answerGet crates cipher axum request { env with disk := s.log.store.disk }
        getter =
      t.answerGet crates cipher axum request
        { env with disk := t.log.store.disk } getter := by
  have hs := h.left.readLog
  have ht := h.right.readLog
  cases getter with
  | health => rfl
  | readRecords =>
      simp only [ApiState.answerGet, ApiState.records, AppState.readRecords,
        h.readToken, hs, ht, h.keys.showEntries cipher]
  | head =>
      simp only [ApiState.answerGet, AppState.head, h.readToken, h.head]
  | checkpoint =>
      simp only [ApiState.answerGet, ApiState.checkpoint, ApiState.requireSigner,
        h.readToken, h.signer, h.head]
  | merkleAnchor =>
      simp only [ApiState.answerGet, ApiState.merkleAnchor,
        ApiState.requireSigner, h.readToken, h.signer, hs, ht]
  | merkleProof =>
      simp only [ApiState.answerGet, ApiState.proof, AppState.merkleProofHandler,
        h.readToken, hs, ht]
  | verify =>
      simp only [ApiState.answerGet, AppState.verify, h.readToken, hs, ht]
  | listKeys =>
      simp only [ApiState.answerGet, ApiState.listKeys]
      rcases h.managedKeyring request.headers with
        ⟨err, hs, ht⟩ | ⟨a, b, hs, ht, halike⟩
      · rw [hs, ht]
      · rw [hs, ht]
        simp only [bind, Except.bind, halike.list]

variable (axum) in
theorem acceptRecord (h : s.Twins crates entries t) (request : HttpRequest) :
    s.acceptRecord axum.toAxum request = t.acceptRecord axum.toAxum request := by
  unfold AppState.acceptRecord
  rw [h.writeToken]

variable (cipher) in
theorem call (h : s.Twins crates entries t) (env : ApiCall) :
    s.call cipher env = t.call cipher env := by
  unfold ApiState.call
  congr 1
  funext keyId pii
  exact (h.keys.cryptoSeal cipher keyId pii env.sealing).1

theorem nextEntry (h : s.Twins crates entries t) (call : Call)
    (record : Record) :
    s.log.nextEntry crates call record = t.log.nextEntry crates call record := by
  obtain ⟨hseq, hhash⟩ := Prod.mk.inj h.head
  unfold WriterState.nextEntry
  rw [hseq, hhash]

theorem keysAfter (h : s.Twins crates entries t) (env : ApiCall)
    (record : Record) :
    (s.keysAfter cipher env record).Alike (t.keysAfter cipher env record) := by
  unfold ApiState.keysAfter
  cases record.pii with
  | none => exact h.keys
  | some pii => exact (h.keys.cryptoSeal cipher record.keyId pii env.sealing).2

end ApiState.Twins

namespace ApiState.Twins

variable {s t : ApiState LogStore signing} {entries : List AuditEntry}

theorem refl (h : s.Serves crates entries) : s.Twins crates entries s where
  left := h
  right := h
  writeToken := rfl
  readToken := rfl
  adminToken := rfl
  signer := rfl
  keys := .refl s.keys

theorem trans {u : ApiState LogStore signing} (h : s.Twins crates entries t)
    (h' : t.Twins crates entries u) : s.Twins crates entries u where
  left := h.left
  right := h'.right
  writeToken := h.writeToken.trans h'.writeToken
  readToken := h.readToken.trans h'.readToken
  adminToken := h.adminToken.trans h'.adminToken
  signer := h.signer.trans h'.signer
  keys := h.keys.trans h'.keys

/-- Twins that take their keys on stay twins. -/
theorem withKeys (h : s.Twins crates entries t) {a b : Keys}
    (halike : a.Alike b) :
    ({ s with keys := a } : ApiState LogStore signing).Twins crates entries
      { t with keys := b } where
  left := { holds := h.left.holds, layout := h.left.layout }
  right := { holds := h.right.holds, layout := h.right.layout }
  writeToken := h.writeToken
  readToken := h.readToken
  adminToken := h.adminToken
  signer := h.signer
  keys := halike

theorem appendRecord (h : s.Twins crates entries t) {request : ApiRequest}
    (hroute : request.endpoint = .ok .append) {env : ApiCall} (hcalm : s.Calm crates cipher axum request env) :
    (s.appendRecord crates cipher axum request env).2 =
        (t.appendRecord crates cipher axum request env).2 ∧
      ∃ new, (s.appendRecord crates cipher axum request env).1.Twins crates
        (entries ++ new) (t.appendRecord crates cipher axum request env).1 := by
  have haccept := h.acceptRecord axum request.toHttpRequest
  cases hrecord : s.acceptRecord axum.toAxum request.toHttpRequest with
  | error err =>
      rw [hrecord] at haccept
      have hs : s.appendRecord crates cipher axum request env =
          (s, .failure err) := by
        simp only [ApiState.appendRecord, AppState.append, hrecord]
        rfl
      have ht : t.appendRecord crates cipher axum request env =
          (t, .failure err) := by
        simp only [ApiState.appendRecord, AppState.append, ← haccept]
        rfl
      rw [hs, ht]
      exact ⟨rfl, [], by rwa [List.append_nil]⟩
  | ok record =>
      rw [hrecord] at haccept
      have hcall := h.call cipher env
      have hnext := h.nextEntry (s.call cipher env) record
      have hroom := hcalm.room
      rw [entries_of_holds h.left.holds] at hroom
      have hparses := hcalm.parses record
      obtain ⟨hreply, hserves⟩ := h.left.process hcalm.io hroom (fun entry => hparses entry hroute hrecord)
        (s.keysAfter cipher env record)
      obtain ⟨hreply', hserves'⟩ := h.right.process hcalm.io hroom
        (fun entry he => hparses entry hroute hrecord (hnext.trans he))
        (t.keysAfter cipher env record)
      rw [← hnext] at hreply' hserves'
      simp only [ApiState.appendRecord,
        AppState.append_of_accepted crates hrecord,
        AppState.append_of_accepted crates haccept.symm, hrecord, ← haccept,
        ← hcall, hreply, hreply']
      exact ⟨trivial, _, {
        left := hserves
        right := hserves'
        writeToken := h.writeToken
        readToken := h.readToken
        adminToken := h.adminToken
        signer := h.signer
        keys := h.keysAfter env record }⟩

/-- Twins answer a request alike, and stay twins. -/
theorem handle (h : s.Twins crates entries t) {request : ApiRequest}
    {env : ApiCall} (hcalm : s.Calm crates cipher axum request
      { env with disk := s.log.store.disk }) :
    (s.handleOnDisk crates cipher axum request env).2 =
        (t.handleOnDisk crates cipher axum request env).2 ∧
      ∃ new, (s.handleOnDisk crates cipher axum request env).1.Twins crates
        (entries ++ new) (t.handleOnDisk crates cipher axum request env).1 := by
  have hsame : ∃ new, s.Twins crates (entries ++ new) t :=
    ⟨[], by rwa [List.append_nil]⟩
  unfold ApiState.handleOnDisk ApiState.handle
  cases hroute : request.endpoint with
  | error err => exact ⟨rfl, hsame⟩
  | ok endpoint =>
      cases endpoint with
      | get getter => exact ⟨h.answerGet request env getter, hsame⟩
      | append => exact h.appendRecord hroute hcalm
      | createKey segment =>
          dsimp only
          cases axum.pathParam segment with
          | error err => exact ⟨rfl, hsame⟩
          | ok keyId =>
              dsimp only
              unfold ApiState.createKey
              rcases h.managedKeyring request.headers with
                ⟨err, hs, ht⟩ | ⟨a, b, hs, ht, halike⟩
              · rw [hs, ht]
                exact ⟨rfl, hsame⟩
              · obtain ⟨hresult, hnext⟩ := halike.ensure cipher
                  keyId env.mint
                rw [hs, ht]
                dsimp only
                rw [hresult]
                exact ⟨rfl, [], by
                  rw [List.append_nil]
                  exact h.withKeys (.keyring hnext)⟩
      | shredKey segment =>
          dsimp only
          cases axum.pathParam segment with
          | error err => exact ⟨rfl, hsame⟩
          | ok keyId =>
              dsimp only
              unfold ApiState.shredKey
              rcases h.managedKeyring request.headers with
                ⟨err, hs, ht⟩ | ⟨a, b, hs, ht, halike⟩
              · rw [hs, ht]
                exact ⟨rfl, hsame⟩
              · obtain ⟨hresult, hnext⟩ := halike.shred cipher
                  keyId env.removal
                rw [hs, ht]
                dsimp only
                rw [hresult]
                exact ⟨rfl, [], by
                  rw [List.append_nil]
                  exact h.withKeys (.keyring hnext)⟩

end ApiState.Twins

end Twins

/-! ## Servers that keep to their configuration -/

/-- The keys are those that the variables tell, and a keyring keeps to its
files. -/
def ServerEnv.Keeps (cipher : CipherCrates) (env : ServerEnv) : Keys → Prop
  | .master provider =>
      env.var "CHAINLOG_KEYRING_DIR" = none ∧ env.loadKey cipher = .ok provider
  | .keyring held =>
      ∃ dir, env.var "CHAINLOG_KEYRING_DIR" = some dir ∧
        held.Stored cipher dir true

namespace ServerEnv.Keeps

variable {cipher : CipherCrates} {env : ServerEnv}

theorem ensure (hbase : cipher.Canonical) {held : Keyring}
    (h : env.Keeps cipher (.keyring held)) (keyId : String)
    {answers : MintAnswers} (hcalm : answers.Calm) :
    env.Keeps cipher (.keyring (held.ensure cipher keyId answers).1) := by
  obtain ⟨dir, hvar, hstored⟩ := h
  exact ⟨dir, hvar, hstored.ensure hbase keyId hcalm⟩

theorem shred {held : Keyring} (h : env.Keeps cipher (.keyring held))
    (keyId : String) :
    env.Keeps cipher (.keyring (held.shred cipher keyId none).1) := by
  obtain ⟨dir, hvar, hstored⟩ := h
  exact ⟨dir, hvar, hstored.shred keyId⟩

theorem cryptoSeal (hbase : cipher.Canonical) {keys : Keys}
    (h : env.Keeps cipher keys) (keyId : String) (pii : Value)
    {answers : SealAnswers WrapAnswers} (hcalm : answers.wrap.mint.Calm) :
    env.Keeps cipher (cryptoSeal cipher keys keyId pii answers).1 := by
  cases keys with
  | master provider =>
      rw [Keys.cryptoSeal_master]
      exact h
  | keyring held =>
      obtain ⟨dir, hvar, hstored⟩ := h
      rw [Keys.cryptoSeal_keyring]
      exact ⟨dir, hvar, hstored.cryptoSeal hbase keyId pii hcalm⟩

end ServerEnv.Keeps

section Configured

variable {crates : Crates} {cipher : CipherCrates} {axum : Extractors}
  {seeds : SeedCrates}

/-- The server runs as the variables tell. -/
structure ApiState.Configured (cipher : CipherCrates) (env : ServerEnv)
    (s : ApiState LogStore seeds.toSigningCrates) : Prop where
  admits : s.log.store.Admits env.segmentMax
  writeToken : s.writeToken = env.varOr "CHAINLOG_WRITE_TOKEN" ""
  readToken : s.readToken = env.varOr "CHAINLOG_READ_TOKEN" ""
  adminToken : s.adminToken = env.varOr "CHAINLOG_ADMIN_TOKEN" ""
  signer : env.signer seeds = .ok s.signer
  keys : env.Keeps cipher s.keys

/-- What a start finds of the server that ran before: the same variables, and
the log and the key files as that server left them. -/
structure ServerEnv.Resumes (first env : ServerEnv)
    (s : ApiState LogStore seeds.toSigningCrates) : Prop where
  var : env.var = first.var
  readToString : env.readToString = first.readToString
  disk : env.disk env.dataPath = s.log.store.disk
  keyFiles : ∀ held dir, s.keys = .keyring held →
    env.var "CHAINLOG_KEYRING_DIR" = some dir → env.keyFiles dir = held.files
  opening : env.opening = .ok
  binding : env.binding = none

/-- Requests without faults of the files, and starts on what the server
left. -/
inductive ServerInput where
  | request (request : ApiRequest) (env : ApiCall)
  | restart (env : ServerEnv)

inductive ServerOutput where
  | response (response : Response)
  | started
  /-- The error that is logged before an exit with code 1. -/
  | exited (reason : String)

namespace ApiState

variable (crates : Crates) (cipher : CipherCrates) (axum : Extractors)

/-- A server that can be stopped and started again. -/
def stepRestarting (s : ApiState LogStore seeds.toSigningCrates) :
    ServerInput → ApiState LogStore seeds.toSigningCrates × ServerOutput
  | .request request env =>
      (s.handleOnDisk crates cipher axum request env).map id .response
  | .restart env =>
      match ApiState.start crates cipher seeds env with
      | .ok next => (next, .started)
      | .error reason => (s, .exited reason)

/-- A server that is never stopped. -/
def stepLasting (s : ApiState LogStore seeds.toSigningCrates) :
    ServerInput → ApiState LogStore seeds.toSigningCrates × ServerOutput
  | .request request env =>
      (s.handleOnDisk crates cipher axum request env).map id .response
  | .restart _ => (s, .started)

/-- The log serves the request calmly, no key file is written or removed in
part, and a start resumes what the server left. -/
def Undisturbed (first : ServerEnv)
    (s : ApiState LogStore seeds.toSigningCrates) : ServerInput → Prop
  | .request request env =>
      s.Calm crates cipher axum request { env with disk := s.log.store.disk } ∧
        env.mint.Calm ∧ env.sealing.wrap.mint.Calm ∧ env.removal = none
  | .restart env => first.Resumes env s

end ApiState

/-! ## Starting again -/

variable {first env : ServerEnv}
  {s t : ApiState LogStore seeds.toSigningCrates} {entries : List AuditEntry}

namespace ServerEnv.Resumes

theorem segmentMax (h : first.Resumes env s) :
    env.segmentMax = first.segmentMax := by
  unfold ServerEnv.segmentMax
  rw [h.var]

theorem varOr (h : first.Resumes env s) (name default : String) :
    env.varOr name default = first.varOr name default := by
  unfold ServerEnv.varOr
  rw [h.var]

theorem signer (h : first.Resumes env s) :
    env.signer seeds = first.signer seeds := by
  unfold ServerEnv.signer
  rw [h.var]

theorem loadKey (h : first.Resumes env s) :
    env.loadKey cipher = first.loadKey cipher := by
  unfold ServerEnv.loadKey
  rw [h.var, h.readToString]

/-- The keys are those of the server that was stopped. -/
theorem keys (h : first.Resumes env s) (hkeys : first.Keeps cipher s.keys) :
    ∃ keys, env.keys cipher = .ok keys ∧ keys.Alike s.keys ∧
      first.Keeps cipher keys := by
  unfold ServerEnv.keys
  cases hheld : s.keys with
  | master provider =>
      rw [hheld] at hkeys
      obtain ⟨hvar, hload⟩ := hkeys
      simp only [h.var, hvar, h.loadKey, hload]
      exact ⟨_, rfl, .master provider, hvar, hload⟩
  | keyring held =>
      rw [hheld] at hkeys
      obtain ⟨dir, hvar, hstored⟩ := hkeys
      have hdir : env.var "CHAINLOG_KEYRING_DIR" = some dir := by
        rw [h.var]
        exact hvar
      simp only [hdir, h.keyFiles held dir hheld hdir, h.opening]
      obtain ⟨provider, hopen⟩ : ∃ provider, KeyringProvider.openDir cipher dir
          true held.files .ok = .ok provider := ⟨_, rfl⟩
      rw [hopen]
      have hopened : Keyring.Stored cipher dir true
          { provider, files := held.files } := .openDir hstored.names hopen
      exact ⟨_, rfl, .keyring (.of_stored cipher hopened hstored rfl), dir, hvar,
        hopened⟩

/-- A server that is started on what another left is its twin. -/
theorem start (h : first.Resumes env s) (hserves : s.Serves crates entries)
    (hconf : s.Configured cipher first) :
    ∃ u, ApiState.start crates cipher seeds env = .ok u ∧
      u.Configured cipher first ∧ u.Twins crates entries s := by
  obtain ⟨keys, hkeys, halike, hkeeps⟩ := h.keys hconf.keys
  obtain ⟨opened, hopened, _⟩ := hserves.holds.restart hconf.admits
  have hlog : env.log crates = .ok opened.writer := by
    refine log_of_engine ?_
    rw [h.segmentMax, h.disk]
    exact hopened
  let u : ApiState LogStore seeds.toSigningCrates := {
    log := opened.writer, segmented := env.segmentMax.isSome
    writeToken := env.varOr "CHAINLOG_WRITE_TOKEN" ""
    readToken := env.varOr "CHAINLOG_READ_TOKEN" "", keys
    signer := s.signer, adminToken := env.varOr "CHAINLOG_ADMIN_TOKEN" "" }
  have hstart : ApiState.start crates cipher seeds env = .ok u :=
    ApiState.start_ok.mpr ⟨hkeys, hlog, h.signer.trans hconf.signer, h.binding,
      rfl, rfl, rfl, rfl⟩
  refine ⟨u, hstart, ?_, ?_⟩
  · exact {
      admits := by
        rw [LogStore.admits_iff, ← h.segmentMax]
        exact ⟨(isSegmented_of_log hlog).symm,
          Engine.mode_ne_of_start crates (engine_of_log hlog)⟩
      writeToken := h.varOr _ _
      readToken := h.varOr _ _
      adminToken := h.varOr _ _
      signer := hconf.signer
      keys := hkeeps }
  · exact {
      left := hserves.restarted h.disk (h.segmentMax ▸ hconf.admits) hstart
      right := hserves
      writeToken := (h.varOr _ _).trans hconf.writeToken.symm
      readToken := (h.varOr _ _).trans hconf.readToken.symm
      adminToken := (h.varOr _ _).trans hconf.adminToken.symm
      signer := rfl
      keys := halike }

end ServerEnv.Resumes

/-! ## Runs with restarts -/

/-- A request leaves the server as it is configured. -/
theorem ApiState.Configured.handle (hbase : cipher.Canonical)
    (h : s.Configured cipher first) (request : ApiRequest) {env : ApiCall}
    (hmint : env.mint.Calm) (hsealing : env.sealing.wrap.mint.Calm)
    (hremoval : env.removal = none) :
    (s.handleOnDisk crates cipher axum request env).1.Configured cipher
      first := by
  have hhandled := s.handled crates cipher axum request
    { env with disk := s.log.store.disk }
  unfold ApiState.handleOnDisk
  generalize s.handle crates cipher axum request
    { env with disk := s.log.store.disk } = outcome at hhandled
  cases hhandled with
  | refused err => exact h
  | read getter hroute => exact h
  | appended record hroute haccept =>
      have hkind := s.log.isSegmented_process crates (s.call cipher env) record
      have hkeeps : first.Keeps cipher (s.keysAfter cipher env record) := by
        unfold ApiState.keysAfter
        cases record.pii with
        | none => exact h.keys
        | some pii => exact h.keys.cryptoSeal hbase record.keyId pii hsealing
      refine { h with admits := ?_, keys := hkeeps }
      have hadmits := h.admits
      rw [LogStore.admits_iff] at hadmits ⊢
      exact ⟨hadmits.1.trans hkind.symm, hadmits.2⟩
  | created segment keyId held hroute hheld =>
      have hkeeps := h.keys
      rw [(ApiState.bears_of_managedKeyring hheld).2] at hkeeps
      exact { h with keys := hkeeps.ensure hbase keyId hmint }
  | shredded segment keyId held hroute hparam hheld =>
      have hkeeps := h.keys
      rw [(ApiState.bears_of_managedKeyring hheld).2] at hkeeps
      refine { h with keys := ?_ }
      show first.Keeps cipher (.keyring (held.shred cipher keyId env.removal).1)
      rw [hremoval]
      exact hkeeps.shred keyId

/-- One input keeps a server and its twin that is never stopped alike. -/
theorem ApiState.Twins.step (hbase : cipher.Canonical)
    (h : s.Twins crates entries t) (hconf : s.Configured cipher first)
    {input : ServerInput}
    (hinput : s.Undisturbed crates cipher axum first input) :
    (s.stepRestarting crates cipher axum input).2 =
        (t.stepLasting crates cipher axum input).2 ∧
      (∃ new, (s.stepRestarting crates cipher axum input).1.Twins crates
          (entries ++ new) (t.stepLasting crates cipher axum input).1) ∧
        (s.stepRestarting crates cipher axum input).1.Configured cipher
          first := by
  cases input with
  | request request env =>
      obtain ⟨hcalm, hmint, hsealing, hremoval⟩ := hinput
      obtain ⟨hanswer, hnext⟩ := h.handle hcalm
      exact ⟨congrArg ServerOutput.response hanswer, hnext,
        hconf.handle hbase request hmint hsealing hremoval⟩
  | restart env =>
      obtain ⟨u, hstart, hconfigured, htwins⟩ :=
        ServerEnv.Resumes.start hinput h.left hconf
      unfold ApiState.stepRestarting ApiState.stepLasting
      simp only [hstart]
      refine ⟨trivial, ⟨[], ?_⟩, hconfigured⟩
      rw [List.append_nil]
      exact htwins.trans h

/-- A server that may be started again answers as its twin that is never
stopped. -/
theorem ApiState.Twins.run (hbase : cipher.Canonical)
    (h : s.Twins crates entries t) (hconf : s.Configured cipher first)
    {inputs : List ServerInput}
    (halong : Machine.Along (ApiState.stepRestarting crates cipher axum)
      (ApiState.Undisturbed crates cipher axum first) s inputs) :
    let restarted :=
      Machine.run (ApiState.stepRestarting crates cipher axum) s inputs
    let lasting :=
      Machine.run (ApiState.stepLasting crates cipher axum) t inputs
    restarted.2 = lasting.2 ∧
      LogStore.entries crates restarted.1.log.store =
        LogStore.entries crates lasting.1.log.store := by
  let Alike (a b : ApiState LogStore seeds.toSigningCrates) : Prop :=
    ∃ entries, a.Twins crates entries b ∧ a.Configured cipher first
  have hstep : ∀ a b input, Alike a b → a.Undisturbed crates cipher axum first input →
      (a.stepRestarting crates cipher axum input).2 =
          (b.stepLasting crates cipher axum input).2 ∧
        Alike (a.stepRestarting crates cipher axum input).1
          (b.stepLasting crates cipher axum input).1 := by
    intro a b input halike hinput
    obtain ⟨held, htwins, hconf⟩ := halike
    obtain ⟨hanswer, ⟨new, hnext⟩, hconf'⟩ := htwins.step hbase hconf hinput
    exact ⟨hanswer, held ++ new, hnext, hconf'⟩
  obtain ⟨hanswers, held, htwins, _⟩ :=
    Machine.run_alike Alike hstep ⟨entries, h, hconf⟩ halong
  exact ⟨hanswers, (entries_of_holds htwins.left.holds).trans
    (entries_of_holds htwins.right.holds).symm⟩

end Configured

/-- What a start finds if nothing else touched the log and the key files. -/
def ServerEnv.after {seeds : SeedCrates} (env : ServerEnv)
    (s : ApiState LogStore seeds.toSigningCrates) : ServerEnv :=
  { env with
    disk := fun _ => s.log.store.disk
    keyFiles := fun _ =>
      match s.keys with
      | .keyring held => held.files
      | .master _ => []
    opening := .ok
    binding := none }

/-- A server is started on a path that names nothing. -/
theorem ServerEnv.start_onMissing (env : ServerEnv) (seeds : SeedCrates)
    {cipher : CipherCrates} {keys : Keys}
    {signer : Option (CheckpointSigner seeds.toSigningCrates)}
    (hmode : env.segmentMax = none)
    (hdisk : env.disk env.dataPath = .missing)
    (hkeys : env.keys cipher = .ok keys)
    (hsigner : env.signer seeds = .ok signer) (hbinding : env.binding = none) :
    ∃ s, ApiState.start referenceCrates cipher seeds env = .ok s ∧
      s.writeToken = env.varOr "CHAINLOG_WRITE_TOKEN" "" ∧ s.keys = keys := by
  have hlog : env.log referenceCrates = .ok Engine.onMissing.writer := by
    refine log_of_engine ?_
    rw [hmode, hdisk]
    exact Engine.start_onMissing
  refine ⟨{ log := Engine.onMissing.writer
            segmented := env.segmentMax.isSome
            writeToken := env.varOr "CHAINLOG_WRITE_TOKEN" ""
            readToken := env.varOr "CHAINLOG_READ_TOKEN" ""
            keys, signer
            adminToken := env.varOr "CHAINLOG_ADMIN_TOKEN" "" }, ?_, rfl, rfl⟩
  exact ApiState.start_ok.mpr
    ⟨hkeys, hlog, hsigner, hbinding, rfl, rfl, rfl, rfl⟩

end Chainlog
