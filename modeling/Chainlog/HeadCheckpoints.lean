import Chainlog.Cli
import Chainlog.CrashPoints
import Chainlog.LastingAnchors

/-!
# Checkpoints of a head

The `checkpoint` command signs the head of the entries that it reads, the
server signs the head of its writer, and `verify --checkpoint` compares the
checkpoint with the head of its report.  All three mean the last entry, but an
empty log has a head for the first two only.
-/

namespace Chainlog

/-! ## The command -/

/-- The crates behind signatures, with the keys made from seeds. -/
structure SeedCrates extends SigningCrates where
  /-- `SigningKey::from_bytes`. -/
  fromSeed : { seed : Bytes // seed.length = 32 } → SigningKey

/-- Load a signing key from a base64-encoded secret seed. -/
def CheckpointSigner.fromBase64 (seeds : SeedCrates) (secret : String) :
    Result (CheckpointSigner seeds.toSigningCrates) := do
  let raw ← (seeds.base64Decode (trim secret)).mapError Error.base64
  if h : raw.length = 32 then .ok { key := seeds.fromSeed ⟨raw, h⟩ }
  else .error (.key "signing key must be 32 bytes")

namespace Checkpoint

def fields : List String :=
  ["seq", "head_hash", "timestamp", "public_key", "signature"]

def toDocument (cp : Checkpoint) : Document :=
  .object [("seq", .number (.posInt cp.seq)),
    ("head_hash", .string cp.headHash),
    ("timestamp", i64Document cp.timestamp),
    ("public_key", .string cp.publicKey),
    ("signature", .string cp.signature)]

def ofDocument (doc : Document) : Except String Checkpoint := do
  let members ← structMembers fields doc
  let seq ← required members "seq" readU64
  let headHash ← required members "head_hash" readString
  let timestamp ← required members "timestamp" readI64
  let publicKey ← required members "public_key" readString
  let signature ← required members "signature" readString
  return { seq, headHash, timestamp, publicKey, signature }

@[simp] theorem ofDocument_toDocument (cp : Checkpoint) :
    ofDocument cp.toDocument = .ok cp := by
  simp [ofDocument, toDocument, structMembers, required, structField, readU64,
    readString, readI64_i64Document, bind, Except.bind, pure, Except.pure]

end Checkpoint

/-- What a run of `chainlog checkpoint` prints and how it exits. -/
structure CheckpointOutput where
  stdout : Option Document
  stderr : List String
  exitCode : ExitCode

def CheckpointOutput.failed (err : Error) : CheckpointOutput where
  stdout := none
  stderr := [s!"error: {err.display}"]
  exitCode := .failure

/-- `chainlog checkpoint`. -/
def checkpointCommand (crates : Crates) (seeds : SeedCrates) (path : DataPath)
    (signKey : String) (now : Int64) : CheckpointOutput :=
  match loadEntries crates path with
  | .error err => .failed err
  | .ok entries =>
      let (seq, headHash) := match entries.getLast? with
        | some e => (e.seq, e.entryHash)
        | none => (0, genesisPrevHash)
      match CheckpointSigner.fromBase64 seeds signKey with
      | .error err => .failed err
      | .ok signer =>
          { stdout := some (signer.sign seq headHash now).toDocument
            stderr := []
            exitCode := .success }

/-! ## Heads -/

section Heads

variable {crates : Crates} {signing : SigningCrates} {σ : Type} [Store σ]
  {view : σ → List AuditEntry}

/-- A command leaves the writer at the head of what the store holds, whatever
the chain is. -/
theorem head_serve {writer next : WriterState σ} {cmd : Cmd} {reply : Reply}
    (h : writer.head = logHead (view writer.store))
    (hserve : Serve crates view writer cmd reply next) :
    next.head = logHead (view next.store) := by
  cases hserve with
  | head => exact h
  | write record call atomic =>
      rcases writer.process_cases crates call record with
        ⟨err, _, hprocess⟩ | ⟨entry, store, err, hnext, happend, hprocess⟩ |
          ⟨entry, store, hnext, happend, hprocess⟩
      · rw [hprocess]
        exact h
      · have hview : view store = view writer.store := by
          have hatomic := atomic entry hnext
          rwa [AppendsOrFails, happend] at hatomic
        rw [hprocess]
        show writer.head = logHead (view store)
        rw [hview]
        exact h
      · have hview : view store = view writer.store ++ [entry] := by
          have hatomic := atomic entry hnext
          rwa [AppendsOrFails, happend] at hatomic
        rw [hprocess]
        show (entry.seq, entry.entryHash) = logHead (view store)
        rw [hview, logHead_snoc]

theorem head_logStep {writer next : WriterState σ} {event : LogEvent}
    (h : writer.head = logHead (view writer.store))
    (hstep : LogStep crates signing view writer event next) :
    next.head = logHead (view next.store) := by
  cases hstep with
  | served serve => exact head_serve h serve
  | signed log answer => exact h
  | restarted same tail build =>
      rw [build_eq tail] at build
      obtain rfl := Except.ok.inj build
      rfl

theorem head_logRun {writer last : WriterState σ} {trace : List LogEvent}
    (h : writer.head = logHead (view writer.store))
    (hrun : LogRun crates signing view writer trace last) :
    last.head = logHead (view last.store) := by
  induction hrun with
  | start => exact h
  | step _ step ih => exact head_logStep ih step

end Heads

/-! ## Checkpoints of a log -/

/-- The checkpoints that are produced for a log of these entries: printed by the
command, or answered by a server whose log was opened on what a store holds and
holds the entries after any run. -/
inductive CheckpointOf (crates : Crates) (seeds : SeedCrates)
    (entries : List AuditEntry) : Document → Prop where
  | command {path : DataPath} {signKey : String} {now : Int64}
      {document : Document}
      (read : loadEntries crates path = .ok entries)
      (printed : (checkpointCommand crates seeds path signKey now).stdout =
        some document) :
      CheckpointOf crates seeds entries document
  | server {σ : Type} [Store σ] {view : σ → List AuditEntry} {store : σ}
      {writer : WriterState σ} {trace : List LogEvent}
      {st : ApiState σ seeds.toSigningCrates} {headers : HeaderMap}
      {now : Int64} {cp : Checkpoint}
      (tail : Store.tail store = .ok (lastHead (view store)))
      (build : Builder.build { store := some store, hasProvider := true } =
        .ok writer)
      (run : LogRun crates seeds.toSigningCrates view writer trace st.log)
      (holds : view st.log.store = entries)
      (answer : st.checkpoint headers now = .ok cp) :
      CheckpointOf crates seeds entries cp.toDocument

theorem CheckpointOf.signed {crates : Crates} {seeds : SeedCrates}
    {entries : List AuditEntry} {document : Document}
    (h : CheckpointOf crates seeds entries document) :
    ∃ (signer : CheckpointSigner seeds.toSigningCrates) (now : Int64),
      document =
        (signer.sign (logHead entries).1 (logHead entries).2 now).toDocument := by
  cases h with
  | @command path signKey now _ read printed =>
      cases hsigner : CheckpointSigner.fromBase64 seeds signKey with
      | error err =>
          simp [checkpointCommand, read, hsigner, CheckpointOutput.failed]
            at printed
      | ok signer =>
          refine ⟨signer, now, ?_⟩
          simp only [checkpointCommand, read, hsigner, Option.some.injEq]
            at printed
          rw [← printed, logHead, lastHead]
          cases entries.getLast? <;> rfl
  | @server σ _ view store writer trace st headers now cp tail build run holds
      answer =>
      rw [build_eq tail] at build
      obtain rfl := Except.ok.inj build
      have hhead : st.log.head = logHead (view st.log.store) :=
        head_logRun rfl run
      unfold ApiState.checkpoint at answer
      obtain ⟨_, _, answer⟩ := bind_eq_ok.mp answer
      obtain ⟨signer, _, answer⟩ := bind_eq_ok.mp answer
      obtain rfl := Except.ok.inj answer
      refine ⟨signer, now, ?_⟩
      rw [← holds, ← hhead]

/-! ## Verification against a checkpoint -/

section Verification

variable (crates : Crates) (keys : SignatureCrates)

/-- `chainlog verify` reads the entries and exits with success. -/
def VerifiesAlone (path : DataPath) (anchor : Option (Except String Checkpoint))
    (entries : List AuditEntry) : Prop :=
  loadEntries crates path = .ok entries ∧
    (verifyCommand crates keys path none anchor).exitCode = .success

variable {crates keys}

/-- With a checkpoint, such a log verifies exactly if the head matches. -/
theorem VerifiesAlone.exitCode_eq {path : DataPath}
    {anchor : Option (Except String Checkpoint)} {entries : List AuditEntry}
    (h : VerifiesAlone crates keys path anchor entries) {cp : Checkpoint}
    (hsigned : verifyCheckpoint keys cp = .ok ()) :
    (verifyCommand crates keys path (some (.ok cp)) anchor).exitCode =
      if lastHead entries = some (cp.seq, cp.headHash) then .success
      else .failure := by
  obtain ⟨hread, hexit⟩ := h
  cases hanchor : loadAnchor keys anchor with
  | error reason =>
      simp [verifyCommand, hread, hanchor, VerifyOutput.failed] at hexit
  | ok anchorVal =>
      have hvalid : (verifyEntriesFrom crates anchorVal entries).isValid =
          true := by
        by_contra hinvalid
        simp [verifyCommand, hread, hanchor, hinvalid] at hexit
      have hhead : (verifyEntriesFrom crates anchorVal entries).head =
          lastHead entries := by
        rw [verifyEntriesFrom_eq]
      simp only [verifyCommand, hread, hanchor, hvalid, Bool.true_and,
        checkHead, hsigned, hhead]
      cases lastHead entries with
      | none => rfl
      | some head =>
          obtain ⟨seq, hash⟩ := head
          by_cases hmatch : seq = cp.seq ∧ hash = cp.headHash
          · simp [hmatch]
          · simp [hmatch]

variable (crates keys)

/-- The checkpoint makes the command succeed on the log, and fail on every
other log that verifies but has another last entry. -/
def HeadAgreement (document : Document) (path : DataPath)
    (anchor : Option (Except String Checkpoint)) (entries : List AuditEntry) :
    Prop :=
  (verifyCommand crates keys path (some (Checkpoint.ofDocument document))
      anchor).exitCode = .success ∧
    ∀ otherPath otherAnchor others,
      VerifiesAlone crates keys otherPath otherAnchor others →
        lastHead others ≠ lastHead entries →
          (verifyCommand crates keys otherPath
            (some (Checkpoint.ofDocument document)) otherAnchor).exitCode =
              .failure

end Verification

theorem verifyCheckpoint_sign {signing : SigningCrates}
    (hcorrect : signing.Correct) (signer : CheckpointSigner signing)
    (seq : UInt64) (headHash : String) (now : Int64) :
    verifyCheckpoint signing.toSignatureCrates
      (signer.sign seq headHash now) = .ok () := by
  obtain ⟨vk, hvk, hverify⟩ := hcorrect.verifies signer.key
    (Checkpoint.message seq headHash now)
  have hwith := verifyCheckpointWith_sign hcorrect.decode_encode hvk hverify
  rw [verifyCheckpoint]
  simp only [CheckpointSigner.sign, CheckpointSigner.publicBase64,
    CheckpointSigner.decodeArray_encode hcorrect.decode_encode, bind,
    Except.bind]
  exact hwith

/-- For every log that verifies, from genesis or from an anchor: a checkpoint
produced for it agrees with `verify --checkpoint` exactly if the log is not
empty. -/
theorem headAgreement_iff (crates : Crates) (seeds : SeedCrates)
    (hcorrect : seeds.toSigningCrates.Correct) {entries : List AuditEntry}
    {document : Document}
    (hproduced : CheckpointOf crates seeds entries document) {path : DataPath}
    {anchor : Option (Except String Checkpoint)}
    (hverifies : VerifiesAlone crates seeds.toSignatureCrates path anchor
      entries) :
    HeadAgreement crates seeds.toSignatureCrates document path anchor entries ↔
      entries ≠ [] := by
  obtain ⟨signer, now, rfl⟩ := hproduced.signed
  have hsigned := verifyCheckpoint_sign hcorrect signer (logHead entries).1
    (logHead entries).2 now
  rw [HeadAgreement, Checkpoint.ofDocument_toDocument]
  constructor
  · rintro ⟨hsame, _⟩ rfl
    rw [hverifies.exitCode_eq hsigned] at hsame
    simp [lastHead] at hsame
  · intro hne
    have hlast : lastHead entries = some ((logHead entries).1,
        (logHead entries).2) := by
      rw [logHead, lastHead, List.getLast?_eq_some_getLast hne]
      rfl
    refine ⟨?_, fun otherPath otherAnchor others hother hdiffers => ?_⟩
    · rw [hverifies.exitCode_eq hsigned]
      exact if_pos hlast
    · rw [hother.exitCode_eq hsigned]
      exact if_neg fun hmatch => hdiffers (hmatch.trans hlast.symm)

/-- A seed is its own signing key. -/
def referenceSeeds : SeedCrates where
  toSigningCrates := referenceSigning
  fromSeed := id

/-- The base64 of 32 zero bytes. -/
def zeroSecret : String := "AAAAAAAAAAAAAAAAAAAAAAAAAAAAAAAAAAAAAAAAAAA="

theorem fromBase64_zeroSecret :
    ∃ signer, CheckpointSigner.fromBase64 referenceSeeds zeroSecret =
      .ok signer := by
  refine ⟨⟨⟨List.replicate 32 0, rfl⟩⟩, ?_⟩
  rfl

theorem checkpointCommand_zeroSecret {path : DataPath}
    {entries : List AuditEntry}
    (hread : loadEntries referenceCrates path = .ok entries) :
    ∃ document, (checkpointCommand referenceCrates referenceSeeds path
      zeroSecret 0).stdout = some document := by
  obtain ⟨signer, hsigner⟩ := fromBase64_zeroSecret
  simp only [checkpointCommand, hread, hsigner]
  exact ⟨_, rfl⟩

theorem loadEntries_entryLine {crates : Crates} {e : AuditEntry}
    (hparse : ParsesBack crates e) :
    loadEntries crates (.file (.readable (entryLine crates e))) = .ok [e] := by
  unfold ParsesBack at hparse
  show readFile crates (.readable (entryLine crates e)) = .ok [e]
  rw [readFile_entryLine, hparse]

theorem VerifiesAlone.of_valid {crates : Crates} {keys : SignatureCrates}
    {path : DataPath} {entries : List AuditEntry}
    (hread : loadEntries crates path = .ok entries)
    (hvalid : (verifyEntriesFrom crates none entries).isValid = true) :
    VerifiesAlone crates keys path none entries := by
  refine ⟨hread, ?_⟩
  simp only [verifyCommand, hread, loadAnchor, hvalid]
  rfl

theorem headAgreement_iff_login :
    let path := DataPath.file (.readable (entryLine referenceCrates
      (referenceEntry 1 none genesisPrevHash)))
    ∃ document, (checkpointCommand referenceCrates referenceSeeds path
        zeroSecret 0).stdout = some document ∧
      HeadAgreement referenceCrates referenceSigning.toSignatureCrates document
        path none [referenceEntry 1 none genesisPrevHash] := by
  intro path
  have hread : loadEntries referenceCrates path =
      .ok [referenceEntry 1 none genesisPrevHash] :=
    loadEntries_entryLine (Engine.parsesBack_of_plain rfl rfl)
  have hvalid : (verifyEntriesFrom referenceCrates none
      [referenceEntry 1 none genesisPrevHash]).isValid = true := by
    rw [verifyEntriesFrom_isValid]
    exact ⟨⟨rfl, rfl, sealed_referenceEntry 1 _⟩, trivial⟩
  have hverifies : VerifiesAlone referenceCrates
      referenceSeeds.toSignatureCrates path none
      [referenceEntry 1 none genesisPrevHash] :=
    .of_valid hread hvalid
  obtain ⟨document, hprinted⟩ := checkpointCommand_zeroSecret hread
  exact ⟨document, hprinted, (headAgreement_iff referenceCrates referenceSeeds
    referenceSigning_correct (.command hread hprinted) hverifies).mpr (by simp)⟩

/-- The command signs the head of an empty log, and `verify` rejects it on the
same log. -/
theorem emptyLog_checkpoint_rejected :
    ∃ document, (checkpointCommand referenceCrates referenceSeeds
        (.file (.readable [])) zeroSecret 0).stdout = some document ∧
      VerifiesAlone referenceCrates referenceSigning.toSignatureCrates
        (.file (.readable [])) none [] ∧
      (verifyCommand referenceCrates referenceSigning.toSignatureCrates
        (.file (.readable [])) (some (Checkpoint.ofDocument document))
        none).exitCode = .failure := by
  have hread : loadEntries referenceCrates (.file (.readable [])) = .ok [] := rfl
  have hverifies : VerifiesAlone referenceCrates
      referenceSeeds.toSignatureCrates (.file (.readable [])) none [] :=
    ⟨hread, rfl⟩
  obtain ⟨document, hprinted⟩ := checkpointCommand_zeroSecret hread
  have hproduced : CheckpointOf referenceCrates referenceSeeds [] document :=
    .command hread hprinted
  refine ⟨document, hprinted, hverifies, ?_⟩
  obtain ⟨signer, now, rfl⟩ := hproduced.signed
  have hsigned := verifyCheckpoint_sign referenceSigning_correct signer
    (logHead []).1 (logHead []).2 now
  rw [Checkpoint.ofDocument_toDocument]
  exact (hverifies.exitCode_eq hsigned).trans (if_neg (by simp [lastHead]))

end Chainlog
