import Chainlog.Keyring

/-!
# Reopened keyrings

A keyring whose cache is what its key files hold stays so while no file
operation fails, and one that is opened on its files answers every call as it
does.
-/

namespace Chainlog

namespace Keyring

variable (cipher : CipherCrates)

/-- The cache holds what the key files hold. -/
structure Stored (dir : String) (autoCreate : Bool) (keyring : Keyring) :
    Prop where
  names : keyring.files.names.Nodup
  auto : keyring.provider.autoCreate = autoCreate
  lookup : ∀ keyId, keyring.provider.cache.lookup keyId =
    keyFile cipher dir keyring.files keyId

/-- Keyrings over the same files that no call tells apart. -/
structure Alike (a b : Keyring) : Prop where
  lookup : ∀ keyId, a.provider.cache.lookup keyId =
    b.provider.cache.lookup keyId
  auto : a.provider.autoCreate = b.provider.autoCreate
  files : a.files = b.files

end Keyring

/-- No file operation of a mint fails. -/
def MintAnswers.Calm (answers : MintAnswers) : Prop :=
  ∀ n reason, answers.write ≠ .writeFailed n reason

variable {cipher : CipherCrates}

/-! ## Keyrings that keep to their files -/

namespace Keyring.Stored

variable {dir : String} {autoCreate : Bool} {keyring : Keyring}

theorem openDir (hfiles : keyring.files.names.Nodup)
    (hopen : KeyringProvider.openDir cipher dir autoCreate keyring.files .ok =
      .ok keyring.provider) : keyring.Stored cipher dir autoCreate where
  names := hfiles
  auto := (openDir_ok hfiles hopen).1
  lookup keyId := (openDir_ok hfiles hopen).2 keyId

theorem ensure (hbase : cipher.Canonical)
    (h : keyring.Stored cipher dir autoCreate) (keyId : String)
    {answers : MintAnswers} (hcalm : answers.Calm) :
    (keyring.ensure cipher keyId answers).1.Stored cipher dir autoCreate := by
  rcases @Keyring.ensure_cases cipher keyring keyId answers with
    ⟨result, hsame, _⟩ | ⟨key, _, _, _, hminted | ⟨n, reason, hfailed, _⟩⟩
  · rw [hsame]
    exact h
  · rw [hminted]
    refine ⟨Dir.nodup_put h.names _ _, h.auto, fun other => ?_⟩
    by_cases hother : other = keyId
    · subst hother
      exact (AList.lookup_insert _).trans
        (keyFile_put_self hbase dir keyring.files other key).symm
    · exact (AList.lookup_insert_ne hother).trans ((h.lookup other).trans
        (keyFile_put_of_ne dir keyring.files hother _).symm)
  · exact absurd hfailed (hcalm n reason)

theorem shred (h : keyring.Stored cipher dir autoCreate) (keyId : String) :
    (keyring.shred cipher keyId none).1.Stored cipher dir autoCreate := by
  rcases @Keyring.shred_cases cipher keyring keyId none with
    ⟨err, _, hsame⟩ | ⟨reason, hfailed, _⟩ | ⟨present, hgone, _⟩
  · rw [hsame]
    exact h
  · cases hfailed
  · rw [hgone]
    refine ⟨Dir.nodup_remove h.names _, h.auto, fun other => ?_⟩
    refine Eq.trans ?_ (keyFile_remove dir keyring.files keyId other).symm
    by_cases hother : other = keyId
    · subst hother
      rw [if_pos rfl]
      exact AList.lookup_erase _ _
    · rw [if_neg hother]
      exact (AList.lookup_erase_ne hother).trans (h.lookup other)

theorem cryptoSeal (hbase : cipher.Canonical)
    (h : keyring.Stored cipher dir autoCreate) (keyId : String) (pii : Value)
    {answers : SealAnswers WrapAnswers} (hcalm : answers.wrap.mint.Calm) :
    (cryptoSeal cipher keyring keyId pii answers).1.Stored cipher dir
      autoCreate := by
  rcases @Keyring.cryptoSeal_fst cipher keyring keyId pii answers
    with hsame | ⟨_, hminted⟩
  · rw [hsame]
    exact h
  · rw [hminted]
    exact h.ensure hbase keyId hcalm

end Keyring.Stored

/-! ## Keyrings that are alike -/

namespace Keyring.Alike

variable (cipher) {a b : Keyring}

theorem refl (keyring : Keyring) : keyring.Alike keyring :=
  ⟨fun _ => rfl, rfl, rfl⟩

theorem trans {c : Keyring} (h : a.Alike b) (h' : b.Alike c) : a.Alike c where
  lookup keyId := (h.lookup keyId).trans (h'.lookup keyId)
  auto := h.auto.trans h'.auto
  files := h.files.trans h'.files

/-- Keyrings that keep to the same files are alike. -/
theorem of_stored {dir : String} {autoCreate : Bool}
    (ha : a.Stored cipher dir autoCreate) (hb : b.Stored cipher dir autoCreate)
    (hfiles : a.files = b.files) : a.Alike b where
  lookup keyId := by rw [ha.lookup, hb.lookup, hfiles]
  auto := ha.auto.trans hb.auto.symm
  files := hfiles

theorem ensure (h : a.Alike b) (keyId : String) (answers : MintAnswers) :
    (a.ensure cipher keyId answers).2 = (b.ensure cipher keyId answers).2 ∧
      (a.ensure cipher keyId answers).1.Alike
        (b.ensure cipher keyId answers).1 := by
  unfold Keyring.ensure
  rw [← h.lookup keyId, ← h.files]
  split_ifs
  · exact ⟨rfl, h⟩
  · exact ⟨rfl, h⟩
  · cases randomBytes answers.draw with
    | error err => exact ⟨rfl, h⟩
    | ok key =>
        dsimp only
        generalize a.files.write (keyFileName keyId)
          (asBytes (cipher.base64Encode key.val)) answers.write = written
        obtain ⟨files, err | done⟩ := written
        · exact ⟨rfl, { lookup := h.lookup, auto := h.auto, files := rfl }⟩
        · refine ⟨rfl, fun other => ?_, h.auto, rfl⟩
          by_cases hother : other = keyId
          · subst hother
            exact Eq.trans (AList.lookup_insert a.provider.cache)
              (AList.lookup_insert b.provider.cache).symm
          · exact Eq.trans (AList.lookup_insert_ne hother)
              ((h.lookup other).trans (AList.lookup_insert_ne hother).symm)

theorem shred (h : a.Alike b) (keyId : String) (removal : Option String) :
    (a.shred cipher keyId removal).2 = (b.shred cipher keyId removal).2 ∧
      (a.shred cipher keyId removal).1.Alike
        (b.shred cipher keyId removal).1 := by
  have herased : ∀ other, (a.provider.cache.erase keyId).lookup other =
      (b.provider.cache.erase keyId).lookup other := by
    intro other
    by_cases hother : other = keyId
    · subst hother
      rw [AList.lookup_erase, AList.lookup_erase]
    · rw [AList.lookup_erase_ne hother, AList.lookup_erase_ne hother, h.lookup]
  unfold Keyring.shred
  rw [← h.lookup keyId, ← h.files]
  dsimp only
  split_ifs
  · exact ⟨rfl, h⟩
  · cases removal with
    | some reason => exact ⟨rfl, herased, h.auto, h.files⟩
    | none => exact ⟨rfl, herased, h.auto, rfl⟩
  · exact ⟨rfl, herased, h.auto, h.files⟩

theorem get (h : a.Alike b) (keyId : String) :
    a.provider.get cipher keyId = b.provider.get cipher keyId := by
  unfold KeyringProvider.get
  rw [h.lookup]

theorem list (h : a.Alike b) : a.provider.list = b.provider.list := by
  have hperm : a.provider.cache.keys.Perm b.provider.cache.keys := by
    rw [List.perm_ext_iff_of_nodup a.provider.cache.keys_nodup
      b.provider.cache.keys_nodup]
    intro keyId
    rw [← AList.mem_keys, ← AList.mem_keys, ← AList.lookup_isSome,
      ← AList.lookup_isSome, h.lookup]
  exact List.Perm.eq_of_pairwise' (List.pairwise_insertionSort _ _)
    (List.pairwise_insertionSort _ _) (((List.perm_insertionSort _ _).trans
      hperm).trans (List.perm_insertionSort _ _).symm)

theorem wrapDek (h : a.Alike b) (keyId : String) (dek : Bytes)
    (answers : WrapAnswers) :
    (a.wrapDek cipher keyId dek answers).2 =
        (b.wrapDek cipher keyId dek answers).2 ∧
      (a.wrapDek cipher keyId dek answers).1.Alike
        (b.wrapDek cipher keyId dek answers).1 := by
  obtain ⟨hensured, hnext⟩ := h.ensure cipher keyId answers.mint
  unfold Keyring.wrapDek
  rw [← h.auto]
  split_ifs
  · dsimp only
    rw [hensured, hnext.get cipher]
    exact ⟨rfl, hnext⟩
  · dsimp only
    rw [h.get cipher]
    exact ⟨rfl, h⟩

theorem unwrapDek (h : a.Alike b) (keyId : String) (wrapped : Bytes) :
    a.unwrapDek cipher keyId wrapped = b.unwrapDek cipher keyId wrapped := by
  unfold Keyring.unwrapDek
  rw [h.get cipher]

end Keyring.Alike

end Chainlog
