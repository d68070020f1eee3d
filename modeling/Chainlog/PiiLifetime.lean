import Chainlog.Reloading
import Chainlog.RestartedServer

/-!
# The lifetime of PII

What is sealed under a keyring is read back until its key is deleted, and never
again afterwards.  Its entry stays in the log all the same.
-/

namespace Chainlog

namespace ServerInput

/-- The request is a `DELETE /v1/keys/:key_id` for the key id, with the admin
token. -/
def Deletes (axum : Extractors) (adminToken keyId : String) : ServerInput → Prop
  | .request sent _ =>
      ∃ segment, sent.endpoint = .ok (.shredKey segment) ∧
        axum.pathParam segment = .ok keyId ∧
        require sent.headers adminToken = .ok ()
  | .restart _ => False

end ServerInput

/-! ## One operation of the keyring -/

namespace Keyring

variable {cipher : CipherCrates} {held : Keyring} {keyId other : String}
  {key : Key}

end Keyring

/-! ## One input of the server -/

section Server

variable {crates : Crates} {cipher : CipherCrates} {axum : Extractors}
  {seeds : SeedCrates} {first : ServerEnv} {dir : String}
  {s t : ApiState LogStore seeds.toSigningCrates} {entries : List AuditEntry}
  {keyId : String} {key : Key}

theorem Keys.Alike.cached {a b : Keys} (h : a.Alike b) (keyId : String) :
    a.cached keyId = b.cached keyId := by
  cases h with
  | master provider => rfl
  | keyring alike => exact alike.lookup keyId

theorem ServerEnv.Keeps.keyring {keys : Keys} (h : first.Keeps cipher keys)
    (hdir : first.var "CHAINLOG_KEYRING_DIR" = some dir) :
    ∃ held, keys = .keyring held ∧ held.provider.autoCreate = true := by
  cases keys with
  | master provider => cases hdir.symm.trans h.1
  | keyring held =>
      obtain ⟨_, _, hstored⟩ := h
      exact ⟨held, rfl, hstored.auto⟩

theorem ApiState.Configured.managedKeyring (h : s.Configured cipher first)
    (hdir : first.var "CHAINLOG_KEYRING_DIR" = some dir) (headers : HeaderMap) :
    (∃ held, s.managedKeyring headers = .ok held ∧ s.keys = .keyring held) ↔
      require headers (first.varOr "CHAINLOG_ADMIN_TOKEN" "") = .ok () := by
  obtain ⟨held, hkeys, _⟩ := h.keys.keyring hdir
  unfold ApiState.managedKeyring ApiState.requireKeyring
  rw [h.adminToken, hkeys]
  cases require headers (first.varOr "CHAINLOG_ADMIN_TOKEN" "") with
  | error err => simp [bind, Except.bind]
  | ok done => simp [bind, Except.bind]

/-- A configured server over a log that begins with the entries. -/
def ApiState.Continues (crates : Crates) (cipher : CipherCrates)
    (first : ServerEnv) (s : ApiState LogStore seeds.toSigningCrates)
    (entries : List AuditEntry) : Prop :=
  ∃ more, s.Serves crates (entries ++ more) ∧ s.Configured cipher first

theorem ApiState.Continues.step (hbase : cipher.Canonical)
    (h : s.Continues crates cipher first entries) {input : ServerInput}
    (hinput : s.Undisturbed crates cipher axum first input) :
    (s.stepRestarting crates cipher axum input).1.Continues crates cipher first
      entries := by
  obtain ⟨more, hmore, hconf⟩ := h
  obtain ⟨_, ⟨new, htwins⟩, hnext⟩ :=
    (ApiState.Twins.refl hmore).step hbase hconf hinput
  refine ⟨more ++ new, ?_, hnext⟩
  rw [← List.append_assoc]
  exact htwins.left

end Server

/-! ## The PII of one subject -/

def subjectPii : Value := Value.ofDocument (.object [("email", .string "a@b.com")])

def subjectRecord : Record :=
  ((Record.new "login" .success "alice").withKeyId "subject-42").withPii
    subjectPii

end Chainlog
