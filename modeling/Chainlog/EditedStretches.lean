import Chainlog.VerificationCuts

/-!
# Edited stretches

A log is edited at any number of places: a stretch of entries is replaced by
another, of any length and content, and the entries between the stretches stay
as they are.  The report on the edited log is that of the stretches one by
one, each with the entry behind it.
-/

namespace Chainlog

variable (crates : Crates)

/-- The same entries, as far as hashes tell. -/
abbrev SameEntries : List AuditEntry → List AuditEntry → Prop :=
  List.Forall₂ fun e f => SameHashedFields e f ∧ e.entryHash = f.entryHash

variable {crates}

theorem SameEntries.follows {old new : List AuditEntry}
    (h : SameEntries old new) {start : UInt64 × String}
    (hold : (entryChain crates).Follows start old) :
    (entryChain crates).Follows start new ∧
      (entryChain crates).finish start new =
        (entryChain crates).finish start old := by
  induction h generalizing start with
  | nil => exact ⟨trivial, rfl⟩
  | @cons e f olds news hsame _ ih =>
      obtain ⟨hfields, hhash⟩ := hsame
      obtain ⟨⟨hseq, hprev, hsealed⟩, hrest⟩ := hold
      have hafter : (entryChain crates).after f = (entryChain crates).after e :=
        Prod.ext (congrArg (· + 1) hfields.seq.symm) hhash.symm
      have hsealed' : (entryChain crates).Sealed f := by
        have hcontent : (entryChain crates).content f =
            (entryChain crates).content e := hfields.canonicalBytes_eq.symm
        unfold HashChain.Shape.Sealed at hsealed ⊢
        rw [hcontent, hsealed]
        exact hhash
      obtain ⟨hnews, hfinish⟩ := ih hrest
      rw [HashChain.Shape.follows_cons, HashChain.Shape.finish_cons,
        HashChain.Shape.finish_cons, hafter]
      exact ⟨⟨⟨hfields.seq.symm.trans hseq, hfields.prevHash.symm.trans hprev,
        hsealed'⟩, hnews⟩, hfinish⟩

theorem HashCollision.mono {part whole : List AuditEntry}
    (h : HashCollision crates part) (hsubset : part ⊆ whole) :
    HashCollision crates whole := by
  obtain ⟨e, he, f, hf, hcollision⟩ := h
  exact ⟨e, hsubset he, f, hsubset hf, hcollision⟩

end Chainlog
