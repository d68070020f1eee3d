import Chainlog.FaultFree
import Chainlog.Reference

/-!
# Failed appends

An append that fails before the first byte, or after the whole text of an entry
that opens its line, leaves a log that reads on and verifies.  Any other failed
append is one that cut a line short, or one that was followed by another append
before a restart.
-/

namespace Chainlog

namespace Engine

/-- After any sequence of record calls and restarts in which every failed append
is harmless, the log is readable, verifies and holds the acknowledged entries
in order, and it can be reopened. -/
theorem failedAppends_keep_log (crates : Crates) {mode : Mode} {s t : Engine}
    (hstart : start crates mode .missing = .ok s)
    (hrun : Runs crates (Harmless crates (ParsesBack crates)) s t) :
    t.Intact crates ∧ t.Reopens crates := by
  have hfresh := (start_missing crates hstart).1
  obtain ⟨j, before, current, hsound⟩ := hfresh.runs (fun _ h => h) hrun
  exact ⟨hsound.intact, hsound.reopens⟩

theorem failedAppends_keep_log_unsynced :
    ∃ t, start referenceCrates none .missing = .ok onMissing ∧
      Runs referenceCrates
        (Harmless referenceCrates (ParsesBack referenceCrates)) onMissing t ∧
      0 < t.acked.length ∧ t.Intact referenceCrates ∧
        t.Reopens referenceCrates := by
  let lost := WriteOutcome.syncFailed "disk error"
  let first := onMissing.record referenceCrates alice (loginCall .synced)
  let second := first.record referenceCrates alice (loginCall lost)
  have hempty : onMissing.Holds referenceCrates [] := holds_of_start start_onMissing
  obtain ⟨hfirst, hacked, _⟩ :=
    hempty.record_ok nextEntry_onMissing rfl (by decide)
      (parsesBack_of_alice nextEntry_onMissing)
  obtain ⟨_, _, _, hready, _, hentries⟩ := hempty
  obtain ⟨_, _, _, hready', _, hentries'⟩ := hfirst
  have hharmless : onMissing.Harmless referenceCrates
      (ParsesBack referenceCrates) (.record alice (loginCall .synced)) :=
    hready.harmless (by rw [hentries]; decide) rfl (fun _ => rfl)
      fun _ hnext => parsesBack_of_alice hnext
  have hharmless' : first.Harmless referenceCrates
      (ParsesBack referenceCrates) (.record alice (loginCall lost)) :=
    hready'.harmless (by rw [hentries']; decide) rfl (fun _ => rfl)
      fun _ hnext => parsesBack_of_alice hnext
  have hrun : Runs referenceCrates
      (Harmless referenceCrates (ParsesBack referenceCrates)) onMissing second :=
    (Relation.ReflTransGen.single ⟨_, hharmless, rfl⟩).tail
      ⟨_, hharmless', rfl⟩
  refine ⟨second, start_onMissing, hrun, ?_,
    failedAppends_keep_log referenceCrates start_onMissing hrun⟩
  have hgrows := (first.acked_prefix_record referenceCrates alice
    (loginCall lost)).length_le
  rw [hacked, List.length_append, List.length_singleton] at hgrows
  exact lt_of_lt_of_le (Nat.succ_pos _) hgrows

theorem referenceText_bytes (e : AuditEntry) :
    ∃ rest, asBytes (entryText referenceCrates e) = 123 :: 34 :: rest := by
  obtain ⟨rest, hlist⟩ :
      ∃ rest, (entryText referenceCrates e).toList = '{' :: '"' :: rest := by
    obtain ⟨members, hdoc⟩ : ∃ members, e.toDocument =
        .object (("seq", .number (.posInt e.seq)) :: members) := ⟨_, rfl⟩
    rw [entryText, hdoc]
    simp only [referenceCrates, referenceSerde, referenceText,
      String.toList_ofList, Json.render]
    exact ⟨_, rfl⟩
  rw [asBytes_eq_flatMap, hlist]
  exact ⟨_, rfl⟩

/-- An append that fails after its first byte makes the log unreadable. -/
theorem failedAppend_cuts_line :
    start referenceCrates none .missing = .ok onMissing ∧
      ∃ t, onMissing.step referenceCrates
          (.record alice (loginCall (.writeFailed 1 "disk full"))) = .ok t ∧
        ¬t.Intact referenceCrates ∧ ¬t.Reopens referenceCrates := by
  let entry := sealEntry referenceCrates 0 genesisPrevHash (loginCall .synced)
    alice none
  obtain ⟨rest, htext⟩ := referenceText_bytes entry
  have hcut : [] ++ (entryLine referenceCrates entry).take 1 = [123] := by
    rw [entryLine_eq, htext]
    rfl
  obtain ⟨err, herror⟩ := readFile_cut referenceCrates
    (referenceSerde_rejectsTruncated 127) entry (show [123] ≠ [] by decide)
    (by rw [htext]; exact ⟨_, rfl⟩) (by rw [htext]; simp)
  rw [← hcut] at herror
  exact ⟨rfl, _, rfl,
    not_intact_of_unreadable referenceCrates
      (.file { content := _, cachedTail := none } 0) herror⟩

end Engine

end Chainlog
