import Chainlog.Cli
import Chainlog.TimeRetention

/-!
# Pruning by days

`prune --before-days` computes its cutoff in 64 bits.  Up to 106751991167 days
the cutoff is exact and only older entries are deleted; beyond, a build with
overflow checks panics and any other prunes at a cutoff that has wrapped around.
-/

namespace Chainlog

/-- The panics of a build with overflow checks. -/
inductive ArithmeticOverflow where
  | mul
  | sub
  deriving DecidableEq, Repr

/-- The value fits in an `i64`. -/
def FitsI64 (n : ℤ) : Prop := -2 ^ 63 ≤ n ∧ n < 2 ^ 63

instance (n : ℤ) : Decidable (FitsI64 n) := inferInstanceAs (Decidable (_ ∧ _))

/-- `a * b`; a build without `checks` wraps around. -/
def mulI64 (checks : Bool) (a b : Int64) : Except ArithmeticOverflow Int64 :=
  if checks ∧ ¬FitsI64 (a.toInt * b.toInt) then .error .mul else .ok (a * b)

def subI64 (checks : Bool) (a b : Int64) : Except ArithmeticOverflow Int64 :=
  if checks ∧ ¬FitsI64 (a.toInt - b.toInt) then .error .sub else .ok (a - b)

def dayMs : Int64 := 86400000

/-- `now_ms() - days * 86_400_000`. -/
def daysCutoff (checks : Bool) (now days : Int64) :
    Except ArithmeticOverflow Int64 := do
  let age ← mulI64 checks days dayMs
  subI64 checks now age

/-- What `prune` prints and how it exits. -/
structure PruneOutput where
  stdout : Option Anchor
  stderr : List String
  exitCode : ExitCode
  deriving DecidableEq, Repr

def pruneOutput : Result (Option Anchor) → PruneOutput
  | .error err =>
      { stdout := none
        stderr := [s!"error: {err.display}"]
        exitCode := .failure }
  | .ok (some a) =>
      { stdout := some a
        stderr :=
          ["pruned; sign and keep this anchor so the log still verifies:"]
        exitCode := .success }
  | .ok none =>
      { stdout := none
        stderr := ["nothing pruned (need >1 segment and entries below the " ++
          "boundary)"]
        exitCode := .success }

variable (crates : Crates)

/-- `chainlog prune` at a given time. -/
def pruneCommand (checks : Bool) (now : Int64) (dir : Dir)
    (beforeSeq : Option UInt64) (beforeDays : Option Int64)
    (removals : List (Option String)) :
    Except ArithmeticOverflow (Dir × PruneOutput) :=
  match beforeSeq, beforeDays with
  | some seq, _ =>
      let (dir, anchor) := pruneBefore crates dir seq removals
      .ok (dir, pruneOutput anchor)
  | none, some days => do
      let cutoff ← daysCutoff checks now days
      let (dir, anchor) := pruneBeforeTimestamp crates dir cutoff removals
      return (dir, pruneOutput anchor)
  | none, none =>
      .ok (dir, {
        stdout := none
        stderr := ["error: specify --before-seq or --before-days"]
        exitCode := .failure })

/-- The cutoff is computed without overflow, and every entry of a segment that
is deleted is older than the given number of days. -/
structure RespectsAge (checks : Bool) (now days : Int64) (dir : Dir)
    (removals : List (Option String)) : Prop where
  computed : ∃ cutoff, daysCutoff true now days = .ok cutoff
  older : ∀ after output,
    pruneCommand crates checks now dir none (some days) removals =
        .ok (after, output) →
      ∀ segment ∈ listSegments dir, segment ∉ listSegments after →
        ∀ entries, segment.Holds crates entries → ∀ e ∈ entries,
          e.timestamp.toInt < now.toInt - days.toInt * 86400000

variable {crates}

/-! ## The cutoff -/

theorem toInt_mul_of_fits {a b : Int64} (hfits : FitsI64 (a.toInt * b.toInt)) :
    (a * b).toInt = a.toInt * b.toInt := by
  unfold FitsI64 at hfits
  rw [Int64.toInt_mul]
  exact Int.bmod_eq_of_le (by omega) (by omega)

theorem toInt_sub_of_fits {a b : Int64} (hfits : FitsI64 (a.toInt - b.toInt)) :
    (a - b).toInt = a.toInt - b.toInt := by
  unfold FitsI64 at hfits
  rw [Int64.toInt_sub]
  exact Int.bmod_eq_of_le (by omega) (by omega)

theorem mulI64_of_fits (checks : Bool) {a b : Int64}
    (hfits : FitsI64 (a.toInt * b.toInt)) : mulI64 checks a b = .ok (a * b) :=
  if_neg fun hboth => hboth.2 hfits

theorem subI64_of_fits (checks : Bool) {a b : Int64}
    (hfits : FitsI64 (a.toInt - b.toInt)) : subI64 checks a b = .ok (a - b) :=
  if_neg fun hboth => hboth.2 hfits

theorem toInt_dayMs : dayMs.toInt = 86400000 := by decide

theorem daysCutoff_exact {now days : Int64} (hnow : 0 ≤ now) (hdays : 0 ≤ days)
    (hfits : days.toInt * 86400000 < 2 ^ 63) :
    ∃ cutoff : Int64, cutoff.toInt = now.toInt - days.toInt * 86400000 ∧
      ∀ checks, daysCutoff checks now days = .ok cutoff := by
  have hnow' : 0 ≤ now.toInt := Int64.le_iff_toInt_le.mp hnow
  have hdays' : 0 ≤ days.toInt := Int64.le_iff_toInt_le.mp hdays
  have hbound := now.toInt_lt
  have hmul : FitsI64 (days.toInt * dayMs.toInt) := by
    rw [toInt_dayMs]
    exact ⟨by omega, hfits⟩
  have hage := toInt_mul_of_fits hmul
  have hsub : FitsI64 (now.toInt - (days * dayMs).toInt) := by
    rw [hage, toInt_dayMs]
    exact ⟨by omega, by omega⟩
  refine ⟨now - days * dayMs, ?_, fun checks => ?_⟩
  · rw [toInt_sub_of_fits hsub, hage, toInt_dayMs]
  · rw [daysCutoff, mulI64_of_fits checks hmul]
    exact subI64_of_fits checks hsub

theorem daysCutoff_overflows {now days : Int64}
    (hlarge : 2 ^ 63 ≤ days.toInt * 86400000) :
    daysCutoff true now days = .error .mul := by
  have hmul : ¬FitsI64 (days.toInt * dayMs.toInt) := by
    rw [toInt_dayMs]
    exact fun hfits => absurd hfits.2 (by omega)
  simp [daysCutoff, mulI64, hmul, bind, Except.bind]

/-- Whatever the build, `prune --before-days` respects the age exactly up to
106751991167 days. -/
theorem pruneCommand_respectsAge_iff (crates : Crates)
    (hprint : crates.serde.PrintsInjectively) {limit : ℕ}
    {round : FloatBits → FloatBits}
    (hserde : crates.serde.InvertsUpToFloats limit round) {size : ℕ}
    {s t : Engine} {store : SegmentedStore}
    (hstart : Engine.start crates (some size) .missing = .ok s)
    (hrun : Engine.Maintained crates Engine.Steady s t)
    (hstore : t.writer.store = .segmented store)
    (hlength : t.acked.length + 1 < 2 ^ 64) (checks : Bool) {now days : Int64}
    (hnow : 0 ≤ now) (hdays : 0 ≤ days) (removals : List (Option String)) :
    RespectsAge crates checks now days store.dir removals ↔
      days.toInt * 86400000 < 2 ^ 63 := by
  constructor
  · intro hrespects
    obtain ⟨cutoff, hcutoff⟩ := hrespects.computed
    by_contra hlarge
    rw [daysCutoff_overflows (by omega)] at hcutoff
    cases hcutoff
  · intro hfits
    obtain ⟨cutoff, hexact, hcutoff⟩ := daysCutoff_exact hnow hdays hfits
    obtain ⟨j, gone, groups, current, hwrote⟩ :=
      Engine.wrote_of_steady hprint hserde hstart hrun hlength
    refine ⟨⟨cutoff, hcutoff true⟩, ?_⟩
    intro after output hcommand segment hbefore hafter entries hholds e he
    simp only [pruneCommand, hcutoff checks, bind, Except.bind, pure, Except.pure,
      Except.ok.injEq, Prod.mk.injEq] at hcommand
    rw [← hexact, ← Int64.lt_iff_toInt_lt]
    rw [← hcommand.1] at hafter
    exact hwrote.deleted_old hprint hserde hstore cutoff removals hbefore hafter
      hholds e he

theorem pruneCommand_respectsAge_iff_year :
    ∃ t store,
      Engine.Maintained referenceCrates Engine.Steady Engine.onSegments t ∧
      t.writer.store = .segmented store ∧ t.acked.length = 2 ∧
      (RespectsAge referenceCrates false 5 365 store.dir [] ↔
        (365 : Int64).toInt * 86400000 < 2 ^ 63) := by
  obtain ⟨t, store, entry, hrun, hstore, hacked, _⟩ := Engine.record_later 5
  exact ⟨t, store, hrun, hstore, by rw [hacked]; rfl,
    pruneCommand_respectsAge_iff referenceCrates
      (referenceSerde_printsInjectively 127)
      (referenceSerde_invertsUpTo 127).floats Engine.start_onSegments hrun hstore
      (by rw [hacked]; simp) false (by decide) (by decide) []⟩

/-- In milliseconds 2^54 days wrap around to nothing: without checks the cutoff
is the current time, and a login from five milliseconds ago is deleted.  With
checks the command panics. -/
theorem pruneCommand_wraps :
    ∃ t store entry,
      Engine.start referenceCrates (some 1) .missing = .ok Engine.onSegments ∧
      Engine.Maintained referenceCrates Engine.Steady Engine.onSegments t ∧
      t.writer.store = .segmented store ∧
      t.acked = [Engine.firstLogin, entry] ∧
      Engine.firstLogin.timestamp = 0 ∧
      daysCutoff false 5 18014398509481984 = .ok 5 ∧
      (∃ output, pruneCommand referenceCrates false 5 store.dir none
          (some 18014398509481984) [] =
        .ok (segmentDir [(2, entryLine referenceCrates entry)], output)) ∧
      pruneCommand referenceCrates true 5 store.dir none
        (some 18014398509481984) [] = .error .mul ∧
      ∀ checks, ¬RespectsAge referenceCrates checks 5 18014398509481984
        store.dir [] := by
  obtain ⟨t, store, entry, hrun, hstore, hacked, hseq, htime, hparse, hdir⟩ :=
    Engine.record_later 5
  have hchecked : daysCutoff true 5 18014398509481984 = .error .mul := by decide
  have hwrapped : daysCutoff false 5 18014398509481984 = .ok 5 := by decide
  have hprune : pruneBeforeTimestamp referenceCrates store.dir 5 [] =
      (segmentDir [(2, entryLine referenceCrates entry)],
        .ok (anchorBefore referenceCrates
          (segmentDir [(2, entryLine referenceCrates entry)]))) := by
    have hold : Engine.firstLogin.timestamp = 0 := rfl
    have hsmaller : (1 : UInt64) < 2 := by decide
    have hboundary : ([Engine.firstLogin, entry].find? fun e =>
        decide (5 ≤ e.timestamp)) = some entry := by
      simp [hold, htime]
    unfold pruneBeforeTimestamp
    rw [Engine.readAllSegmented_later hdir hparse]
    simp only [hboundary, Option.map_some, hseq]
    rw [hdir, pruneBefore_pair hsmaller (UInt64.le_refl 2)]
  refine ⟨t, store, entry, Engine.start_onSegments, hrun, hstore, hacked, rfl,
    hwrapped, ⟨pruneOutput (.ok (anchorBefore referenceCrates
      (segmentDir [(2, entryLine referenceCrates entry)]))), ?_⟩, ?_, ?_⟩
  · simp only [pruneCommand, hwrapped, hprune, bind, Except.bind, pure,
      Except.pure]
  · simp [pruneCommand, hchecked, bind, Except.bind]
  · intro checks hrespects
    obtain ⟨cutoff, hcutoff⟩ := hrespects.computed
    rw [hchecked] at hcutoff
    cases hcutoff

end Chainlog
