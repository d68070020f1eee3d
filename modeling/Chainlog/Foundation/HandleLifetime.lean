import Chainlog.Foundation.RequestReply
import Mathlib.Data.Finsupp.Weight

/-!
# The lifetime of a server thread

Clients reach a server thread through handles that they clone and drop.  The
thread ends when the last handle is gone and its queue is empty, and whoever
drops the last handle waits for that; or it panics, and every command that it
has not answered is lost.  Dropping handles never costs a call its reply, no
client waits for ever, and what the clients see is a history of a server that
never stops.
-/

namespace HandleLifetime

open RequestReply

variable {κ C R S : Type*}

inductive Phase where
  | running
  | finished
  | panicked
  deriving DecidableEq

/-- Why a call returns without a reply. -/
inductive Failure where
  /-- The command could not be sent. -/
  | notSent
  /-- The reply channel was dropped. -/
  | noReply

structure Lifetime (κ C R S : Type*) where
  system : System κ C R S
  holds : κ → Prop
  phase : Phase
  /-- The client that dropped the last handle waits for the thread to end. -/
  joining : Option κ
  failures : List (κ × Failure)

/-- The server is up, and one client holds its handle. -/
def start (server : S) (client : κ) : Lifetime κ C R S where
  system := RequestReply.start server
  holds := fun i => i = client
  phase := .running
  joining := none
  failures := []

namespace Lifetime

variable (s : Lifetime κ C R S)

/-- The queue and the reply channels of the commands in it are dropped. -/
def lose (server : S) : Lifetime κ C R S :=
  { s with
    system := { s.system with server := server, queue := [] }
    phase := .panicked }

variable [DecidableEq κ]

def fail (i : κ) (failure : Failure) : Lifetime κ C R S :=
  { s with
    system := { s.system with
      waiting := Function.update s.system.waiting i none }
    failures := s.failures ++ [(i, failure)] }

def setHolds (i : κ) (held : Prop) : Lifetime κ C R S :=
  { s with holds := Function.update s.holds i held }

end Lifetime

variable [DecidableEq κ] (serve : S → C → R → S → Prop)
  (crash : S → C → S → Prop)

/-- What a client does of its own accord. -/
inductive Act : Lifetime κ C R S → Lifetime κ C R S → Prop where
  | clone (s : Lifetime κ C R S) (i j : κ) (holder : s.holds i)
      (idle : s.system.waiting i = none) (fresh : ¬ s.holds j) :
      Act s (s.setHolds j True)
  | release (s : Lifetime κ C R S) (i j : κ) (holder : s.holds i)
      (idle : s.system.waiting i = none) (other : s.holds j) (apart : j ≠ i) :
      Act s (s.setHolds i False)
  | close (s : Lifetime κ C R S) (i : κ) (holder : s.holds i)
      (idle : s.system.waiting i = none) (last : ∀ j, s.holds j → j = i) :
      Act s { s.setHolds i False with joining := some i }
  | issue (s : Lifetime κ C R S) (i : κ) (cmd : C) (holder : s.holds i)
      (idle : s.system.waiting i = none) (up : s.phase = .running) :
      Act s { s with system := s.system.issue i cmd }
  | refuse (s : Lifetime κ C R S) (i : κ) (holder : s.holds i)
      (idle : s.system.waiting i = none) (down : s.phase ≠ .running) :
      Act s (s.fail i .notSent)

/-- How a call or the end of the thread goes on. -/
inductive Work : Lifetime κ C R S → Lifetime κ C R S → Prop where
  | answer (s : Lifetime κ C R S) (ticket : ℕ) (cmd : C)
      (rest : List (ℕ × C)) (reply : R) (server : S) (up : s.phase = .running)
      (first : s.system.queue = (ticket, cmd) :: rest)
      (served : serve s.system.server cmd reply server) :
      Work s { s with system := s.system.answer ticket cmd rest reply server }
  | panic (s : Lifetime κ C R S) (ticket : ℕ) (cmd : C) (rest : List (ℕ × C))
      (server : S) (up : s.phase = .running)
      (first : s.system.queue = (ticket, cmd) :: rest)
      (crashed : crash s.system.server cmd server) : Work s (s.lose server)
  | collect (s : Lifetime κ C R S) (i : κ) (ticket : ℕ) (reply : R)
      (waits : s.system.waiting i = some ticket)
      (sent : s.system.mailbox ticket = some reply) :
      Work s { s with system := s.system.collect i ticket reply }
  | abandon (s : Lifetime κ C R S) (i : κ) (ticket : ℕ)
      (waits : s.system.waiting i = some ticket)
      (lost : s.system.mailbox ticket = none) (down : s.phase ≠ .running) :
      Work s (s.fail i .noReply)
  | finish (s : Lifetime κ C R S) (up : s.phase = .running)
      (closed : ∀ i, ¬ s.holds i) (drained : s.system.queue = []) :
      Work s { s with phase := .finished }
  | join (s : Lifetime κ C R S) (i : κ) (here : s.joining = some i)
      (down : s.phase ≠ .running) : Work s { s with joining := none }

inductive Step : Lifetime κ C R S → Lifetime κ C R S → Prop where
  | act {s t : Lifetime κ C R S} (act : Act s t) : Step s t
  | work {s t : Lifetime κ C R S} (work : Work serve crash s t) : Step s t

abbrev Reaches : Lifetime κ C R S → Lifetime κ C R S → Prop :=
  Relation.ReflTransGen (Step serve crash)

variable {serve crash}

/-! ## What holds of every moment -/

structure Sound (s : Lifetime κ C R S) : Prop where
  consistent : Consistent s.system
  waiting_holds : ∀ i ticket, s.system.waiting i = some ticket → s.holds i
  waiting_unique : ∀ i j ticket, s.system.waiting i = some ticket →
    s.system.waiting j = some ticket → i = j
  queue_waited : ∀ ticket cmd, (ticket, cmd) ∈ s.system.queue →
    ∃ i, s.system.waiting i = some ticket
  waiting_served : s.phase = .running → ∀ i ticket,
    s.system.waiting i = some ticket →
      (∃ cmd, (ticket, cmd) ∈ s.system.queue) ∨
        ∃ reply, s.system.mailbox ticket = some reply
  queue_up : s.phase ≠ .running → s.system.queue = []
  joining_closed : ∀ i, s.joining = some i → ∀ j, ¬ s.holds j
  finished_closed : s.phase = .finished → ∀ j, ¬ s.holds j
  failures_panicked : s.failures ≠ [] → s.phase = .panicked

omit [DecidableEq κ] in
theorem sound_start (server : S) (client : κ) :
    Sound (start server client : Lifetime κ C R S) where
  consistent := consistent_start server
  waiting_holds := by simp [start, RequestReply.start]
  waiting_unique := by simp [start, RequestReply.start]
  queue_waited := by simp [start, RequestReply.start]
  waiting_served := by simp [start, RequestReply.start]
  queue_up := by simp [start, RequestReply.start]
  joining_closed := by simp [start]
  finished_closed := by simp [start]
  failures_panicked := by simp [start]

omit [DecidableEq κ] in
theorem consistent_lose {s : System κ C R S} (h : Consistent s) (server : S) :
    Consistent { s with server := server, queue := [] } where
  wellOrdered := h.wellOrdered
  issued_lt := h.issued_lt
  queue_issued := by simp
  queue_nodup := by simp
  queue_unserved := by simp
  mailbox_served := h.mailbox_served
  waiting_issued := h.waiting_issued

theorem waiting_of_update {waiting : κ → Option ℕ} {i j : κ} {ticket : ℕ}
    (h : Function.update waiting i none j = some ticket) :
    j ≠ i ∧ waiting j = some ticket := by
  rw [Function.update_apply] at h
  split_ifs at h with hj
  exact ⟨hj, h⟩

theorem consistent_clear {s : System κ C R S} (h : Consistent s) (i : κ) :
    Consistent { s with waiting := Function.update s.waiting i none } where
  wellOrdered := h.wellOrdered
  issued_lt := h.issued_lt
  queue_issued := h.queue_issued
  queue_nodup := h.queue_nodup
  queue_unserved := h.queue_unserved
  mailbox_served := h.mailbox_served
  waiting_issued j ticket hwait :=
    h.waiting_issued j ticket (waiting_of_update hwait).2

namespace Sound

variable {s : Lifetime κ C R S}

omit [DecidableEq κ] in
/-- Tickets that are waited for were given out before. -/
theorem waiting_lt (h : Sound s) {i : κ} {ticket : ℕ}
    (hwait : s.system.waiting i = some ticket) : ticket < s.system.next := by
  obtain ⟨cmd, hissued⟩ := h.consistent.waiting_issued i ticket hwait
  exact h.consistent.issued_lt i ticket cmd hissued

/-- Who holds a handle changes only for clients that are in no call, and never
back from the end. -/
theorem setHolds (h : Sound s) {i : κ} {held : Prop}
    (hidle : held ∨ s.system.waiting i = none)
    (hopen : held → ∃ j, s.holds j) {joining : Option κ}
    (hjoining : joining = s.joining ∨
      ∀ j, ¬ Function.update s.holds i held j) :
    Sound { s.setHolds i held with joining := joining } where
  consistent := h.consistent
  waiting_holds := by
    intro j ticket hwait
    have hwait' : s.system.waiting j = some ticket := hwait
    simp only [Lifetime.setHolds, Function.update_apply]
    split_ifs with hj
    · rcases hidle with hheld | hnone
      · exact hheld
      · rw [hj, hnone] at hwait'
        cases hwait'
    · exact h.waiting_holds j ticket hwait'
  waiting_unique := h.waiting_unique
  queue_waited := h.queue_waited
  waiting_served := h.waiting_served
  queue_up := h.queue_up
  joining_closed := by
    intro j hj
    rcases hjoining with hsame | hclosed
    · have hnone := h.joining_closed j (hsame ▸ hj)
      intro k hk
      simp only [Lifetime.setHolds, Function.update_apply] at hk
      split_ifs at hk
      · obtain ⟨l, hl⟩ := hopen hk
        exact hnone l hl
      · exact hnone k hk
    · exact hclosed
  finished_closed := by
    intro hfinished k hk
    have hnone := h.finished_closed hfinished
    simp only [Lifetime.setHolds, Function.update_apply] at hk
    split_ifs at hk
    · obtain ⟨l, hl⟩ := hopen hk
      exact hnone l hl
    · exact hnone k hk
  failures_panicked := h.failures_panicked

theorem issue (h : Sound s) {i : κ} (holder : s.holds i)
    (hidle : s.system.waiting i = none) (cmd : C) (hup : s.phase = .running) :
    Sound { s with system := s.system.issue i cmd } := by
  have hwaiting : ∀ j ticket, s.system.waiting j = some ticket →
      (s.system.issue i cmd).waiting j = some ticket := by
    intro j ticket hwait
    have hj : j ≠ i := by
      rintro rfl
      rw [hidle] at hwait
      cases hwait
    exact (Function.update_of_ne hj _ _).trans hwait
  refine {
    consistent := h.consistent.issue i cmd
    waiting_holds := ?_
    waiting_unique := ?_
    queue_waited := ?_
    waiting_served := ?_
    queue_up := fun hdown => absurd hup hdown
    joining_closed := h.joining_closed
    finished_closed := h.finished_closed
    failures_panicked := h.failures_panicked }
  · intro j ticket hwait
    simp only [System.issue, Function.update_apply] at hwait
    split_ifs at hwait with hj
    · exact hj ▸ holder
    · exact h.waiting_holds j ticket hwait
  · intro j k ticket hj hk
    simp only [System.issue, Function.update_apply] at hj hk
    split_ifs at hj hk with hji hki hki
    · exact hji.trans hki.symm
    · obtain rfl := Option.some.inj hj
      exact absurd (h.waiting_lt hk) (lt_irrefl _)
    · obtain rfl := Option.some.inj hk
      exact absurd (h.waiting_lt hj) (lt_irrefl _)
    · exact h.waiting_unique j k ticket hj hk
  · intro ticket cmd' hmem
    simp only [System.issue, List.mem_append, List.mem_singleton,
      Prod.mk.injEq] at hmem
    rcases hmem with hold | ⟨rfl, rfl⟩
    · obtain ⟨j, hj⟩ := h.queue_waited ticket cmd' hold
      exact ⟨j, hwaiting j ticket hj⟩
    · exact ⟨i, Function.update_self _ _ _⟩
  · intro _ j ticket hwait
    simp only [System.issue, Function.update_apply, List.mem_append,
      List.mem_singleton, Prod.mk.injEq] at hwait ⊢
    split_ifs at hwait with hj
    · obtain rfl := Option.some.inj hwait
      exact Or.inl ⟨cmd, Or.inr ⟨rfl, rfl⟩⟩
    · rcases h.waiting_served hup j ticket hwait with ⟨cmd', hmem⟩ | hsent
      · exact Or.inl ⟨cmd', Or.inl hmem⟩
      · exact Or.inr hsent

omit [DecidableEq κ] in
theorem panicked (h : Sound s) {i : κ} (holder : s.holds i)
    (hdown : s.phase ≠ .running) : s.phase = .panicked := by
  cases hphase : s.phase with
  | running => exact absurd hphase hdown
  | panicked => rfl
  | finished => exact absurd holder (h.finished_closed hphase i)

theorem fail (h : Sound s) {i : κ} (failure : Failure)
    (hdown : s.phase ≠ .running) (holder : s.holds i) :
    Sound (s.fail i failure) where
  consistent := consistent_clear h.consistent i
  waiting_holds j ticket hwait :=
    h.waiting_holds j ticket (waiting_of_update hwait).2
  waiting_unique j k ticket hj hk :=
    h.waiting_unique j k ticket (waiting_of_update hj).2
      (waiting_of_update hk).2
  queue_waited ticket cmd hmem := by
    have hqueue : s.system.queue = [] := h.queue_up hdown
    have hmem' : (ticket, cmd) ∈ s.system.queue := hmem
    rw [hqueue] at hmem'
    cases hmem'
  waiting_served hup := absurd hup hdown
  queue_up := h.queue_up
  joining_closed := h.joining_closed
  finished_closed := h.finished_closed
  failures_panicked _ := h.panicked holder hdown

omit [DecidableEq κ] in
theorem answer (h : Sound s) {ticket : ℕ} {cmd : C} {rest : List (ℕ × C)}
    (hup : s.phase = .running)
    (hfirst : s.system.queue = (ticket, cmd) :: rest) (reply : R) (server : S) :
    Sound { s with system := s.system.answer ticket cmd rest reply server } where
  consistent := h.consistent.answer hfirst reply server
  waiting_holds := h.waiting_holds
  waiting_unique := h.waiting_unique
  queue_waited ticket' cmd' hmem := by
    refine h.queue_waited ticket' cmd' ?_
    rw [hfirst]
    exact List.mem_cons_of_mem _ hmem
  waiting_served _ i ticket' hwait := by
    simp only [System.answer, Function.update_apply]
    by_cases hticket : ticket' = ticket
    · rw [if_pos hticket]
      exact Or.inr ⟨reply, rfl⟩
    · rw [if_neg hticket]
      rcases h.waiting_served hup i ticket' hwait with ⟨cmd', hmem⟩ | hsent
      · rw [hfirst] at hmem
        rcases List.mem_cons.mp hmem with hhead | htail
        · exact absurd (Prod.mk.inj hhead).1 hticket
        · exact Or.inl ⟨cmd', htail⟩
      · exact Or.inr hsent
  queue_up hdown := absurd hup hdown
  joining_closed := h.joining_closed
  finished_closed := h.finished_closed
  failures_panicked := h.failures_panicked

omit [DecidableEq κ] in
theorem lose (h : Sound s) (server : S) :
    Sound (s.lose server) where
  consistent := consistent_lose h.consistent server
  waiting_holds := h.waiting_holds
  waiting_unique := h.waiting_unique
  queue_waited := by simp [Lifetime.lose]
  waiting_served hrunning := by cases hrunning
  queue_up _ := rfl
  joining_closed := h.joining_closed
  finished_closed hfinished := by cases hfinished
  failures_panicked _ := rfl

theorem collect (h : Sound s) {i : κ} {ticket : ℕ} {reply : R}
    (hwaits : s.system.waiting i = some ticket)
    (hsent : s.system.mailbox ticket = some reply) :
    Sound { s with system := s.system.collect i ticket reply } where
  consistent := h.consistent.collect hwaits hsent
  waiting_holds j other hwait :=
    h.waiting_holds j other (waiting_of_update hwait).2
  waiting_unique j k other hj hk :=
    h.waiting_unique j k other (waiting_of_update hj).2
      (waiting_of_update hk).2
  queue_waited other cmd hmem := by
    obtain ⟨j, hj⟩ := h.queue_waited other cmd hmem
    refine ⟨j, ?_⟩
    have hji : j ≠ i := by
      rintro rfl
      -- a command in the queue has not been served, so it has no reply
      obtain rfl := Option.some.inj (hwaits.symm.trans hj)
      obtain ⟨⟨cmd', hserved⟩, _⟩ :=
        h.consistent.mailbox_served ticket reply hsent
      exact h.consistent.queue_unserved ticket cmd hmem cmd' reply hserved
    exact (Function.update_of_ne hji _ _).trans hj
  waiting_served hup j other hwait := by
    obtain ⟨hji, hwait'⟩ := waiting_of_update hwait
    have hother : other ≠ ticket := by
      rintro rfl
      exact hji (h.waiting_unique j i other hwait' hwaits)
    rcases h.waiting_served hup j other hwait' with hqueued | ⟨reply', hmail⟩
    · exact Or.inl hqueued
    · exact Or.inr ⟨reply', (Function.update_of_ne hother _ _).trans hmail⟩
  queue_up := h.queue_up
  joining_closed := h.joining_closed
  finished_closed := h.finished_closed
  failures_panicked := h.failures_panicked

omit [DecidableEq κ] in
theorem finish (h : Sound s) (hup : s.phase = .running)
    (hclosed : ∀ i, ¬ s.holds i) (hdrained : s.system.queue = []) :
    Sound { s with phase := .finished } where
  consistent := h.consistent
  waiting_holds := h.waiting_holds
  waiting_unique := h.waiting_unique
  queue_waited := h.queue_waited
  waiting_served hrunning := by cases hrunning
  queue_up _ := hdrained
  joining_closed := h.joining_closed
  finished_closed _ := hclosed
  failures_panicked hfailures := by
    have hpanicked := h.failures_panicked hfailures
    rw [hup] at hpanicked
    cases hpanicked

omit [DecidableEq κ] in
theorem join (h : Sound s) : Sound { s with joining := none } where
  consistent := h.consistent
  waiting_holds := h.waiting_holds
  waiting_unique := h.waiting_unique
  queue_waited := h.queue_waited
  waiting_served := h.waiting_served
  queue_up := h.queue_up
  joining_closed := by rintro i ⟨⟩
  finished_closed := h.finished_closed
  failures_panicked := h.failures_panicked

theorem act {t : Lifetime κ C R S} (h : Sound s) (hact : Act s t) :
    Sound t := by
  cases hact with
  | clone i j holder idle fresh =>
      exact h.setHolds (Or.inl trivial) (fun _ => ⟨i, holder⟩) (Or.inl rfl)
  | release i j holder idle other apart =>
      exact h.setHolds (Or.inr idle) False.elim (Or.inl rfl)
  | close i holder idle last =>
      refine h.setHolds (Or.inr idle) False.elim (Or.inr fun j hj => ?_)
      rw [Function.update_apply] at hj
      split_ifs at hj with hji
      exact hji (last j hj)
  | issue i cmd holder idle up => exact h.issue holder idle cmd up
  | refuse i holder idle down => exact h.fail .notSent down holder

theorem work {t : Lifetime κ C R S} (h : Sound s)
    (hwork : Work serve crash s t) : Sound t := by
  cases hwork with
  | answer ticket cmd rest reply server up first served =>
      exact h.answer up first reply server
  | panic ticket cmd rest server up first crashed => exact h.lose server
  | collect i ticket reply waits sent => exact h.collect waits sent
  | abandon i ticket waits lost down =>
      exact h.fail .noReply down (h.waiting_holds i ticket waits)
  | finish up closed drained => exact h.finish up closed drained
  | join i here down => exact h.join

end Sound

omit [DecidableEq κ] in
/-- Once every handle is gone no call is in progress and no command is left. -/
theorem Sound.closed {s : Lifetime κ C R S} (h : Sound s)
    (hclosed : ∀ i, ¬ s.holds i) :
    (∀ i, s.system.waiting i = none) ∧ s.system.queue = [] := by
  have hidle : ∀ i, s.system.waiting i = none := by
    intro i
    cases hwait : s.system.waiting i with
    | none => rfl
    | some ticket => exact absurd (h.waiting_holds i ticket hwait) (hclosed i)
  refine ⟨hidle, ?_⟩
  cases hqueue : s.system.queue with
  | nil => rfl
  | cons first rest =>
      obtain ⟨ticket, cmd⟩ := first
      obtain ⟨i, hi⟩ := h.queue_waited ticket cmd (by simp [hqueue])
      rw [hidle i] at hi
      cases hi

/-- A run that makes so many steps of work. -/
inductive Run (serve : S → C → R → S → Prop) (crash : S → C → S → Prop) :
    Lifetime κ C R S → ℕ → Lifetime κ C R S → Prop where
  | refl (s : Lifetime κ C R S) : Run serve crash s 0 s
  | act {s t u : Lifetime κ C R S} {n : ℕ} (earlier : Run serve crash s n t)
      (act : Act t u) : Run serve crash s n u
  | work {s t u : Lifetime κ C R S} {n : ℕ} (earlier : Run serve crash s n t)
      (work : Work serve crash t u) : Run serve crash s (n + 1) u

/-- What is left to do, with what has been done: two steps for each call, one
for the end of the thread and one for the client that waits for it. -/
structure Afford (done : ℕ) (s : Lifetime κ C R S) (calls : κ →₀ ℕ)
    (e c : ℕ) : Prop where
  waiting : ∀ i, s.system.waiting i ≠ none → 1 ≤ calls i
  ending : s.phase = .running → 1 ≤ e
  closing : (s.joining ≠ none ∨ ∃ i, s.holds i) → 1 ≤ c
  total : done + calls.degree + s.system.queue.length + e + c ≤
    2 * s.system.next + 2

theorem Afford.act {done : ℕ} {s t : Lifetime κ C R S} {calls : κ →₀ ℕ}
    {e c : ℕ} (h : Afford done s calls e c)
    (hact : Act s t) : ∃ calls', Afford done t calls' e c := by
  have hheld : ∀ {i : κ}, s.holds i → 1 ≤ c :=
    fun {i} holder => h.closing (Or.inr ⟨i, holder⟩)
  cases hact with
  | clone i j holder idle fresh =>
      exact ⟨calls, h.waiting, h.ending, fun _ => hheld holder, h.total⟩
  | release i j holder idle other apart =>
      exact ⟨calls, h.waiting, h.ending, fun _ => hheld holder, h.total⟩
  | close i holder idle last =>
      exact ⟨calls, h.waiting, h.ending, fun _ => hheld holder, h.total⟩
  | refuse i holder idle down =>
      refine ⟨calls, fun j hj => ?_, h.ending, h.closing, h.total⟩
      obtain ⟨ticket, hwait⟩ := Option.ne_none_iff_exists'.mp hj
      apply h.waiting
      rw [(waiting_of_update hwait).2]
      simp
  | issue i cmd holder idle up =>
      refine ⟨calls + Finsupp.single i 1, fun j hj => ?_, h.ending, h.closing,
        ?_⟩
      · rw [Finsupp.add_apply]
        by_cases hji : j = i
        · rw [hji, Finsupp.single_eq_same]
          exact Nat.le_add_left _ _
        · refine (h.waiting j ?_).trans (Nat.le_add_right _ _)
          intro hnone
          exact hj ((Function.update_of_ne hji _ _).trans hnone)
      · have htotal := h.total
        simp only [System.issue, List.length_append, List.length_singleton,
          map_add, Finsupp.degree_single]
        omega

/-- A client whose call is over needs no more steps. -/
theorem Afford.over {done : ℕ} {s t : Lifetime κ C R S} {calls : κ →₀ ℕ}
    {e c : ℕ} (h : Afford done s calls e c) {i : κ}
    (hbusy : s.system.waiting i ≠ none)
    (hwaiting : t.system.waiting = Function.update s.system.waiting i none)
    (hqueue : t.system.queue = s.system.queue)
    (hnext : t.system.next = s.system.next) (hphase : t.phase = s.phase)
    (hjoining : t.joining = s.joining) (hholds : t.holds = s.holds) :
    Afford (done + 1) t (calls - Finsupp.single i 1) e c := by
  have hpos := h.waiting i hbusy
  refine ⟨fun j hj => ?_, ?_, ?_, ?_⟩
  · obtain ⟨ticket, hwait⟩ := Option.ne_none_iff_exists'.mp hj
    rw [hwaiting] at hwait
    obtain ⟨hji, hold⟩ := waiting_of_update hwait
    rw [Finsupp.tsub_apply, Finsupp.single_eq_of_ne hji, Nat.sub_zero]
    apply h.waiting
    rw [hold]
    simp
  · rw [hphase]
    exact h.ending
  · rw [hjoining, hholds]
    exact h.closing
  · have hsplit : calls - Finsupp.single i 1 + Finsupp.single i 1 = calls :=
      tsub_add_cancel_of_le (Finsupp.single_le_iff.mpr hpos)
    have hdegree := congrArg Finsupp.degree hsplit
    rw [map_add, Finsupp.degree_single] at hdegree
    have htotal := h.total
    rw [hqueue, hnext]
    omega

theorem Afford.work {done : ℕ} {s t : Lifetime κ C R S} {calls : κ →₀ ℕ}
    {e c : ℕ} (h : Afford done s calls e c)
    (hsound : Sound s) (hwork : Work serve crash s t) :
    ∃ calls' e' c', Afford (done + 1) t calls' e' c' := by
  have htotal := h.total
  cases hwork with
  | answer ticket cmd rest reply server up first served =>
      refine ⟨calls, e, c, h.waiting, h.ending, h.closing, ?_⟩
      rw [first, List.length_cons] at htotal
      simp only [System.answer]
      omega
  | panic ticket cmd rest server up first crashed =>
      have hending := h.ending up
      refine ⟨calls, 0, c, h.waiting, fun hup => ?_, h.closing, ?_⟩
      · cases hup
      · simp only [Lifetime.lose, List.length_nil]
        omega
  | collect i ticket reply waits sent =>
      exact ⟨_, _, _, h.over (by rw [waits]; simp) rfl rfl rfl rfl rfl rfl⟩
  | abandon i ticket waits lost down =>
      exact ⟨_, _, _, h.over (by rw [waits]; simp) rfl rfl rfl rfl rfl rfl⟩
  | finish up closed drained =>
      have hending := h.ending up
      refine ⟨calls, 0, c, h.waiting, fun hup => ?_, h.closing, ?_⟩
      · cases hup
      · dsimp only
        omega
  | join i here down =>
      have hclosing := h.closing (Or.inl (by rw [here]; simp))
      refine ⟨calls, e, 0, h.waiting, h.ending, ?_, ?_⟩
      · rintro (hjoining | ⟨j, hj⟩)
        · exact absurd rfl hjoining
        · exact absurd hj (hsound.joining_closed i here j)
      · dsimp only
        omega

/-- A system of the same history whose server has not panicked. -/
structure Shadows (crash : S → C → S → Prop) (u : System κ C R S)
    (s : Lifetime κ C R S) : Prop where
  history : u.history = s.system.history
  mailbox : u.mailbox = s.system.mailbox
  waiting : ∀ i ticket, s.system.waiting i = some ticket →
    u.waiting i = some ticket
  up : s.phase ≠ .panicked → u = s.system
  down : s.phase = .panicked → ∃ ticket cmd rest,
    u.queue = (ticket, cmd) :: rest ∧ crash u.server cmd s.system.server

omit [DecidableEq κ] in
theorem Shadows.of_system {u : System κ C R S} {s t : Lifetime κ C R S}
    (h : Shadows crash u s) (hsystem : t.system = s.system)
    (hphase : t.phase = .panicked ↔ s.phase = .panicked) :
    Shadows crash u t where
  history := by rw [hsystem, h.history]
  mailbox := by rw [hsystem, h.mailbox]
  waiting := by rw [hsystem]; exact h.waiting
  up hup := by
    rw [hsystem]
    exact h.up fun hpanicked => hup (hphase.mpr hpanicked)
  down hdown := by
    rw [hsystem]
    exact h.down (hphase.mp hdown)

theorem Shadows.fail {u : System κ C R S} {s : Lifetime κ C R S}
    (h : Shadows crash u s) (hdown : s.phase = .panicked) (i : κ)
    (failure : Failure) : Shadows crash u (s.fail i failure) where
  history := h.history
  mailbox := h.mailbox
  waiting j ticket hwait := h.waiting j ticket (waiting_of_update hwait).2
  up hup := absurd hdown hup
  down := h.down

theorem Shadows.collect {u : System κ C R S} {s : Lifetime κ C R S}
    (h : Shadows crash u s) (i : κ) (ticket : ℕ) (reply : R) :
    Shadows crash (u.collect i ticket reply)
      { s with system := s.system.collect i ticket reply } where
  history := by simp only [System.collect, h.history]
  mailbox := by simp only [System.collect, h.mailbox]
  waiting j other hwait := by
    obtain ⟨hj, hold⟩ := waiting_of_update hwait
    exact (Function.update_of_ne hj _ _).trans (h.waiting j other hold)
  up hup := by rw [h.up hup]
  down := h.down

theorem Shadows.step {u : System κ C R S} {s t : Lifetime κ C R S}
    (h : Shadows crash u s) (hsound : Sound s) (hstep : Step serve crash s t) :
    ∃ v, RequestReply.Reaches serve u v ∧ Shadows crash v t := by
  have hrunning : s.phase = .running → u = s.system := fun hup =>
    h.up (by rw [hup]; simp)
  cases hstep with
  | act hact =>
      cases hact with
      | clone i j holder idle fresh => exact ⟨u, .refl, h.of_system rfl .rfl⟩
      | release i j holder idle other apart =>
          exact ⟨u, .refl, h.of_system rfl .rfl⟩
      | close i holder idle last => exact ⟨u, .refl, h.of_system rfl .rfl⟩
      | refuse i holder idle down =>
          exact ⟨u, .refl, h.fail (hsound.panicked holder down) i .notSent⟩
      | issue i cmd holder idle up =>
          obtain rfl := hrunning up
          refine ⟨_, .single (.issue _ i cmd idle), rfl, rfl, fun _ _ => id,
            fun _ => rfl, fun hdown => ?_⟩
          exact absurd (up.symm.trans hdown) (by simp)
  | work hwork =>
      cases hwork with
      | answer ticket cmd rest reply server up first served =>
          obtain rfl := hrunning up
          refine ⟨_, .single (.answer _ ticket cmd rest reply server first
            served), rfl, rfl, fun _ _ => id, fun _ => rfl, fun hdown => ?_⟩
          exact absurd (up.symm.trans hdown) (by simp)
      | panic ticket cmd rest server up first crashed =>
          obtain rfl := hrunning up
          exact ⟨_, .refl, rfl, rfl, fun _ _ => id, fun hup => absurd rfl hup,
            fun _ => ⟨ticket, cmd, rest, first, crashed⟩⟩
      | collect i ticket reply waits sent =>
          have hsent : u.mailbox ticket = some reply := by rw [h.mailbox, sent]
          exact ⟨_, .single (.collect u i ticket reply
            (h.waiting i ticket waits) hsent), h.collect i ticket reply⟩
      | abandon i ticket waits lost down =>
          have hpanicked :=
            hsound.panicked (hsound.waiting_holds i ticket waits) down
          exact ⟨u, .refl, h.fail hpanicked i .noReply⟩
      | finish up closed drained =>
          exact ⟨u, .refl, h.of_system rfl (by simp [up])⟩
      | join i here down => exact ⟨u, .refl, h.of_system rfl .rfl⟩

end HandleLifetime
