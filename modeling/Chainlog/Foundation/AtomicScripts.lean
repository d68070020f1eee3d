import Mathlib.Data.List.Basic
import Mathlib.Logic.Relation
import Mathlib.Tactic

/-!
# Threads that run scripts of operations

A call of a thread is a script: operations on a shared object, each chosen by
the answers before it.  An operation happens at one moment.  The history says
who called, performed and returned what; a call performs its operations
between its start and its return, and the operations of all threads are one
run of the object.
-/

namespace AtomicScripts

universe u v w x y

inductive Script (O : Type u) (A : O → Type v) (R : Type w) where
  | done (reply : R)
  | perform (op : O) (next : A op → Script O A R)

inductive Event (κ : Type x) (C : Type y) (O : Type u) (A : O → Type v)
    (R : Type w) where
  | called (i : κ) (call : C)
  | performed (i : κ) (op : O) (answer : A op)
  | returned (i : κ) (reply : R)

structure Thread (C : Type y) (O : Type u) (A : O → Type v) (R : Type w) where
  call : C
  script : Script O A R

structure System (κ : Type x) (C : Type y) (S : Type*) (O : Type u)
    (A : O → Type v) (R : Type w) where
  shared : S
  thread : κ → Option (Thread C O A R)
  history : List (Event κ C O A R)

variable {κ : Type x} {C : Type y} {S : Type*} {O : Type u} {A : O → Type v}
  {R : Type w}

def start (shared : S) : System κ C S O A R where
  shared := shared
  thread := fun _ => none
  history := []

variable [DecidableEq κ]

namespace System

variable (s : System κ C S O A R)

def begin (i : κ) (call : C) (script : Script O A R) : System κ C S O A R where
  shared := s.shared
  thread := Function.update s.thread i (some ⟨call, script⟩)
  history := s.history ++ [.called i call]

def perform (i : κ) (call : C) (op : O) (next : A op → Script O A R)
    (outcome : S × A op) : System κ C S O A R where
  shared := outcome.1
  thread := Function.update s.thread i (some ⟨call, next outcome.2⟩)
  history := s.history ++ [.performed i op outcome.2]

def finish (i : κ) (reply : R) : System κ C S O A R where
  shared := s.shared
  thread := Function.update s.thread i none
  history := s.history ++ [.returned i reply]

end System

variable (act : S → (op : O) → S × A op) (script : C → Script O A R)

inductive Step : System κ C S O A R → System κ C S O A R → Prop where
  | call (s : System κ C S O A R) (i : κ) (call : C)
      (idle : s.thread i = none) : Step s (s.begin i call (script call))
  | perform (s : System κ C S O A R) (i : κ) (call : C) (op : O)
      (next : A op → Script O A R)
      (here : s.thread i = some ⟨call, .perform op next⟩) :
      Step s (s.perform i call op next (act s.shared op))
  | finish (s : System κ C S O A R) (i : κ) (call : C) (reply : R)
      (here : s.thread i = some ⟨call, .done reply⟩) :
      Step s (s.finish i reply)

abbrev Reaches : System κ C S O A R → System κ C S O A R → Prop :=
  Relation.ReflTransGen (Step act script)

variable {act script}

theorem Step.history_eq {s t : System κ C S O A R} (h : Step act script s t) :
    ∃ event, t.history = s.history ++ [event] := by
  cases h <;> exact ⟨_, rfl⟩

theorem Reaches.history_eq {s t : System κ C S O A R}
    (h : Reaches act script s t) :
    ∃ events, t.history = s.history ++ events := by
  induction h with
  | refl => exact ⟨[], by simp⟩
  | tail _ hstep ih =>
      obtain ⟨events, hevents⟩ := ih
      obtain ⟨event, hevent⟩ := hstep.history_eq
      exact ⟨events ++ [event], by rw [hevent, hevents, List.append_assoc]⟩

/-- A run passes through every prefix of what it adds to the history. -/
theorem Reaches.split {s t : System κ C S O A R} (h : Reaches act script s t)
    {past future : List (Event κ C O A R)}
    (hsplit : t.history = past ++ future)
    (hlength : s.history.length ≤ past.length) :
    ∃ u, Reaches act script s u ∧ Reaches act script u t ∧
      u.history = past := by
  induction h generalizing future with
  | refl =>
      have hlen := congrArg List.length hsplit
      rw [List.length_append] at hlen
      have hfuture : future = [] := List.length_eq_zero_iff.mp (by omega)
      subst hfuture
      exact ⟨s, .refl, .refl, by simpa using hsplit⟩
  | @tail w t hearlier hstep ih =>
      obtain ⟨last, hlast⟩ := hstep.history_eq
      cases future using List.reverseRecOn with
      | nil =>
          exact ⟨t, hearlier.tail hstep, .refl, by simpa using hsplit⟩
      | append_singleton future final =>
          rw [hlast, ← List.append_assoc] at hsplit
          obtain ⟨hw, _⟩ := List.append_inj' hsplit rfl
          obtain ⟨u, hu, huw, hpast⟩ := ih hw
          exact ⟨u, hu, huw.tail hstep, hpast⟩

/-- Every event of a history happened in one step of the run. -/
theorem Reaches.exists_step {s t : System κ C S O A R}
    (h : Reaches act script s t) {past future : List (Event κ C O A R)}
    {event : Event κ C O A R} (hsplit : t.history = past ++ event :: future)
    (hlength : s.history.length ≤ past.length) :
    ∃ u v, Reaches act script s u ∧ Step act script u v ∧
      Reaches act script v t ∧ u.history = past ∧
      v.history = past ++ [event] := by
  have hsplit' : t.history = (past ++ [event]) ++ future := by
    simpa using hsplit
  obtain ⟨v, hv, hvt, hhistory⟩ := h.split hsplit' (by
    rw [List.length_append]
    omega)
  cases hv with
  | refl =>
      have hlen := congrArg List.length hhistory
      simp only [List.length_append, List.length_singleton] at hlen
      omega
  | @tail u _ hu hstep =>
      obtain ⟨last, hlast⟩ := hstep.history_eq
      rw [hlast] at hhistory
      obtain ⟨hpast, hevent⟩ := List.append_inj' hhistory rfl
      obtain rfl := List.singleton_inj.mp hevent
      exact ⟨u, v, hu, hstep, hvt, hpast, by rw [hlast, hpast]⟩

/-! ## What a thread does during a call -/

/-- The script is left with a rest after these answers. -/
inductive Script.Leaves : Script O A R → List ((op : O) × A op) →
    Script O A R → Prop where
  | nil (script : Script O A R) : Leaves script [] script
  | cons {op : O} {next : A op → Script O A R} {answer : A op}
      {trace : List ((op : O) × A op)} {rest : Script O A R}
      (later : Leaves (next answer) trace rest) :
      Leaves (.perform op next) (⟨op, answer⟩ :: trace) rest

theorem Script.Leaves.snoc {script : Script O A R}
    {trace : List ((op : O) × A op)} {op : O} {next : A op → Script O A R}
    (h : script.Leaves trace (.perform op next)) (answer : A op) :
    script.Leaves (trace ++ [⟨op, answer⟩]) (next answer) := by
  generalize hrest : Script.perform op next = rest at h
  induction h with
  | nil script =>
      subst hrest
      exact .cons (.nil _)
  | cons later ih => exact .cons (ih hrest)

/-- The script may come to perform an operation of a kind. -/
def Script.Asks (p : O → Prop) : Script O A R → Prop
  | .done _ => False
  | .perform op next => p op ∨ ∃ answer, (next answer).Asks p

theorem Script.Leaves.asks {script rest : Script O A R}
    {trace : List ((op : O) × A op)} (h : script.Leaves trace rest)
    {p : O → Prop} (hrest : rest.Asks p) : script.Asks p := by
  induction h with
  | nil script => exact hrest
  | cons later ih => exact Or.inr ⟨_, ih hrest⟩

/-- What a thread has performed, in order. -/
def performedBy (i : κ) (history : List (Event κ C O A R)) :
    List ((op : O) × A op) :=
  history.filterMap fun event => match event with
    | .performed j op answer => if j = i then some ⟨op, answer⟩ else none
    | _ => none

/-- The event starts or ends a call of the thread. -/
def Event.Bounds (i : κ) : Event κ C O A R → Prop
  | .called j _ => j = i
  | .returned j _ => j = i
  | .performed _ _ _ => False

/-- A thread is in a call that it started last, and has performed what its
script asked for so far. -/
def Traced (script : C → Script O A R) (history : List (Event κ C O A R))
    (i : κ) (thread : Thread C O A R) : Prop :=
  ∃ past since, history = past ++ .called i thread.call :: since ∧
    (∀ event ∈ since, ¬ event.Bounds i) ∧
    (script thread.call).Leaves (performedBy i since) thread.script

@[simp] theorem performedBy_append (i : κ)
    (front back : List (Event κ C O A R)) :
    performedBy i (front ++ back) =
      performedBy i front ++ performedBy i back := by
  simp [performedBy]

theorem mem_of_mem_performedBy {i : κ} {history : List (Event κ C O A R)}
    {op : O} {answer : A op} (h : ⟨op, answer⟩ ∈ performedBy i history) :
    .performed i op answer ∈ history := by
  obtain ⟨event, hmem, hevent⟩ := List.mem_filterMap.mp h
  cases event with
  | called j call => cases hevent
  | returned j reply => cases hevent
  | performed j op' answer' =>
      simp only [Option.ite_none_right_eq_some, Option.some.injEq] at hevent
      obtain ⟨rfl, hsame⟩ := hevent
      cases hsame
      exact hmem

theorem performedBy_singleton_of_ne {i j : κ} (hij : j ≠ i) (op : O)
    (answer : A op) :
    performedBy i [(.performed j op answer : Event κ C O A R)] = [] := by
  simp [performedBy, hij]

theorem Traced.snoc {history : List (Event κ C O A R)} {i : κ}
    {thread : Thread C O A R} (h : Traced script history i thread)
    {event : Event κ C O A R} (hbounds : ¬ event.Bounds i)
    (hother : performedBy i [event] = []) :
    Traced script (history ++ [event]) i thread := by
  obtain ⟨past, since, hhistory, hsince, hleaves⟩ := h
  refine ⟨past, since ++ [event], by simp [hhistory], ?_, ?_⟩
  · intro other hother'
    rcases List.mem_append.mp hother' with hold | hnew
    · exact hsince other hold
    · rw [List.mem_singleton.mp hnew]
      exact hbounds
  · rw [performedBy_append, hother, List.append_nil]
    exact hleaves

theorem traced_of_reaches {shared : S} {s : System κ C S O A R}
    (hrun : Reaches act script (start shared) s) {i : κ}
    {thread : Thread C O A R} (here : s.thread i = some thread) :
    Traced script s.history i thread := by
  induction hrun generalizing i thread with
  | refl => cases here
  | @tail s t _ hstep ih =>
      cases hstep with
      | call j call idle =>
          simp only [System.begin, Function.update_apply] at here ⊢
          by_cases hij : i = j
          · subst hij
            rw [if_pos rfl] at here
            obtain rfl := Option.some.inj here
            exact ⟨s.history, [], rfl, by simp, .nil _⟩
          · rw [if_neg hij] at here
            exact (ih here).snoc (fun h => hij h.symm) rfl
      | perform j call op next hj =>
          simp only [System.perform, Function.update_apply] at here ⊢
          by_cases hij : i = j
          · subst hij
            rw [if_pos rfl] at here
            obtain rfl := Option.some.inj here
            obtain ⟨past, since, hhistory, hsince, hleaves⟩ := ih hj
            refine ⟨past, since ++ [.performed i op (act s.shared op).2],
              by simp [hhistory], ?_, ?_⟩
            · intro event hevent
              rcases List.mem_append.mp hevent with hold | hnew
              · exact hsince event hold
              · rw [List.mem_singleton.mp hnew]
                exact id
            · have hlast : performedBy i [(.performed i op (act s.shared op).2 :
                  Event κ C O A R)] = [⟨op, (act s.shared op).2⟩] := by
                simp [performedBy]
              rw [performedBy_append, hlast]
              exact hleaves.snoc _
          · rw [if_neg hij] at here
            exact (ih here).snoc id
              (performedBy_singleton_of_ne (Ne.symm hij) _ _)
      | finish j call reply hj =>
          simp only [System.finish, Function.update_apply] at here ⊢
          by_cases hij : i = j
          · rw [if_pos hij] at here
            cases here
          · rw [if_neg hij] at here
            exact (ih here).snoc (fun h => hij h.symm) rfl

/-! ## The object alone -/

/-- The object after operations, one after the other. -/
def perform (act : S → (op : O) → S × A op) (shared : S) (ops : List O) : S :=
  ops.foldl (fun shared op => (act shared op).1) shared

/-- The operations of all threads, in order. -/
def performed (history : List (Event κ C O A R)) : List O :=
  history.filterMap fun event => match event with
    | .performed _ op _ => some op
    | _ => none

omit [DecidableEq κ] in
@[simp] theorem performed_append (front back : List (Event κ C O A R)) :
    performed (front ++ back) = performed front ++ performed back := by
  simp [performed]

omit [DecidableEq κ] in
theorem mem_performed {history : List (Event κ C O A R)} {op : O} :
    op ∈ performed history ↔ ∃ i answer, .performed i op answer ∈ history := by
  constructor
  · intro h
    obtain ⟨event, hmem, hevent⟩ := List.mem_filterMap.mp h
    cases event with
    | called j call => cases hevent
    | returned j reply => cases hevent
    | performed j op' answer =>
        obtain rfl := Option.some.inj hevent
        exact ⟨j, answer, hmem⟩
  · rintro ⟨i, answer, hmem⟩
    exact List.mem_filterMap.mpr ⟨_, hmem, rfl⟩

omit [DecidableEq κ] in
@[simp] theorem performed_called (i : κ) (call : C)
    (rest : List (Event κ C O A R)) :
    performed (.called i call :: rest) = performed rest := rfl

omit [DecidableEq κ] in
@[simp] theorem performed_returned (i : κ) (reply : R)
    (rest : List (Event κ C O A R)) :
    performed (.returned i reply :: rest) = performed rest := rfl

omit [DecidableEq κ] in
@[simp] theorem performed_performed (i : κ) (op : O) (answer : A op)
    (rest : List (Event κ C O A R)) :
    performed (.performed i op answer :: rest) = op :: performed rest := rfl

/-- What every operation of a run keeps. -/
theorem perform_keeps {p : S → Prop} {ops : List O}
    (hact : ∀ op ∈ ops, ∀ shared, p shared → p (act shared op).1) {shared : S}
    (h : p shared) : p (perform act shared ops) := by
  induction ops generalizing shared with
  | nil => exact h
  | cons op rest ih =>
      exact ih (fun other hmem => hact other (List.mem_cons_of_mem _ hmem))
        (hact op List.mem_cons_self shared h)

/-- The operations of all threads are one run of the object. -/
theorem shared_of_reaches {shared : S} {s : System κ C S O A R}
    (hrun : Reaches act script (start shared) s) :
    s.shared = perform act shared (performed s.history) := by
  induction hrun with
  | refl => rfl
  | tail _ hstep ih =>
      cases hstep with
      | call i call idle => simpa [System.begin, performed] using ih
      | finish i call reply here => simpa [System.finish, performed] using ih
      | perform i call op next here =>
          simp only [System.perform, performed_append, perform,
            List.foldl_append] at ih ⊢
          rw [← ih]
          rfl

/-! ## Complete calls -/

/-- The last event of a list that satisfies a condition is at one place. -/
theorem last_split_unique {α : Type*} {p : α → Prop} {past past' : List α}
    {x x' : α} {since since' : List α}
    (heq : past ++ x :: since = past' ++ x' :: since') (hx : p x) (hx' : p x')
    (hsince : ∀ y ∈ since, ¬ p y) (hsince' : ∀ y ∈ since', ¬ p y) :
    past = past' ∧ x = x' ∧ since = since' := by
  induction past generalizing past' with
  | nil =>
      cases past' with
      | nil =>
          obtain ⟨rfl, rfl⟩ := List.cons.inj heq
          exact ⟨rfl, rfl, rfl⟩
      | cons y past' =>
          obtain ⟨_, hrest⟩ := List.cons.inj heq
          exact absurd hx' (hsince x' (by simp [hrest]))
  | cons y past ih =>
      cases past' with
      | nil =>
          obtain ⟨_, hrest⟩ := List.cons.inj heq
          exact absurd hx (hsince' x (by simp [← hrest]))
      | cons z past' =>
          obtain ⟨rfl, hrest⟩ := List.cons.inj heq
          obtain ⟨rfl, hsame⟩ := ih hrest
          exact ⟨rfl, hsame⟩

/-- A call that returned has performed its script to the end in between. -/
theorem leaves_of_returned {shared : S} {s : System κ C S O A R}
    (hrun : Reaches act script (start shared) s)
    {past between future : List (Event κ C O A R)} {i : κ} {call : C}
    {reply : R} (hsplit : s.history = past ++ .called i call ::
      (between ++ .returned i reply :: future))
    (hbetween : ∀ event ∈ between, ¬ event.Bounds i) :
    (script call).Leaves (performedBy i between) (.done reply) := by
  have hevent : s.history =
      (past ++ .called i call :: between) ++ .returned i reply :: future := by
    simpa using hsplit
  obtain ⟨u, v, hu, hstep, _, hpast, hlast⟩ :=
    hrun.exists_step hevent (Nat.zero_le _)
  cases hstep with
  | call j other idle =>
      simp [System.begin, hpast] at hlast
  | perform j other op next here =>
      simp [System.perform, hpast] at hlast
  | finish j other reply' here =>
      simp only [System.finish, hpast, List.append_cancel_left_eq,
        List.cons.injEq, Event.returned.injEq, and_true] at hlast
      obtain ⟨rfl, rfl⟩ := hlast
      obtain ⟨past', since, hhistory, hsince, hleaves⟩ :=
        traced_of_reaches hu here
      rw [hpast] at hhistory
      have hcalled : ∀ call : C,
          (Event.called j call : Event κ C O A R).Bounds j := fun _ => rfl
      obtain ⟨rfl, hcall, rfl⟩ := last_split_unique hhistory (hcalled _)
        (hcalled _) hbetween hsince
      obtain ⟨_, rfl⟩ := Event.called.inj hcall
      exact hleaves

/-- An operation belongs to the call that its thread started last. -/
theorem leaves_of_performed {shared : S} {s : System κ C S O A R}
    (hrun : Reaches act script (start shared) s)
    {past future : List (Event κ C O A R)} {i : κ} {op : O} {answer : A op}
    (hsplit : s.history = past ++ .performed i op answer :: future) :
    ∃ u call next, Reaches act script (start shared) u ∧
      u.history = past ∧ answer = (act u.shared op).2 ∧
      Traced script past i ⟨call, .perform op next⟩ ∧
      Reaches act script
        (u.perform i call op next (act u.shared op)) s := by
  obtain ⟨u, v, hu, hstep, hv, hpast, hlast⟩ :=
    hrun.exists_step hsplit (Nat.zero_le _)
  cases hstep with
  | call j other idle => simp [System.begin, hpast] at hlast
  | finish j other reply here => simp [System.finish, hpast] at hlast
  | perform j call op' next here =>
      have htraced := traced_of_reaches hu here
      rw [hpast] at htraced
      simp only [System.perform, hpast, List.append_cancel_left_eq,
        List.cons.injEq, Event.performed.injEq, and_true] at hlast
      obtain ⟨rfl, rfl, hanswer⟩ := hlast
      exact ⟨u, call, next, hu, hpast, (eq_of_heq hanswer).symm, htraced, hv⟩

end AtomicScripts
