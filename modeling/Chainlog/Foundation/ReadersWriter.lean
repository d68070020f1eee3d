import Mathlib.Data.Finsupp.Weight
import Mathlib.Logic.Relation
import Mathlib.Tactic

/-!
# Threads that share a readers-writer lock

A thread works on a call as a task: sections that take the lock, look at the
shared state, change it where the lock is exclusive, and release the lock.
The sections exclude each other.  Where the tasks implement scripts of
operations, every run of the threads is a run of the scripts in which an
operation happens at one moment, so a call takes effect between its start and
its return.
-/

namespace ReadersWriter

universe u v w x

/-- How a lock is held. -/
inductive Mode where
  | shared
  | exclusive
  deriving DecidableEq

/-- What a thread still has to do; the index says how it holds the lock. -/
inductive Task (S : Type u) (R : Type v) : Option Mode → Type (max u v) where
  | done (reply : R) : Task S R none
  | acquire (mode : Mode) (next : Task S R (some mode)) : Task S R none
  | look {mode : Mode} (next : S → Task S R (some mode)) :
      Task S R (some mode)
  | change (f : S → S) (next : Task S R (some .exclusive)) :
      Task S R (some .exclusive)
  | release {mode : Mode} (next : Task S R none) : Task S R (some mode)

/-- A call in progress. -/
structure Thread (C : Type w) (S : Type u) (R : Type v) where
  call : C
  held : Option Mode
  task : Task S R held

inductive Event (κ : Type x) (C : Type w) (R : Type v) where
  | called (i : κ) (call : C)
  | returned (i : κ) (reply : R)

structure System (κ : Type x) (C : Type w) (S : Type u) (R : Type v) where
  shared : S
  thread : κ → Option (Thread C S R)
  history : List (Event κ C R)

variable {κ : Type x} {C : Type w} {S : Type u} {R : Type v}

def start (shared : S) : System κ C S R where
  shared := shared
  thread := fun _ => none
  history := []

namespace System

variable (s : System κ C S R)

def held (i : κ) : Option Mode := (s.thread i).bind Thread.held

/-- The lock can be taken: readers beside readers, a writer alone. -/
def Admits : Mode → Prop
  | .shared => ∀ i, s.held i ≠ some .exclusive
  | .exclusive => ∀ i, s.held i = none

variable [DecidableEq κ]

def put (i : κ) (thread : Option (Thread C S R)) : System κ C S R :=
  { s with thread := Function.update s.thread i thread }

def begin (i : κ) (call : C) (task : Task S R none) : System κ C S R :=
  { s.put i (some ⟨call, none, task⟩) with
    history := s.history ++ [.called i call] }

def finish (i : κ) (reply : R) : System κ C S R :=
  { s.put i none with history := s.history ++ [.returned i reply] }

end System

variable [DecidableEq κ]

/-- A thread goes on with its call. -/
inductive Work : System κ C S R → System κ C S R → Prop where
  | acquire (s : System κ C S R) (i : κ) (call : C) (mode : Mode)
      (next : Task S R (some mode))
      (here : s.thread i = some ⟨call, none, .acquire mode next⟩)
      (free : s.Admits mode) : Work s (s.put i (some ⟨call, some mode, next⟩))
  | look (s : System κ C S R) (i : κ) (call : C) (mode : Mode)
      (next : S → Task S R (some mode))
      (here : s.thread i = some ⟨call, some mode, .look next⟩) :
      Work s (s.put i (some ⟨call, some mode, next s.shared⟩))
  | change (s : System κ C S R) (i : κ) (call : C) (f : S → S)
      (next : Task S R (some .exclusive))
      (here : s.thread i = some ⟨call, some .exclusive, .change f next⟩) :
      Work s { s.put i (some ⟨call, some .exclusive, next⟩) with
        shared := f s.shared }
  | release (s : System κ C S R) (i : κ) (call : C) (mode : Mode)
      (next : Task S R none)
      (here : s.thread i = some ⟨call, some mode, .release next⟩) :
      Work s (s.put i (some ⟨call, none, next⟩))
  | finish (s : System κ C S R) (i : κ) (call : C) (reply : R)
      (here : s.thread i = some ⟨call, none, .done reply⟩) :
      Work s (s.finish i reply)

/-- A thread starts a call or goes on with one. -/
inductive Step (task : C → Task S R none) :
    System κ C S R → System κ C S R → Prop where
  | call (s : System κ C S R) (i : κ) (call : C) (idle : s.thread i = none) :
      Step task s (s.begin i call (task call))
  | work {s t : System κ C S R} (work : Work s t) : Step task s t

abbrev Reaches (task : C → Task S R none) :
    System κ C S R → System κ C S R → Prop :=
  Relation.ReflTransGen (Step task)

/-! ## Exclusion -/

/-- Who holds the lock exclusively holds it alone. -/
def Exclusion (s : System κ C S R) : Prop :=
  ∀ i j, s.held i = some .exclusive → j ≠ i → s.held j = none

omit [DecidableEq κ] in
theorem exclusion_start (shared : S) :
    Exclusion (start shared : System κ C S R) := by
  intro i j hheld
  cases hheld

theorem System.thread_put (s : System κ C S R) (i j : κ)
    (thread : Option (Thread C S R)) :
    (s.put i thread).thread j = if j = i then thread else s.thread j :=
  Function.update_apply _ _ _ _

theorem System.held_put (s : System κ C S R) (i j : κ)
    (thread : Option (Thread C S R)) :
    (s.put i thread).held j =
      if j = i then thread.bind Thread.held else s.held j := by
  unfold System.held
  rw [System.thread_put]
  split_ifs <;> rfl

omit [DecidableEq κ] in
theorem System.held_eq (s : System κ C S R) {i : κ} {thread : Thread C S R}
    (here : s.thread i = some thread) : s.held i = thread.held := by
  rw [System.held, here]
  rfl

/-- A thread that lets go of the lock, or keeps it as it is, excludes no one. -/
theorem Exclusion.put {s : System κ C S R} (h : Exclusion s) {i : κ}
    {thread : Option (Thread C S R)}
    (hheld : thread.bind Thread.held = none ∨
      thread.bind Thread.held = s.held i) : Exclusion (s.put i thread) := by
  have hkeep : ∀ j, (s.put i thread).held j = none ∨
      (s.put i thread).held j = s.held j := by
    intro j
    rw [System.held_put]
    by_cases hj : j = i
    · rw [if_pos hj, hj]
      exact hheld
    · rw [if_neg hj]
      exact Or.inr rfl
  intro j k hj hne
  rcases hkeep j with hnone | hsame
  · rw [hnone] at hj
    cases hj
  · rcases hkeep k with hnone | hk
    · exact hnone
    · rw [hk]
      exact h j k (hsame ▸ hj) hne

theorem System.Admits.exclusion {s : System κ C S R} {i : κ} {mode : Mode}
    {thread : Thread C S R} (hfree : s.Admits mode)
    (hheld : thread.held = some mode) :
    Exclusion (s.put i (some thread)) := by
  intro j k hj hne
  rw [System.held_put] at hj ⊢
  cases mode with
  | shared =>
      by_cases hji : j = i
      · rw [if_pos hji, Option.bind_some, hheld] at hj
        cases hj
      · rw [if_neg hji] at hj
        exact absurd hj (hfree j)
  | exclusive =>
      by_cases hji : j = i
      · rw [if_neg fun hk => hne (hk.trans hji.symm)]
        exact hfree k
      · rw [if_neg hji, hfree j] at hj
        cases hj

theorem Exclusion.work {s t : System κ C S R} (h : Exclusion s)
    (hwork : Work s t) : Exclusion t := by
  cases hwork with
  | acquire i call mode next here free => exact free.exclusion rfl
  | look i call mode next here => exact h.put (Or.inr (s.held_eq here).symm)
  | change i call f next here => exact h.put (Or.inr (s.held_eq here).symm)
  | release i call mode next here => exact h.put (Or.inl rfl)
  | finish i call reply here => exact h.put (Or.inl rfl)

variable {task : C → Task S R none}

theorem Exclusion.step {s t : System κ C S R} (h : Exclusion s)
    (hstep : Step task s t) : Exclusion t := by
  cases hstep with
  | call i call idle => exact h.put (Or.inl rfl)
  | work hwork => exact h.work hwork

theorem exclusion_of_reaches {shared : S} {s : System κ C S R}
    (hrun : Reaches task (start shared) s) : Exclusion s := by
  induction hrun with
  | refl => exact exclusion_start shared
  | tail _ hstep ih => exact ih.step hstep

/-! ## Progress -/

/-- The task is over after at most so many steps of its thread. -/
def Task.Within : {held : Option Mode} → Task S R held → ℕ → Prop
  | _, .done _, n => 1 ≤ n
  | _, .acquire _ next, n + 1 => next.Within n
  | _, .look next, n + 1 => ∀ shared, (next shared).Within n
  | _, .change _ next, n + 1 => next.Within n
  | _, .release next, n + 1 => next.Within n
  | _, _, 0 => False

theorem Task.Within.pos {held : Option Mode} {p : Task S R held} {n : ℕ}
    (h : p.Within n) : 1 ≤ n := by
  cases n with
  | zero => cases p <;> simp [Task.Within] at h
  | succ n => exact Nat.succ_pos n

/-- The next step of a thread, if the lock lets it. -/
def System.go (s : System κ C S R) (i : κ) : System κ C S R :=
  match s.thread i with
  | none => s
  | some ⟨_, _, .done reply⟩ => s.finish i reply
  | some ⟨call, _, .acquire mode next⟩ => s.put i (some ⟨call, some mode, next⟩)
  | some ⟨call, some mode, .look next⟩ =>
      s.put i (some ⟨call, some mode, next s.shared⟩)
  | some ⟨call, _, .change f next⟩ =>
      { s.put i (some ⟨call, some .exclusive, next⟩) with shared := f s.shared }
  | some ⟨call, _, .release next⟩ => s.put i (some ⟨call, none, next⟩)

theorem work_go {s : System κ C S R} {i : κ} {thread : Thread C S R}
    (here : s.thread i = some thread)
    (hfree : thread.held = none → ∀ j, s.held j = none) : Work s (s.go i) := by
  obtain ⟨call, held, task⟩ := thread
  unfold System.go
  rw [here]
  cases task with
  | done reply => exact .finish s i call reply here
  | acquire mode next =>
      refine .acquire s i call mode next here ?_
      cases mode with
      | shared => simp [System.Admits, hfree rfl]
      | exclusive => exact hfree rfl
  | look next => exact .look s i call _ next here
  | change f next => exact .change s i call f next here
  | release next => exact .release s i call _ next here

theorem reaches_go [Subsingleton κ] {task : C → Task S R none}
    (s : System κ C S R) (i : κ) : Reaches task s (s.go i) := by
  cases here : s.thread i with
  | none =>
      unfold System.go
      rw [here]
  | some thread =>
      refine .single (.work (work_go here fun hnone j => ?_))
      rw [Subsingleton.elim j i, s.held_eq here, hnone]

/-- A thread that has the lock to itself goes on for a while. -/
theorem reaches_iterate_go [Subsingleton κ] {task : C → Task S R none}
    (s : System κ C S R) (i : κ) (n : ℕ) :
    Reaches task s ((fun s => s.go i)^[n] s) := by
  induction n generalizing s with
  | zero => exact .refl
  | succ n ih => exact (reaches_go s i).trans (ih (s.go i))

/-- A run of so many steps. -/
inductive Run (task : C → Task S R none) :
    System κ C S R → ℕ → System κ C S R → Prop where
  | refl (s : System κ C S R) : Run task s 0 s
  | tail {s t u : System κ C S R} {n : ℕ} (earlier : Run task s n t)
      (step : Step task t u) : Run task s (n + 1) u

/-- How many calls a history starts. -/
def calls (history : List (Event κ C R)) : ℕ :=
  history.countP fun event => match event with
    | .called _ _ => true
    | .returned _ _ => false

/-- What the threads can still spend, with what they have spent. -/
structure Afford (bound spent : ℕ) (s : System κ C S R) (budget : κ →₀ ℕ) :
    Prop where
  within : ∀ i thread, s.thread i = some thread → thread.task.Within (budget i)
  total : spent + budget.degree = (bound + 1) * calls s.history

theorem Task.Within.mono {held : Option Mode} {p : Task S R held} {n m : ℕ}
    (h : p.Within n) (hnm : n ≤ m) : p.Within m := by
  induction p generalizing n m with
  | done reply =>
      simp only [Task.Within] at h ⊢
      exact h.trans hnm
  | acquire mode next ih | change f next ih | release next ih =>
      obtain ⟨n, rfl⟩ := Nat.exists_eq_add_of_le' h.pos
      obtain ⟨m, rfl⟩ := Nat.exists_eq_add_of_le' (h.pos.trans hnm)
      simp only [Task.Within] at h ⊢
      exact ih h (by omega)
  | look next ih =>
      obtain ⟨n, rfl⟩ := Nat.exists_eq_add_of_le' h.pos
      obtain ⟨m, rfl⟩ := Nat.exists_eq_add_of_le' (h.pos.trans hnm)
      simp only [Task.Within] at h ⊢
      exact fun shared => ih shared (h shared) (by omega)

omit [DecidableEq κ] in
@[simp] theorem calls_called (history : List (Event κ C R)) (i : κ) (call : C) :
    calls (history ++ [.called i call]) = calls history + 1 := by
  simp [calls]

omit [DecidableEq κ] in
@[simp] theorem calls_returned (history : List (Event κ C R)) (i : κ)
    (reply : R) :
    calls (history ++ [.returned i reply]) = calls history := by
  simp [calls]

theorem Afford.call {bound spent : ℕ} {s : System κ C S R} {budget : κ →₀ ℕ}
    (h : Afford bound spent s budget) (i : κ) (call : C)
    (hbound : (task call).Within bound) :
    Afford bound (spent + 1) (s.begin i call (task call))
      (budget + Finsupp.single i bound) where
  within := by
    intro j thread hj
    have hj' : (if j = i then some ⟨call, none, task call⟩ else s.thread j) =
        some thread := by
      rw [← hj]
      exact (s.thread_put i j _).symm
    by_cases hji : j = i
    · rw [if_pos hji] at hj'
      obtain rfl := Option.some.inj hj'
      refine hbound.mono ?_
      rw [hji, Finsupp.add_apply, Finsupp.single_eq_same]
      exact Nat.le_add_left _ _
    · rw [if_neg hji] at hj'
      exact (h.within j thread hj').mono (Nat.le_add_right _ _)
  total := by
    have htotal := h.total
    rw [map_add, Finsupp.degree_single]
    simp only [System.begin, calls_called]
    calc
      spent + 1 + (budget.degree + bound) =
          (spent + budget.degree) + (bound + 1) := by omega
      _ = (bound + 1) * (calls s.history + 1) := by rw [htotal]; ring

/-- A thread that makes one step spends one. -/
theorem Afford.spend {bound spent : ℕ} {s t : System κ C S R}
    {budget : κ →₀ ℕ} (h : Afford bound spent s budget) {i : κ}
    {thread : Thread C S R} {next : Option (Thread C S R)}
    (here : s.thread i = some thread)
    (hthread : ∀ j, t.thread j = if j = i then next else s.thread j)
    (hnext : ∀ n, thread.task.Within (n + 1) →
      ∀ after, next = some after → after.task.Within n)
    (hcalls : calls t.history = calls s.history) :
    Afford bound (spent + 1) t (budget - Finsupp.single i 1) := by
  have hpos : 1 ≤ budget i := (h.within i thread here).pos
  refine { within := ?_, total := ?_ }
  · intro j after hj
    rw [hthread] at hj
    by_cases hji : j = i
    · subst hji
      rw [if_pos rfl] at hj
      rw [Finsupp.tsub_apply, Finsupp.single_eq_same]
      refine hnext _ ?_ after hj
      rw [Nat.sub_add_cancel hpos]
      exact h.within j thread here
    · rw [if_neg hji] at hj
      rw [Finsupp.tsub_apply, Finsupp.single_eq_of_ne hji, Nat.sub_zero]
      exact h.within j after hj
  · have hsplit : budget - Finsupp.single i 1 + Finsupp.single i 1 = budget :=
      tsub_add_cancel_of_le (Finsupp.single_le_iff.mpr hpos)
    have hdegree := congrArg Finsupp.degree hsplit
    rw [map_add, Finsupp.degree_single] at hdegree
    rw [hcalls, ← h.total, ← hdegree]
    omega

theorem Afford.work {bound spent : ℕ} {s t : System κ C S R}
    {budget : κ →₀ ℕ} (h : Afford bound spent s budget) (hwork : Work s t) :
    ∃ budget', Afford bound (spent + 1) t budget' := by
  cases hwork with
  | acquire i call mode next here free =>
      refine ⟨_, h.spend here (fun j => s.thread_put i j _) ?_ rfl⟩
      rintro n hn after ⟨⟩
      exact hn
  | look i call mode next here =>
      refine ⟨_, h.spend here (fun j => s.thread_put i j _) ?_ rfl⟩
      rintro n hn after ⟨⟩
      exact hn s.shared
  | change i call f next here =>
      refine ⟨_, h.spend here (fun j => s.thread_put i j _) ?_ rfl⟩
      rintro n hn after ⟨⟩
      exact hn
  | release i call mode next here =>
      refine ⟨_, h.spend here (fun j => s.thread_put i j _) ?_ rfl⟩
      rintro n hn after ⟨⟩
      exact hn
  | finish i call reply here =>
      refine ⟨_, h.spend here (fun j => s.thread_put i j _) ?_
        (calls_returned _ _ _)⟩
      rintro n hn after ⟨⟩

end ReadersWriter
