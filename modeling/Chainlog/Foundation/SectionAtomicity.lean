import Chainlog.Foundation.AtomicScripts
import Chainlog.Foundation.ReadersWriter

/-!
# Sections under a lock are atomic

A task implements a script where each of its sections either performs the
operation the script is about to perform, or finds that it has to wait for a
later section and changes nothing.  Whole runs of threads under the lock are
then runs of the scripts: a section takes effect when its thread takes the
lock.
-/

namespace ReadersWriter

universe u v w x y z

variable {κ : Type x} {C : Type y} {S : Type u} {R : Type v} {O : Type w}
  {A : O → Type z}

/-- The section of a task, if it is in one, run to its end. -/
def Task.settle : {held : Option Mode} → Task S R held → S → S × Task S R none
  | _, .done reply, shared => (shared, .done reply)
  | _, .acquire mode next, shared => (shared, .acquire mode next)
  | _, .look next, shared => (next shared).settle shared
  | _, .change f next, shared => next.settle (f shared)
  | _, .release next, shared => (shared, next)

/-- The task carries out the script.  A section is idle where it leaves the
operation to a later section. -/
inductive Implements (act : S → (op : O) → S × A op) :
    Task S R none → AtomicScripts.Script O A R → Prop where
  | done (reply : R) : Implements act (.done reply) (.done reply)
  | acquire (mode : Mode) (next : Task S R (some mode)) (op : O)
      (rest : A op → AtomicScripts.Script O A R) (idle : S → Prop)
      (same : ∀ shared, idle shared → (next.settle shared).1 = shared)
      (waits : ∀ shared, idle shared →
        Implements act (next.settle shared).2 (.perform op rest))
      (acts : ∀ shared, ¬ idle shared →
        (next.settle shared).1 = (act shared op).1)
      (goes : ∀ shared, ¬ idle shared →
        Implements act (next.settle shared).2 (rest (act shared op).2)) :
      Implements act (.acquire mode next) (.perform op rest)

/-- A section that performs the operation whatever it finds. -/
theorem Implements.single {act : S → (op : O) → S × A op} {mode : Mode}
    {next : Task S R (some mode)} {op : O}
    {rest : A op → AtomicScripts.Script O A R} {after : A op → Task S R none}
    (hsettle : ∀ shared, next.settle shared =
      ((act shared op).1, after (act shared op).2))
    (hafter : ∀ answer, Implements act (after answer) (rest answer)) :
    Implements act (.acquire mode next) (.perform op rest) := by
  refine .acquire mode next op rest (fun _ => False) ?_ ?_ ?_ ?_
  · exact fun _ hidle => hidle.elim
  · exact fun _ hidle => hidle.elim
  · intro shared _
    rw [hsettle]
  · intro shared _
    rw [hsettle]
    exact hafter _

theorem Task.settle_free (task : Task S R none) (shared : S) :
    task.settle shared = (shared, task) := by
  cases task <;> rfl

/-- A reader changes nothing. -/
theorem Task.settle_fst_of_shared {held : Option Mode} (task : Task S R held)
    (hheld : held ≠ some .exclusive) (shared : S) :
    (task.settle shared).1 = shared := by
  induction task with
  | done reply => rfl
  | acquire mode next => rfl
  | look next ih => exact ih shared hheld
  | change f next ih => exact absurd rfl hheld
  | release next => rfl

/-- The event as an observer sees it. -/
def visible : AtomicScripts.Event κ C O A R → Option (Event κ C R)
  | .called i call => some (.called i call)
  | .performed _ _ _ => none
  | .returned i reply => some (.returned i reply)

/-- The state once the section of the thread that holds the lock exclusively,
if there is one, is over. -/
structure Settles (s : System κ C S R) (shared : S) : Prop where
  quiet : (∀ i, s.held i ≠ some .exclusive) → shared = s.shared
  changing : ∀ i thread, s.thread i = some thread →
    thread.held = some .exclusive →
      shared = (thread.task.settle s.shared).1

structure Simulates (act : S → (op : O) → S × A op) (s : System κ C S R)
    (t : AtomicScripts.System κ C S O A R) : Prop where
  history : t.history.filterMap visible = s.history
  idle : ∀ i, s.thread i = none → t.thread i = none
  busy : ∀ i thread, s.thread i = some thread → ∃ script,
    t.thread i = some ⟨thread.call, script⟩ ∧
      Implements act (thread.task.settle s.shared).2 script
  settles : Settles s t.shared

variable {act : S → (op : O) → S × A op} {task : C → Task S R none}
  {script : C → AtomicScripts.Script O A R}

theorem simulates_start (shared : S) :
    Simulates act (start shared : System κ C S R)
      (AtomicScripts.start shared) where
  history := rfl
  idle _ _ := rfl
  busy := by
    rintro i thread ⟨⟩
  settles := by
    refine ⟨fun _ => rfl, ?_⟩
    rintro i thread ⟨⟩

variable [DecidableEq κ]

/-- A thread that does not hold the lock exclusively before or after its step
leaves the settled state as it is. -/
theorem Settles.put {s : System κ C S R} {shared : S} (h : Settles s shared)
    (i : κ) (next : Option (Thread C S R))
    (hbefore : s.held i ≠ some .exclusive)
    (hafter : next.bind Thread.held ≠ some .exclusive) :
    Settles (s.put i next) shared where
  quiet hquiet := by
    apply h.quiet
    intro j
    by_cases hj : j = i
    · rw [hj]
      exact hbefore
    · have hother := hquiet j
      rwa [s.held_put, if_neg hj] at hother
  changing := by
    intro j thread hj hheld
    rw [s.thread_put] at hj
    by_cases hji : j = i
    · rw [if_pos hji] at hj
      rw [hj] at hafter
      exact absurd hheld hafter
    · rw [if_neg hji] at hj
      exact h.changing j thread hj hheld

/-- The other threads of a simulation stay as they are, as long as the state
they look at does. -/
theorem Simulates.busy_put {s : System κ C S R}
    {t : AtomicScripts.System κ C S O A R} (h : Simulates act s t) {i : κ}
    {next : Thread C S R} {script : AtomicScripts.Script O A R}
    (hnext : Implements act (next.task.settle s.shared).2 script) {j : κ}
    {thread : Thread C S R}
    (here : (s.put i (some next)).thread j = some thread) : ∃ script',
      Function.update t.thread i (some ⟨next.call, script⟩) j =
          some ⟨thread.call, script'⟩ ∧
        Implements act (thread.task.settle s.shared).2 script' := by
  rw [s.thread_put] at here
  rw [Function.update_apply]
  by_cases hj : j = i
  · rw [if_pos hj] at here ⊢
    obtain rfl := Option.some.inj here
    exact ⟨script, rfl, hnext⟩
  · rw [if_neg hj] at here ⊢
    exact h.busy j thread here

theorem Simulates.idle_put {s : System κ C S R}
    {t : AtomicScripts.System κ C S O A R} (h : Simulates act s t) {i : κ}
    {next : Thread C S R} (other : AtomicScripts.Thread C O A R) {j : κ}
    (here : (s.put i (some next)).thread j = none) :
    Function.update t.thread i (some other) j = none := by
  rw [s.thread_put] at here
  rw [Function.update_apply]
  by_cases hj : j = i
  · rw [if_pos hj] at here
    cases here
  · rw [if_neg hj] at here ⊢
    exact h.idle j here

omit [DecidableEq κ] in
theorem System.Admits.quiet {s : System κ C S R} {mode : Mode}
    (hfree : s.Admits mode) (i : κ) : s.held i ≠ some .exclusive := by
  cases mode with
  | shared => exact hfree i
  | exclusive =>
      rw [hfree i]
      simp

/-- The section is settled from the moment its thread takes the lock. -/
theorem System.Admits.settles {s : System κ C S R} {mode : Mode}
    (hfree : s.Admits mode) (i : κ) (call : C)
    (next : Task S R (some mode)) :
    Settles (s.put i (some ⟨call, some mode, next⟩))
      (next.settle s.shared).1 where
  quiet hquiet := by
    have hself := hquiet i
    rw [s.held_put, if_pos rfl] at hself
    exact next.settle_fst_of_shared hself s.shared
  changing := by
    intro j thread hj hheld
    by_cases hji : j = i
    · rw [s.thread_put, if_pos hji] at hj
      obtain rfl := Option.some.inj hj
      rfl
    · rw [s.thread_put, if_neg hji] at hj
      exact absurd ((s.held_eq hj).trans hheld) (hfree.quiet j)

/-- A thread goes on in its section without a change of what it will leave. -/
theorem Settles.look {s : System κ C S R} {shared : S} (h : Settles s shared)
    {i : κ} {call : C} {mode : Mode} {task task' : Task S R (some mode)}
    (here : s.thread i = some ⟨call, some mode, task⟩)
    (hsame : task.settle s.shared = task'.settle s.shared) :
    Settles (s.put i (some ⟨call, some mode, task'⟩)) shared where
  quiet hquiet := by
    apply h.quiet
    intro j
    have hother := hquiet j
    rw [s.held_put] at hother
    by_cases hj : j = i
    · rw [if_pos hj] at hother
      rw [hj, s.held_eq here]
      exact hother
    · rwa [if_neg hj] at hother
  changing := by
    intro j thread hj hheld
    rw [s.thread_put] at hj
    by_cases hji : j = i
    · rw [if_pos hji] at hj
      obtain rfl := Option.some.inj hj
      rw [h.changing i _ here hheld, hsame]
      rfl
    · rw [if_neg hji] at hj
      exact h.changing j thread hj hheld

/-- A section that is over leaves what it was going to leave. -/
theorem Settles.release {s : System κ C S R} {shared : S}
    (h : Settles s shared) {i : κ} {call : C} {mode : Mode}
    {next : Task S R none}
    (here : s.thread i = some ⟨call, some mode, .release next⟩) :
    Settles (s.put i (some ⟨call, none, next⟩)) shared := by
  cases mode with
  | shared =>
      apply h.put
      · rw [s.held_eq here]
        simp
      · simp
  | exclusive =>
      have hshared : shared = s.shared := h.changing i _ here rfl
      refine ⟨fun _ => hshared, ?_⟩
      intro j thread hj hheld
      rw [s.thread_put] at hj
      by_cases hji : j = i
      · rw [if_pos hji] at hj
        obtain rfl := Option.some.inj hj
        cases hheld
      · rw [if_neg hji] at hj
        exact h.changing j thread hj hheld

theorem Simulates.acquire {s : System κ C S R}
    {t : AtomicScripts.System κ C S O A R} (h : Simulates act s t) {i : κ}
    {call : C} {mode : Mode} {next : Task S R (some mode)}
    (here : s.thread i = some ⟨call, none, .acquire mode next⟩)
    (hfree : s.Admits mode) :
    ∃ t', AtomicScripts.Reaches act script t t' ∧
      Simulates act (s.put i (some ⟨call, some mode, next⟩)) t' := by
  obtain ⟨rest, ht, himplements⟩ := h.busy i _ here
  have hshared : t.shared = s.shared := h.settles.quiet hfree.quiet
  have hsettles := hfree.settles i call next
  cases himplements with
  | acquire _ _ op rest idle same waits acts goes =>
      by_cases hidle : idle s.shared
      · -- the section leaves the operation to a later one
        refine ⟨t, .refl, h.history, ?_, ?_, ?_⟩
        · intro j hj
          have hnone := h.idle_put ⟨call, .perform op rest⟩ hj
          rwa [← ht, Function.update_eq_self] at hnone
        · intro j thread hj
          have hbusy := h.busy_put (waits s.shared hidle) hj
          rwa [← ht, Function.update_eq_self] at hbusy
        · rwa [same s.shared hidle, ← hshared] at hsettles
      · refine ⟨_, .single (.perform t i call op rest ht), ?_, ?_, ?_, ?_⟩
        · simp only [AtomicScripts.System.perform, List.filterMap_append,
            h.history]
          exact List.append_nil _
        · exact fun j hj => h.idle_put _ hj
        · intro j thread hj
          refine h.busy_put ?_ hj
          rw [hshared]
          exact goes s.shared hidle
        · show Settles _ (act t.shared op).1
          rw [hshared, ← acts s.shared hidle]
          exact hsettles

/-- A thread goes on in a section; the scripts stand still. -/
theorem Simulates.stutter {s : System κ C S R}
    {t : AtomicScripts.System κ C S O A R} (h : Simulates act s t) {i : κ}
    {thread thread' : Thread C S R} (here : s.thread i = some thread)
    (hcall : thread'.call = thread.call)
    (hsame : (thread.task.settle s.shared).2 =
      (thread'.task.settle s.shared).2)
    (hsettles : Settles (s.put i (some thread')) t.shared) :
    Simulates act (s.put i (some thread')) t := by
  obtain ⟨script, ht, himplements⟩ := h.busy i thread here
  rw [← hcall] at ht
  rw [hsame] at himplements
  refine ⟨h.history, ?_, ?_, hsettles⟩
  · intro j hj
    have hnone := h.idle_put ⟨thread'.call, script⟩ hj
    rwa [← ht, Function.update_eq_self] at hnone
  · intro j other hj
    have hbusy := h.busy_put himplements hj
    rwa [← ht, Function.update_eq_self] at hbusy

/-- Only the thread that holds the lock exclusively sees a change. -/
theorem Simulates.change {s : System κ C S R}
    {t : AtomicScripts.System κ C S O A R} (h : Simulates act s t)
    (hexclusion : Exclusion s) {i : κ} {call : C} {f : S → S}
    {next : Task S R (some .exclusive)}
    (here : s.thread i = some ⟨call, some .exclusive, .change f next⟩) :
    Simulates act { s.put i (some ⟨call, some .exclusive, next⟩) with
      shared := f s.shared } t := by
  have hheld : s.held i = some .exclusive := s.held_eq here
  have hthread : ∀ j thread,
      (s.put i (some ⟨call, some .exclusive, next⟩)).thread j = some thread →
        j = i ∧ thread = ⟨call, some .exclusive, next⟩ ∨
          s.thread j = some thread ∧ thread.held = none := by
    intro j thread hj
    rw [s.thread_put] at hj
    by_cases hji : j = i
    · rw [if_pos hji] at hj
      exact Or.inl ⟨hji, (Option.some.inj hj).symm⟩
    · rw [if_neg hji] at hj
      refine Or.inr ⟨hj, ?_⟩
      rw [← s.held_eq hj]
      exact hexclusion i j hheld hji
  refine ⟨h.history, ?_, ?_, ?_, ?_⟩
  · intro j hj
    have hj' : (s.put i (some ⟨call, some .exclusive, next⟩)).thread j =
        none := hj
    rw [s.thread_put] at hj'
    split_ifs at hj' with hji
    exact h.idle j hj'
  · intro j thread hj
    rcases hthread j thread hj with ⟨rfl, rfl⟩ | ⟨hold, hfree⟩
    · exact h.busy j _ here
    · obtain ⟨script, ht, himplements⟩ := h.busy j thread hold
      refine ⟨script, ht, ?_⟩
      obtain ⟨other, held, task⟩ := thread
      obtain rfl : held = none := hfree
      rw [Task.settle_free] at himplements ⊢
      exact himplements
  · intro hquiet
    refine absurd ?_ (hquiet i)
    show (s.put i (some ⟨call, some .exclusive, next⟩)).held i = _
    rw [s.held_put, if_pos rfl]
    rfl
  · intro j thread hj hexclusive
    rcases hthread j thread hj with ⟨rfl, rfl⟩ | ⟨_, hfree⟩
    · exact h.settles.changing j _ here rfl
    · rw [hfree] at hexclusive
      cases hexclusive

theorem Simulates.work {s s' : System κ C S R}
    {t : AtomicScripts.System κ C S O A R} (h : Simulates act s t)
    (hexclusion : Exclusion s) (hwork : Work s s') :
    ∃ t', AtomicScripts.Reaches act script t t' ∧ Simulates act s' t' := by
  cases hwork with
  | acquire i call mode next here free => exact h.acquire here free
  | look i call mode next here =>
      exact ⟨t, .refl, h.stutter here rfl rfl (h.settles.look here rfl)⟩
  | change i call f next here => exact ⟨t, .refl, h.change hexclusion here⟩
  | release i call mode next here =>
      refine ⟨t, .refl, h.stutter here rfl ?_ (h.settles.release here)⟩
      show next = (next.settle s.shared).2
      rw [Task.settle_free]
  | finish i call reply here =>
      obtain ⟨rest, ht, himplements⟩ := h.busy i _ here
      cases himplements with
      | done =>
          refine ⟨_, .single (.finish t i call reply ht), ?_, ?_, ?_, ?_⟩
          · simp only [AtomicScripts.System.finish, List.filterMap_append,
              h.history]
            rfl
          · intro j hj
            simp only [AtomicScripts.System.finish, Function.update_apply]
            split_ifs with hji
            · rfl
            · apply h.idle
              simpa [System.finish, s.thread_put, hji] using hj
          · intro j thread hj
            have hj' : (s.put i none).thread j = some thread := hj
            rw [s.thread_put] at hj'
            simp only [AtomicScripts.System.finish, Function.update_apply]
            split_ifs at hj' ⊢ with hji
            exact h.busy j thread hj'
          · have hput := h.settles.put i none
              (by simp [s.held_eq here]) (by simp)
            exact ⟨hput.quiet, hput.changing⟩

theorem Simulates.step {s s' : System κ C S R}
    {t : AtomicScripts.System κ C S O A R} (h : Simulates act s t)
    (hexclusion : Exclusion s)
    (htask : ∀ call, Implements act (task call) (script call))
    (hstep : Step task s s') :
    ∃ t', AtomicScripts.Reaches act script t t' ∧ Simulates act s' t' := by
  cases hstep with
  | work hwork => exact h.work hexclusion hwork
  | call i call idle =>
      refine ⟨_, .single (.call t i call (h.idle i idle)), ?_, ?_, ?_, ?_⟩
      · simp only [AtomicScripts.System.begin, List.filterMap_append,
          h.history]
        rfl
      · exact fun j hj => h.idle_put _ hj
      · intro j thread hj
        refine h.busy_put ?_ hj
        rw [Task.settle_free]
        exact htask call
      · have hput := h.settles.put i (some ⟨call, none, task call⟩)
          (by simp [System.held, idle]) (by simp)
        exact ⟨hput.quiet, hput.changing⟩

/-- Every run of threads under the lock is a run of the scripts with the same
calls and returns. -/
theorem exists_atomic_run
    (htask : ∀ call, Implements act (task call) (script call)) {shared : S}
    {s : System κ C S R} (hrun : Reaches task (start shared) s) :
    ∃ t, AtomicScripts.Reaches act script (AtomicScripts.start shared) t ∧
      Simulates act s t := by
  induction hrun with
  | refl => exact ⟨_, .refl, simulates_start shared⟩
  | tail hearlier hstep ih =>
      obtain ⟨t, ht, hsimulates⟩ := ih
      obtain ⟨t', ht', hsimulates'⟩ :=
        hsimulates.step (exclusion_of_reaches hearlier) htask hstep
      exact ⟨t', ht.trans ht', hsimulates'⟩

/-! ## Linearizations -/

/-- A history of whole operations behind what the threads did: with the same
calls and returns, one run of the object, and in every call the operations of
its script between its start and its return. -/
structure Linearizes (act : S → (op : O) → S × A op)
    (script : C → AtomicScripts.Script O A R) (shared : S)
    (s : System κ C S R) (history : List (AtomicScripts.Event κ C O A R)) :
    Prop where
  observed : history.filterMap visible = s.history
  settled : (∀ i, s.held i ≠ some .exclusive) →
    s.shared = AtomicScripts.perform act shared (AtomicScripts.performed history)
  answered : ∀ past future i op answer,
    history = past ++ .performed i op answer :: future →
      answer = (act (AtomicScripts.perform act shared
        (AtomicScripts.performed past)) op).2
  owned : ∀ past future i op answer,
    history = past ++ .performed i op answer :: future →
      ∃ call next, AtomicScripts.Traced script past i ⟨call, .perform op next⟩
  complete : ∀ past between future i call reply,
    history = past ++ .called i call ::
        (between ++ .returned i reply :: future) →
      (∀ event ∈ between, ¬ event.Bounds i) →
      (script call).Leaves (AtomicScripts.performedBy i between) (.done reply)

theorem exists_linearization
    (htask : ∀ call, Implements act (task call) (script call)) {shared : S}
    {s : System κ C S R} (hrun : Reaches task (start shared) s) :
    ∃ history, Linearizes act script shared s history := by
  obtain ⟨t, ht, hsimulates⟩ := exists_atomic_run htask hrun
  refine ⟨t.history, hsimulates.history, ?_, ?_, ?_, ?_⟩
  · intro hquiet
    rw [← AtomicScripts.shared_of_reaches ht, hsimulates.settles.quiet hquiet]
  · intro past future i op answer hsplit
    obtain ⟨u, call, next, hu, rfl, hanswer, _⟩ :=
      AtomicScripts.leaves_of_performed ht hsplit
    rw [← AtomicScripts.shared_of_reaches hu]
    exact hanswer
  · intro past future i op answer hsplit
    obtain ⟨u, call, next, _, _, _, htraced, _⟩ :=
      AtomicScripts.leaves_of_performed ht hsplit
    exact ⟨call, next, htraced⟩
  · intro past between future i call reply hsplit hbetween
    exact AtomicScripts.leaves_of_returned ht hsplit hbetween

/-- The event starts or ends a call of the thread. -/
def Event.Bounds (i : κ) : Event κ C R → Prop
  | .called j _ => j = i
  | .returned j _ => j = i

/-- The event of a history of whole operations that is seen as this one. -/
def Event.whole : Event κ C R → AtomicScripts.Event κ C O A R
  | .called i call => .called i call
  | .returned i reply => .returned i reply

omit [DecidableEq κ] in
theorem whole_of_visible {event : AtomicScripts.Event κ C O A R}
    {seen : Event κ C R} (h : visible event = some seen) :
    event = seen.whole := by
  cases event <;> cases h <;> rfl

omit [DecidableEq κ] in
theorem bounds_of_visible {i : κ} {event : AtomicScripts.Event κ C O A R}
    (h : event.Bounds i) : ∃ seen, visible event = some seen ∧
      seen.Bounds i := by
  cases event with
  | called j call => exact ⟨_, rfl, h⟩
  | performed j op answer => exact h.elim
  | returned j reply => exact ⟨_, rfl, h⟩

omit [DecidableEq κ] in
/-- What is seen splits as the history does. -/
theorem split_of_visible {history : List (AtomicScripts.Event κ C O A R)}
    {past future : List (Event κ C R)} {seen : Event κ C R}
    (h : history.filterMap visible = past ++ seen :: future) :
    ∃ front back, history = front ++ seen.whole :: back ∧
      front.filterMap visible = past ∧ back.filterMap visible = future := by
  obtain ⟨front, rest, rfl, hfront, hrest⟩ := List.filterMap_eq_append_iff.mp h
  obtain ⟨quiet, event, back, rfl, hquiet, hevent, hback⟩ :=
    List.filterMap_eq_cons_iff.mp hrest
  refine ⟨front ++ quiet, back, ?_, ?_, hback⟩
  · rw [whole_of_visible hevent, List.append_assoc]
  · rw [List.filterMap_append, hfront, List.filterMap_eq_nil_iff.mpr hquiet,
      List.append_nil]

omit [DecidableEq κ] in
theorem not_bounds_of_visible {i : κ}
    {events : List (AtomicScripts.Event κ C O A R)}
    (h : ∀ seen ∈ events.filterMap visible, ¬ seen.Bounds i) :
    ∀ event ∈ events, ¬ event.Bounds i := by
  intro event hmem hbounds
  obtain ⟨seen, hseen, hsame⟩ := bounds_of_visible hbounds
  exact h seen (List.mem_filterMap.mpr ⟨event, hmem, hseen⟩) hsame

/-- Operations of a kind that no call in progress at a moment asks for, nor any
call that starts later, are not performed after it. -/
theorem Linearizes.not_performed {shared : S} {s : System κ C S R}
    {history : List (AtomicScripts.Event κ C O A R)}
    (h : Linearizes act script shared s history) {p : O → Prop} {q : C → Prop}
    (hasks : ∀ call, (script call).Asks p → q call)
    (front region back : List (AtomicScripts.Event κ C O A R))
    (hsplit : history = front ++ (region ++ back))
    (hpending : ∀ before i call after,
      front.filterMap visible = before ++ .called i call :: after →
        q call → ∃ reply, .returned i reply ∈ after)
    (hquiet : ∀ i call,
      .called i call ∈ region.filterMap visible → ¬ q call) :
    ∀ op ∈ AtomicScripts.performed region, ¬ p op := by
  intro op hop hp
  obtain ⟨i, answer, hmem⟩ := AtomicScripts.mem_performed.mp hop
  obtain ⟨early, late, rfl⟩ := List.append_of_mem hmem
  obtain ⟨call, next, before, since, hfront, hsince, hleaves⟩ :=
    h.owned (front ++ early) (late ++ back) i op answer (by simp [hsplit])
  have hq : q call := hasks call (hleaves.asks (Or.inl hp))
  have hearly : ∀ rest, early ≠ rest ++ .called i call :: since := by
    rintro rest rfl
    refine hquiet i call (List.mem_filterMap.mpr ⟨.called i call, ?_, rfl⟩) hq
    simp
  rcases List.append_eq_append_iff.mp hfront with
    ⟨rest, _, hrest⟩ | ⟨rest, hrest, hcalled⟩
  · exact hearly rest hrest
  · cases rest with
    | nil => exact hearly [] hcalled.symm
    | cons event rest =>
        obtain ⟨rfl, hsame⟩ := List.cons.inj hcalled
        obtain ⟨reply, hreply⟩ := hpending (before.filterMap visible) i call
          (rest.filterMap visible) (by rw [hrest, List.filterMap_append]; rfl) hq
        obtain ⟨event, hevent, hseen⟩ := List.mem_filterMap.mp hreply
        refine hsince event ?_ ?_
        · rw [hsame]
          exact List.mem_append_left _ hevent
        · rw [whole_of_visible hseen]
          exact rfl

/-! ## Calls in real time -/

/-- A call returned before another started, and no call of a kind was in
progress from the start of the first to the return of the second. -/
def Follows (q : C → Prop) (history : List (Event κ C R)) (call : C) (reply : R)
    (call' : C) (reply' : R) : Prop :=
  ∃ past i during between j during' future,
    history = past ++ .called i call :: (during ++ .returned i reply ::
      (between ++ .called j call' :: (during' ++ .returned j reply' :: future))) ∧
    (∀ event ∈ during, ¬ event.Bounds i) ∧
    (∀ event ∈ during', ¬ event.Bounds j) ∧
    (∀ before k other after, past = before ++ .called k other :: after →
      q other → ∃ reply, .returned k reply ∈ after) ∧
    ¬ q call ∧ ¬ q call' ∧
    ∀ k other, .called k other ∈ during ++ between ++ during' → ¬ q other

/-- The operations of the first call come before those of the second, with
operations of other kinds between them. -/
theorem Linearizes.answers_of_follows {shared : S} {s : System κ C S R}
    {history : List (AtomicScripts.Event κ C O A R)}
    (h : Linearizes act script shared s history) {p : O → Prop} {q : C → Prop}
    (hasks : ∀ call, (script call).Asks p → q call) {call call' : C}
    {reply reply' : R}
    (hfollows : Follows q s.history call reply call' reply') :
    ∃ trace trace', (script call).Leaves trace (.done reply) ∧
      (script call').Leaves trace' (.done reply') ∧
      ∀ op answer op' answer', ⟨op, answer⟩ ∈ trace → ⟨op', answer'⟩ ∈ trace' →
        ∃ before ops, (∀ op ∈ ops, ¬ p op) ∧ answer = (act before op).2 ∧
          answer' = (act (AtomicScripts.perform act (act before op).1 ops)
            op').2 := by
  obtain ⟨past, i, during, between, j, during', future, hhistory, hduring,
    hduring', hpending, hcall, hcall', hquiet⟩ := hfollows
  rw [← h.observed] at hhistory
  obtain ⟨front, rest₁, hsplit, rfl, hrest₁⟩ := split_of_visible hhistory
  obtain ⟨first, rest₂, rfl, rfl, hrest₂⟩ := split_of_visible hrest₁
  obtain ⟨middle, rest₃, rfl, rfl, hrest₃⟩ := split_of_visible hrest₂
  obtain ⟨second, back, rfl, rfl, _⟩ := split_of_visible hrest₃
  simp only [Event.whole] at hsplit
  have hfirst := h.complete front first _ i call reply hsplit
    (not_bounds_of_visible hduring)
  have hsplit' : history = (front ++ .called i call ::
      (first ++ .returned i reply :: middle)) ++ .called j call' ::
        (second ++ .returned j reply' :: back) := by
    rw [hsplit, List.append_assoc, List.cons_append, List.append_assoc,
      List.cons_append]
  have hsecond := h.complete _ second back j call' reply' hsplit'
    (not_bounds_of_visible hduring')
  have hnot := h.not_performed hasks front (.called i call ::
    (first ++ .returned i reply :: (middle ++ .called j call' :: second)))
    (.returned j reply' :: back) (by simp [hsplit]) hpending (by
      intro k other hmem
      simp only [List.filterMap_cons, List.filterMap_append, visible,
        List.mem_cons, List.mem_append, Event.called.injEq, reduceCtorEq,
        false_or] at hmem hquiet
      rcases hmem with ⟨_, rfl⟩ | hmem | hmem | ⟨_, rfl⟩ | hmem
      · exact hcall
      · exact hquiet k other (Or.inl (Or.inl hmem))
      · exact hquiet k other (Or.inl (Or.inr hmem))
      · exact hcall'
      · exact hquiet k other (Or.inr hmem))
  refine ⟨_, _, hfirst, hsecond, ?_⟩
  intro op answer op' answer' hop hop'
  obtain ⟨early, late, rfl⟩ :=
    List.append_of_mem (AtomicScripts.mem_of_mem_performedBy hop)
  obtain ⟨early', late', rfl⟩ :=
    List.append_of_mem (AtomicScripts.mem_of_mem_performedBy hop')
  have hanswer := h.answered (front ++ .called i call :: early)
    (late ++ .returned i reply :: (middle ++ .called j call' ::
      (early' ++ .performed j op' answer' :: late' ++ .returned j reply' ::
        back))) i op answer (by simp [hsplit])
  have hanswer' := h.answered (front ++ .called i call ::
    (early ++ .performed i op answer :: (late ++ .returned i reply ::
      (middle ++ .called j call' :: early'))))
    (late' ++ .returned j reply' :: back) j op' answer' (by simp [hsplit])
  refine ⟨_, AtomicScripts.performed (late ++ middle ++ early'), ?_, hanswer,
    ?_⟩
  · intro other hmem
    apply hnot
    simp only [AtomicScripts.performed_append, AtomicScripts.performed_called,
      AtomicScripts.performed_performed, AtomicScripts.performed_returned,
      List.mem_append, List.mem_cons] at hmem ⊢
    tauto
  · rw [hanswer']
    simp only [AtomicScripts.performed_append, AtomicScripts.performed_called,
      AtomicScripts.performed_performed, AtomicScripts.performed_returned,
      AtomicScripts.perform, List.foldl_append, List.foldl_cons]

end ReadersWriter
