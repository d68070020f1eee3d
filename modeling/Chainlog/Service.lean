import Chainlog.FaultFree
import Chainlog.Server

/-!
# The running server

What a server does to its log: each accepted `POST /v1/records` is one record
call of the engine, a refused one changes nothing, and a restart reopens the
log.  The other handlers only read.
-/

namespace Chainlog

variable (crates : Crates) (axum : Axum)

structure Tokens where
  write : String
  read : String

inductive ServerOp where
  | post (request : HttpRequest) (call : Call)
  | restart (mode : Mode)

namespace Engine

/-- The handlers' state over the engine's writer. -/
def app (s : Engine) (tokens : Tokens) : AppState LogStore where
  log := s.writer
  segmented := s.writer.store.isSegmented
  writeToken := tokens.write
  readToken := tokens.read

@[simp] theorem app_log (s : Engine) (tokens : Tokens) :
    (s.app tokens).log = s.writer := rfl

/-- The engine's step, if the server takes one. -/
def request (tokens : Tokens) (s : Engine) : ServerOp → Option Op
  | .post request call =>
      match (s.app tokens).acceptRecord axum request with
      | .ok record => some (.record record call)
      | .error _ => none
  | .restart mode => some (.reopen mode)

def serve (tokens : Tokens) (s : Engine) (op : ServerOp) : Result Engine :=
  match s.request axum tokens op with
  | some op => s.step crates op
  | none => .ok s

variable {axum} in
theorem serve_of_accepted {tokens : Tokens} {s : Engine} {request : HttpRequest}
    {call : Call} {record : Record}
    (h : (s.app tokens).acceptRecord axum request = .ok record) :
    s.serve crates axum tokens (.post request call) =
      .ok (s.record crates record call) := by
  simp only [serve, Engine.request, h, step]

/-- One server step whose engine step is allowed. -/
def Serves (tokens : Tokens) (allow : Engine → Op → Prop) (s t : Engine) :
    Prop :=
  ∃ op, (∀ engineOp, s.request axum tokens op = some engineOp →
      allow s engineOp) ∧
    s.serve crates axum tokens op = .ok t

/-- A run of the server is a run of its engine. -/
theorem runs_of_serves {tokens : Tokens} {allow : Engine → Op → Prop}
    {s t : Engine}
    (hrun : Relation.ReflTransGen (Serves crates axum tokens allow) s t) :
    Runs crates allow s t := by
  induction hrun with
  | refl => exact .refl
  | @tail u v _ hstep ih =>
      obtain ⟨op, hallow, hserve⟩ := hstep
      cases hop : u.request axum tokens op with
      | none =>
          rw [serve, hop] at hserve
          obtain rfl := Except.ok.inj hserve
          exact ih
      | some engineOp =>
          rw [serve, hop] at hserve
          exact ih.tail ⟨engineOp, hallow engineOp hop, hserve⟩

/-- The append handler answers 201 with the receipt of the entry that it adds,
or answers an error and adds none. -/
theorem append_eq_serve {tokens : Tokens} {s t : Engine} {request : HttpRequest}
    {call : Call}
    (h : s.serve crates axum tokens (.post request call) = .ok t) :
    ((s.app tokens).append crates axum request call).1 = t.app tokens ∧
      ((∃ entry, ((s.app tokens).append crates axum request call).2 =
            .ok (.created, entry.receipt) ∧ t.acked = s.acked ++ [entry]) ∨
        ∃ err, ((s.app tokens).append crates axum request call).2 =
            .error err ∧ t.acked = s.acked) := by
  cases haccept : (s.app tokens).acceptRecord axum request with
  | error err =>
      simp only [serve, Engine.request, haccept, Except.ok.injEq] at h
      subst t
      simp [AppState.append, haccept]
  | ok record =>
      simp only [serve, Engine.request, haccept, step, Except.ok.injEq] at h
      subst t
      have hkind := s.writer.isSegmented_process crates call record
      have hanswer := AppState.append_of_accepted crates haccept call
      rw [app_log] at hanswer
      rcases s.writer.process_cases crates call record with
        ⟨err, _, hprocess⟩ | ⟨_, _, err, _, _, hprocess⟩ |
          ⟨entry, _, hnext, _, hprocess⟩
      · rw [hanswer, hprocess]
        refine ⟨?_, Or.inr ⟨ApiError.ofCore err, rfl, ?_⟩⟩
        · simp [app, Engine.record, hprocess]
        · simp [Engine.record, hprocess, Except.isOk, Except.toBool]
      · rw [hprocess] at hkind
        rw [hanswer, hprocess]
        refine ⟨?_, Or.inr ⟨ApiError.ofCore err, rfl, ?_⟩⟩
        · simp [app, Engine.record, hprocess, hkind]
        · simp [Engine.record, hprocess, Except.isOk, Except.toBool]
      · rw [hprocess] at hkind
        rw [hanswer, hprocess]
        refine ⟨?_, Or.inl ⟨entry, rfl, ?_⟩⟩
        · simp [app, Engine.record, hprocess, hkind]
        · simp [Engine.record, hprocess, hnext, Except.isOk, Except.toBool,
            Except.toOption]

end Engine

end Chainlog
