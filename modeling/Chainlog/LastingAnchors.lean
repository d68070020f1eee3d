import Chainlog.Api
import Chainlog.FaultFree

/-!
# Heads as anchors

A head that was handed out, by a head call or in a signed checkpoint, cuts
every later state of the log in two valid pieces.
-/

namespace Chainlog

variable (crates : Crates)

/-- The log is valid up to the anchor and from the anchor on. -/
structure UsableAnchor (entries : List AuditEntry) (seq : UInt64)
    (hash : String) : Prop where
  upTo : (verifyEntries crates (entries.filter (·.seq ≤ seq))).isValid = true
  head : (verifyEntries crates (entries.filter (·.seq ≤ seq))).head =
    if seq = 0 then none else some (seq, hash)
  beyond : (verifyEntriesFrom crates (some { seq, hash })
    (entries.filter (seq < ·.seq))).isValid = true

variable {crates}

/-- In a chain from genesis the sequence number of a head separates the entries
before it from those behind. -/
theorem filter_seq_append {front back : List AuditEntry}
    (hchain : (entryChain crates).Follows (chainStart none) (front ++ back))
    (hlength : (front ++ back).length < 2 ^ 64) :
    (front ++ back).filter (·.seq ≤ (logHead front).1) = front ∧
      (front ++ back).filter ((logHead front).1 < ·.seq) = back := by
  have hbefore := hchain.of_prefix (List.prefix_append front back)
  have hshort : front.length < 2 ^ 64 := by
    rw [List.length_append] at hlength
    omega
  have hhead := toNat_logHead crates hbefore hshort
  have hfront : ∀ e ∈ front, e.seq ≤ (logHead front).1 := by
    intro e he
    obtain ⟨i, hi, rfl⟩ := List.getElem_of_mem he
    have hseq := toNat_seq_getElem crates hbefore hshort i hi
    rw [UInt64.le_iff_toNat_le]
    omega
  have hback : ∀ e ∈ back, (logHead front).1 < e.seq := by
    intro e he
    obtain ⟨i, hi, rfl⟩ := List.getElem_of_mem he
    have hseq := toNat_seq_getElem crates hchain hlength (front.length + i)
      (by rw [List.length_append]; omega)
    rw [List.getElem_append_right (by omega)] at hseq
    simp only [Nat.add_sub_cancel_left] at hseq
    rw [UInt64.lt_iff_toNat_lt]
    omega
  constructor
  · rw [List.filter_append, List.filter_eq_self.mpr, List.filter_eq_nil_iff.mpr,
      List.append_nil]
    · intro e he
      simpa using hback e he
    · intro e he
      simpa using hfront e he
  · rw [List.filter_append, List.filter_eq_nil_iff.mpr, List.filter_eq_self.mpr,
      List.nil_append]
    · intro e he
      simpa using hback e he
    · intro e he
      simpa using hfront e he

/-- The head of any front part of a chain is a usable anchor of the whole. -/
theorem usableAnchor_logHead {front back : List AuditEntry}
    (hchain : (entryChain crates).Follows (chainStart none) (front ++ back))
    (hlength : (front ++ back).length < 2 ^ 64) :
    UsableAnchor crates (front ++ back) (logHead front).1 (logHead front).2 := by
  obtain ⟨hfront, hback⟩ := filter_seq_append hchain hlength
  obtain ⟨hbefore, hafter⟩ :=
    (HashChain.Shape.follows_append _ _ front back).mp hchain
  constructor
  · rw [hfront]
    exact (verifyEntriesFrom_isValid crates none front).mpr hbefore
  · rw [hfront, verifyEntries, verifyEntriesFrom_eq]
    have hshort : front.length < 2 ^ 64 := by
      rw [List.length_append] at hlength
      omega
    have hseq := toNat_logHead crates hbefore hshort
    cases front using List.reverseRecOn with
    | nil => rfl
    | append_singleton entries e =>
        have hne : e.seq ≠ 0 := by
          rintro hzero
          rw [logHead_snoc, hzero, List.length_append] at hseq
          simp at hseq
        rw [logHead_snoc, lastHead_snoc, if_neg hne]
  · rw [hback, verifyEntriesFrom_isValid]
    rw [finish_chainStart] at hafter
    exact hafter

/-! ## Runs with restarts -/

/-- What happens at a log: a command is served, the server signs a checkpoint,
or the process restarts. -/
inductive LogEvent where
  | served (cmd : Cmd) (reply : Reply)
  | signed (cp : Checkpoint)
  | restarted

/-- The event hands out the head. -/
def LogEvent.HandsOut (seq : UInt64) (hash : String) : LogEvent → Prop
  | served _ reply => reply = .head (seq, hash)
  | signed cp => cp.seq = seq ∧ cp.headHash = hash
  | restarted => False

section Runs

variable {σ : Type} [Store σ] (crates) (signing : SigningCrates)
  (view : σ → List AuditEntry)

inductive LogStep (writer : WriterState σ) :
    LogEvent → WriterState σ → Prop
  | served {cmd : Cmd} {reply : Reply} {next : WriterState σ}
      (serve : Serve crates view writer cmd reply next) :
      LogStep writer (.served cmd reply) next
  | signed {st : ApiState σ signing} {headers : HeaderMap} {now : Int64}
      {cp : Checkpoint} (log : st.log = writer)
      (answer : st.checkpoint headers now = .ok cp) :
      LogStep writer (.signed cp) writer
  /-- The store is opened again: it has the same entries, and its tail is the
  last of them. -/
  | restarted {store : σ} {next : WriterState σ}
      (same : view store = view writer.store)
      (tail : Store.tail store = .ok (lastHead (view store)))
      (build : Builder.build { store := some store, hasProvider := true } =
        .ok next) :
      LogStep writer .restarted next

inductive LogRun (writer : WriterState σ) :
    List LogEvent → WriterState σ → Prop
  | start : LogRun writer [] writer
  | step {trace : List LogEvent} {before after : WriterState σ}
      {event : LogEvent} (past : LogRun writer trace before)
      (step : LogStep crates signing view before event after) :
      LogRun writer (trace ++ [event]) after

variable {crates signing view}

/-- An event keeps the writer at the head, adds to the log only, and hands out
no other head than the writer's. -/
theorem AtHead.logStep {writer next : WriterState σ} {event : LogEvent}
    (h : AtHead crates view writer)
    (hstep : LogStep crates signing view writer event next) :
    AtHead crates view next ∧
      (∃ new, view next.store = view writer.store ++ new) ∧
      ∀ seq hash, event.HandsOut seq hash →
        (seq, hash) = logHead (view writer.store) := by
  cases hstep with
  | served serve =>
      obtain ⟨hnext, new, hview, _⟩ := h.serve serve
      refine ⟨hnext, ⟨new, hview⟩, fun seq hash hhands => ?_⟩
      have hreply : _ = Reply.head (seq, hash) := hhands
      rw [hreply] at serve
      rw [serve.head_eq, h.head]
  | @signed st headers now cp hlog hanswer =>
      refine ⟨h, ⟨[], by simp⟩, fun seq hash hhands => ?_⟩
      unfold ApiState.checkpoint at hanswer
      obtain ⟨_, _, hanswer⟩ := bind_eq_ok.mp hanswer
      obtain ⟨signer, _, hanswer⟩ := bind_eq_ok.mp hanswer
      obtain rfl := Except.ok.inj hanswer
      obtain ⟨rfl, rfl⟩ := hhands
      rw [← h.head, ← hlog]
      rfl
  | @restarted store next same tail build =>
      rw [build_eq tail] at build
      obtain rfl := Except.ok.inj build
      refine ⟨⟨?_, rfl⟩, ⟨[], by simpa using same⟩, fun _ _ hhands => ?_⟩
      · show (entryChain crates).Follows (chainStart none) (view store)
        rw [same]
        exact h.chain
      · exact absurd hhands id

theorem AtHead.logRun {writer last : WriterState σ} {trace : List LogEvent}
    (h : AtHead crates view writer)
    (hrun : LogRun crates signing view writer trace last) :
    AtHead crates view last ∧
      ∃ new, view last.store = view writer.store ++ new := by
  induction hrun with
  | start => exact ⟨h, [], by simp⟩
  | step _ step ih =>
      obtain ⟨hbefore, new, hview⟩ := ih
      obtain ⟨hafter, ⟨new', hview'⟩, _⟩ := hbefore.logStep step
      exact ⟨hafter, new ++ new', by rw [hview', hview, List.append_assoc]⟩

/-- A head that was handed out is that of a front part of the log. -/
theorem AtHead.front_of_handsOut {writer last : WriterState σ}
    {trace : List LogEvent} (h : AtHead crates view writer)
    (hrun : LogRun crates signing view writer trace last)
    {event : LogEvent} (hevent : event ∈ trace) {seq : UInt64} {hash : String}
    (hhands : event.HandsOut seq hash) :
    ∃ front back, view last.store = front ++ back ∧
      (seq, hash) = logHead front := by
  induction hrun with
  | start => cases hevent
  | @step trace before after event' past step ih =>
      obtain ⟨hbefore, _⟩ := h.logRun past
      obtain ⟨_, ⟨new, hview⟩, hheads⟩ := hbefore.logStep step
      rcases List.mem_append.mp hevent with hpast | hlast
      · obtain ⟨front, back, hsplit, hhead⟩ := ih hpast
        exact ⟨front, back ++ new, by rw [hview, hsplit, List.append_assoc],
          hhead⟩
      · obtain rfl := List.mem_singleton.mp hlast
        exact ⟨view before.store, new, hview, hheads seq hash hhands⟩

theorem AtHead.usableAnchor {writer last : WriterState σ}
    {trace : List LogEvent} (h : AtHead crates view writer)
    (hrun : LogRun crates signing view writer trace last)
    (hlength : (view last.store).length < 2 ^ 64) {event : LogEvent}
    (hevent : event ∈ trace) {seq : UInt64} {hash : String}
    (hhands : event.HandsOut seq hash) :
    UsableAnchor crates (view last.store) seq hash := by
  obtain ⟨front, back, hsplit, hhead⟩ :=
    h.front_of_handsOut hrun hevent hhands
  have hchain := (h.logRun hrun).1.chain
  rw [hsplit] at hchain hlength ⊢
  have husable := usableAnchor_logHead hchain hlength
  rw [← hhead] at husable
  exact husable

end Runs

/-! ## Stores on disk -/

section Disk

theorem Engine.acked_prefix_run {s t : Engine} {allow : Engine → Op → Prop}
    (hrun : Runs crates allow s t) : s.acked <+: t.acked := by
  induction hrun with
  | refl => exact List.prefix_rfl
  | tail _ hstep ih =>
      obtain ⟨op, _, hstep⟩ := hstep
      exact ih.trans (acked_prefix_step crates hstep)

/-- The head of a log on disk is an anchor of what is later on disk. -/
theorem Engine.usableAnchor_head {mode : Mode} {s t u : Engine}
    (hstart : start crates mode .missing = .ok s)
    (hbefore : Runs crates FaultFree s t) (hafter : Runs crates FaultFree t u)
    (hparse : ∀ e ∈ u.acked, ParsesBack crates e)
    (hlength : u.acked.length + 1 < 2 ^ 64) :
    readStored crates u.writer.store.isSegmented u.writer.store.disk =
        .ok u.acked ∧
      UsableAnchor crates u.acked t.writer.head.1 t.writer.head.2 := by
  have hinit := acked_prefix_run hafter
  have hthen := holds_of_run hstart hbefore
    (fun e he => hparse e (hinit.subset he))
    (lt_of_le_of_lt (Nat.succ_le_succ hinit.length_le) hlength)
  have hnow := holds_of_run hstart (hbefore.trans hafter) hparse hlength
  have hchain := hnow.chain
  have hshort := hnow.length
  refine ⟨hnow.read, ?_⟩
  obtain ⟨back, hback⟩ := hinit
  rw [← hback] at hchain hshort ⊢
  rw [hthen.head_eq]
  exact usableAnchor_logHead hchain hshort

end Disk

/-- A head that was ever handed out stays a usable anchor of the log, whatever
store holds it; on disk too, over restarts that read the files again. -/
theorem heads_stay_anchors (crates : Crates) (signing : SigningCrates) :
    (∀ (σ : Type) [Store σ] (view : σ → List AuditEntry) (store : σ)
        (writer last : WriterState σ) (trace : List LogEvent),
      Store.tail store = .ok (lastHead (view store)) →
      (verifyEntries crates (view store)).isValid = true →
      Builder.build { store := some store, hasProvider := true } = .ok writer →
      LogRun crates signing view writer trace last →
      (view last.store).length < 2 ^ 64 →
        ∀ event ∈ trace, ∀ seq hash, event.HandsOut seq hash →
          UsableAnchor crates (view last.store) seq hash) ∧
    ∀ (mode : Mode) (s t u : Engine),
      Engine.start crates mode .missing = .ok s →
      Engine.Runs crates Engine.FaultFree s t →
      Engine.Runs crates Engine.FaultFree t u →
      (∀ e ∈ u.acked, ParsesBack crates e) → u.acked.length + 1 < 2 ^ 64 →
        readStored crates u.writer.store.isSegmented u.writer.store.disk =
            .ok u.acked ∧
          UsableAnchor crates u.acked t.writer.head.1 t.writer.head.2 := by
  constructor
  · intro σ _ view store writer last trace htail hvalid hbuild hrun hlength
      event hevent seq hash hhands
    rw [build_eq htail] at hbuild
    obtain rfl := Except.ok.inj hbuild
    have hstart : AtHead crates view
        { store, seq := ((lastHead (view store)).getD (0, genesisPrevHash)).1
          prevHash := ((lastHead (view store)).getD (0, genesisPrevHash)).2 } :=
      ⟨(verifyEntriesFrom_isValid crates none _).mp hvalid, rfl⟩
    exact hstart.usableAnchor hrun hlength hevent hhands
  · intro mode s t u hstart hbefore hafter hparse hlength
    exact Engine.usableAnchor_head hstart hbefore hafter hparse hlength

/-- The head between two logins is an anchor after the restart. -/
theorem heads_stay_anchors_logins :
    ∃ (last : WriterState MemoryStore) (hash : String),
      last.store.entries.length = 2 ∧
        UsableAnchor referenceCrates last.store.entries 1 hash := by
  let writer : WriterState MemoryStore :=
    { store := { entries := [] }, seq := 0, prevHash := genesisPrevHash }
  let one := (writer.process referenceCrates (loginCall .synced) alice).1
  let two := (one.process referenceCrates (loginCall .synced) alice).1
  have hfirst : LogStep referenceCrates referenceSigning MemoryStore.entries
      writer (.served (.write alice) (.receipt
        (writer.process referenceCrates (loginCall .synced) alice).2)) one :=
    .served (.write writer alice (loginCall .synced) fun _ _ => rfl)
  have hhead : LogStep referenceCrates referenceSigning MemoryStore.entries
      one (.served .head (.head one.head)) one := .served (.head one)
  have hsecond : LogStep referenceCrates referenceSigning MemoryStore.entries
      one (.served (.write alice) (.receipt
        (one.process referenceCrates (loginCall .synced) alice).2)) two :=
    .served (.write one alice (loginCall .synced) fun _ _ => rfl)
  have hrestart : LogStep referenceCrates referenceSigning MemoryStore.entries
      two .restarted two := .restarted rfl rfl rfl
  refine ⟨two, one.prevHash, rfl, ?_⟩
  exact (heads_stay_anchors referenceCrates referenceSigning).1 MemoryStore
    MemoryStore.entries { entries := [] } writer two _ rfl rfl rfl
    ((((LogRun.start.step hfirst).step hhead).step hsecond).step hrestart)
    (by show 2 < 2 ^ 64; decide) (.served .head (.head one.head)) (by simp) 1
    one.prevHash rfl

end Chainlog
