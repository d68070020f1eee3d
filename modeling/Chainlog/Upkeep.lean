import Chainlog.RetainedFiles

/-!
# Logs that are pruned

A log in segments is appended to, reopened and pruned, in any order.  Pruning
works on the directory of a store, which may be open.  `Retains` says what holds
of the engine: the files hold the acknowledged entries but for those that were
pruned, and the writer is at the head of them all.
-/

namespace Chainlog

variable (crates : Crates)

/-- `prune_before` on the directory of a store. -/
def LogStore.prune (boundarySeq : UInt64) (removals : List (Option String)) :
    LogStore → LogStore × Result (Option Anchor)
  | .file store => (.file store, .error (.io "Not a directory (os error 20)"))
  | .segmented store =>
      let (dir, result) := pruneBefore crates store.dir boundarySeq removals
      (.segmented { store with dir }, result)

/-- A step of a log that is appended to, reopened and pruned. -/
inductive Upkeep where
  | log (op : Op)
  | prune (boundarySeq : UInt64) (removals : List (Option String))

/-- Pruning at the boundary leaves an entry: the newest segment holds one, or
starts behind the boundary, or is the only one. -/
def Dir.Spares (dir : Dir) (boundarySeq : UInt64) : Prop :=
  ∀ front last, listSegments dir = front ++ [last] →
    front = [] ∨ boundarySeq < last.first ∨ readFile crates last.node ≠ .ok []

namespace Engine

def prune (s : Engine) (boundarySeq : UInt64)
    (removals : List (Option String)) : Engine :=
  let store := (s.writer.store.prune crates boundarySeq removals).1
  { s with writer := { s.writer with store } }

def upkeep (s : Engine) : Upkeep → Result Engine
  | .log op => s.step crates op
  | .prune boundarySeq removals => .ok (s.prune crates boundarySeq removals)

/-- Runs of allowed upkeep. -/
abbrev Maintained (allow : Engine → Upkeep → Prop) : Engine → Engine → Prop :=
  Relation.ReflTransGen fun s t =>
    ∃ step, allow s step ∧ s.upkeep crates step = .ok t

/-- Every file operation of the step succeeds. -/
def Steady (s : Engine) : Upkeep → Prop
  | .log op => s.FaultFree op
  | .prune _ removals => ∀ removal ∈ removals, removal = none

/-- An append succeeds or leaves no byte of its line, and pruning leaves an
entry. -/
def Orderly (s : Engine) : Upkeep → Prop
  | .log (.record record call) => call.io = .ok ∨ ∀ entry,
      s.writer.nextEntry crates call record = .ok entry →
        s.writer.store.written crates entry call.io = []
  | .log (.reopen mode) => s.writer.store.Admits mode
  | .prune boundarySeq _ => ∀ store, s.writer.store = .segmented store →
      store.dir.Spares crates boundarySeq

/-- The files hold the acknowledged entries but for those that are gone, and the
writer is at the head of them all. -/
structure Retains (s : Engine) (j : Journal) (gone : List AuditEntry)
    (groups : List (List AuditEntry)) (current : List AuditEntry) : Prop where
  represents : s.writer.store.Represents j
  divides : j.Divides crates gone groups current
  acked : s.acked = gone ++ (groups.flatten ++ current)
  head : s.writer.head = logHead s.acked
  length : s.acked.length + 1 < 2 ^ 64
  kept : gone = [] ∨ groups.flatten ++ current ≠ []

variable {crates}

theorem retains_of_start {mode : Mode} {s : Engine}
    (hstart : start crates mode .missing = .ok s) :
    s.Retains crates (Journal.fresh mode) [] [] [] := by
  obtain ⟨hsound, _, hacked, _, hhead⟩ := start_missing crates hstart
  exact {
    represents := hsound.represents
    divides := .fresh mode
    acked := hacked
    head := by rw [hhead, hacked]
    length := by rw [hacked]; decide
    kept := Or.inl rfl }

namespace Retains

variable {s : Engine} {j : Journal} {gone current : List AuditEntry}
  {groups : List (List AuditEntry)}

theorem chain (h : s.Retains crates j gone groups current) :
    (entryChain crates).Follows (chainStart none) s.acked := by
  rw [h.acked]
  exact h.divides.chain

theorem seq_eq (h : s.Retains crates j gone groups current) {record : Record}
    {call : Call} {entry : AuditEntry}
    (hnext : s.writer.nextEntry crates call record = .ok entry) :
    entry.seq =
      (chainStart (anchorAfter (gone ++ (groups.flatten ++ current)))).1 := by
  have hwriter : s.writer.seq = (logHead s.acked).1 := by
    rw [← h.head]
    rfl
  rw [(s.writer.nextEntry_spec crates hnext).1, hwriter, ← h.acked,
    chainStart_anchorAfter crates, finish_chainStart]

theorem current_ne_nil (h : s.Retains crates j gone groups current)
    (hfull : j.full = true) : current ≠ [] := by
  have hpos := h.represents.count_pos_of_full hfull
  rw [h.divides.count] at hpos
  exact List.length_pos_iff.mp hpos

theorem first_lt (h : s.Retains crates j gone groups current) {record : Record}
    {call : Call} {entry : AuditEntry}
    (hnext : s.writer.nextEntry crates call record = .ok entry)
    (hfull : j.full = true) : j.first < entry.seq := by
  have hlength := h.length
  have hpos := List.length_pos_iff.mpr (h.current_ne_nil hfull)
  have hopen := (Journal.Divides.divided_iff h.divides.length_closed).mp
    h.divides.divided
  have hchain := h.chain
  rw [h.acked] at hchain hlength
  rw [List.length_append, List.length_append] at hlength
  have hfirst := toNat_chainStart_anchorAfter h.divides.chain_groups
    (by rw [List.length_append]; omega)
  have hseq := toNat_chainStart_anchorAfter hchain
    (by rw [List.length_append, List.length_append]; omega)
  rw [← hopen.2.1, List.length_append] at hfirst
  rw [← h.seq_eq hnext, List.length_append, List.length_append] at hseq
  rw [UInt64.lt_iff_toNat_lt]
  omega

theorem record_done (h : s.Retains crates j gone groups current)
    {record : Record} {call : Call} {entry : AuditEntry}
    (hnext : s.writer.nextEntry crates call record = .ok entry)
    (hio : call.io = .ok)
    (hparse : ∀ e ∈ (s.record crates record call).acked, ParsesBack crates e)
    (hlength : (s.record crates record call).acked.length + 1 < 2 ^ 64) :
    ∃ j' groups' current',
      (s.record crates record call).Retains crates j' gone groups'
          (current' ++ [entry]) ∧
        (s.record crates record call).acked = s.acked ++ [entry] := by
  obtain ⟨hstore, hrecorded⟩ :=
    recorded crates h.represents hnext (h.first_lt hnext)
  obtain ⟨groups', current', hopened, hentries⟩ :=
    h.divides.opened h.current_ne_nil (h.seq_eq hnext)
  have hjournal := j.append_ok crates entry
  rw [← hio] at hjournal
  rw [hjournal] at hstore
  cases hrecorded with
  | failed err reported => simp [hjournal] at reported
  | done reported head replies acked stale =>
      have hchain := follows_snoc_nextEntry crates h.chain h.head hnext
      have hentry : ParsesBack crates entry :=
        hparse entry (by rw [acked]; simp)
      rw [h.acked, ← hentries] at hchain
      refine ⟨(j.opened entry).extend (entryLine crates entry) 1, groups',
        current', ?_, acked⟩
      exact {
        represents := hstore
        divides := hopened.extend hentry hchain
        acked := by
          rw [acked, h.acked, ← hentries]
          simp only [List.append_assoc]
        head := by rw [head, acked, logHead_snoc]
        length := hlength
        kept := Or.inr (by simp) }

/-- A record call that leaves no byte of its line only opens the next file. -/
theorem record_unwritten (h : s.Retains crates j gone groups current)
    {record : Record} {call : Call} {entry : AuditEntry}
    (hnext : s.writer.nextEntry crates call record = .ok entry)
    (hwritten : s.writer.store.written crates entry call.io = [])
    (hlength : (s.record crates record call).acked.length + 1 < 2 ^ 64) :
    ∃ j' groups' current',
      (s.record crates record call).Retains crates j' gone groups' current' ∧
        (s.record crates record call).acked = s.acked := by
  obtain ⟨hstore, hrecorded⟩ :=
    recorded crates h.represents hnext (h.first_lt hnext)
  obtain ⟨groups', current', hopened, hentries⟩ :=
    h.divides.opened h.current_ne_nil (h.seq_eq hnext)
  rw [h.represents.written_eq] at hwritten
  rcases j.append_cases crates entry call.io with
    ⟨reason, heq, _⟩ | ⟨heq, hline⟩
  · rw [heq] at hstore
    cases hrecorded with
    | done reported => simp [heq] at reported
    | failed err reported head replies acked stale =>
        refine ⟨j, groups, current, ?_, acked⟩
        exact { h with
          represents := hstore
          acked := acked.trans h.acked
          head := by rw [head, acked, h.head]
          length := hlength }
  · rw [heq, hwritten] at hstore
    cases hrecorded with
    | done reported =>
        rw [heq] at reported
        rw [hwritten, WriteOutcome.eq_synced_of_ok reported] at hline
        simp [WriteOutcome.written, entryLine] at hline
    | failed err reported head replies acked stale =>
        rw [heq] at reported
        rw [WriteOutcome.counted_of_error reported,
          Journal.extend_nil] at hstore
        refine ⟨j.opened entry, groups', current', ?_, acked⟩
        exact {
          represents := hstore
          divides := hopened
          acked := by rw [acked, h.acked, hentries]
          head := by rw [head, acked, h.head]
          length := hlength
          kept := hentries ▸ h.kept }

/-- Recording adds what it acknowledges, or only opens the next file.  Without
faults the open file is not left empty. -/
theorem record (h : s.Retains crates j gone groups current) {record : Record}
    {call : Call}
    (hcall : call.io = .ok ∨ ∀ entry,
      s.writer.nextEntry crates call record = .ok entry →
        s.writer.store.written crates entry call.io = [])
    (hparse : ∀ e ∈ (s.record crates record call).acked, ParsesBack crates e)
    (hlength : (s.record crates record call).acked.length + 1 < 2 ^ 64) :
    ∃ j' groups' current' new,
      (s.record crates record call).Retains crates j' gone groups' current' ∧
        (s.record crates record call).acked = s.acked ++ new ∧
        (call.io = .ok → groups = [] ∨ current ≠ [] →
          groups' = [] ∨ current' ≠ []) := by
  cases hnext : s.writer.nextEntry crates call record with
  | error err =>
      rw [record_of_error crates hnext]
      exact ⟨j, groups, current, [], { h with }, by simp, fun _ h => h⟩
  | ok entry =>
      by_cases hio : call.io = .ok
      · obtain ⟨j', groups', current', hretains, hacked⟩ :=
          h.record_done hnext hio hparse hlength
        exact ⟨j', groups', current' ++ [entry], [entry], hretains, hacked,
          fun _ _ => Or.inr (by simp)⟩
      · obtain ⟨j', groups', current', hretains, hacked⟩ :=
          h.record_unwritten hnext ((hcall.resolve_left hio) entry hnext) hlength
        exact ⟨j', groups', current', [], hretains, by simpa using hacked,
          fun hok => absurd hok hio⟩

theorem restart (h : s.Retains crates j gone groups current) {mode : Mode}
    (hadmits : s.writer.store.Admits mode) :
    ∃ store, LogStore.openPath crates mode s.writer.store.disk = .ok store ∧
      store.Represents (j.resume mode current.length) ∧
      Store.tail store = .ok (lastHead (groups.flatten ++ current)) ∧
      start crates mode s.writer.store.disk = .ok
        { writer := { store, seq := (logHead s.acked).1
                      prevHash := (logHead s.acked).2 }
          replies := [], acked := [], stale := false } := by
  obtain ⟨store, tail, hopen, hrep, _, htail, _, hlast⟩ :=
    h.represents.openPath_ok hadmits h.divides.current
  obtain rfl := hlast _ (readNodes_of_forall₂ h.divides.closed)
  have hhead : logHead (groups.flatten ++ current) = logHead s.acked := by
    rw [h.acked]
    rcases h.kept with rfl | hkept
    · rfl
    · exact (logHead_append hkept).symm
  refine ⟨store, hopen, hrep, htail, ?_⟩
  rw [start_eq crates hopen htail, ← hhead]
  rfl

theorem reopen (h : s.Retains crates j gone groups current) {mode : Mode}
    (hadmits : s.writer.store.Admits mode) :
    ∃ t, s.reopen crates mode = .ok t ∧ t.acked = s.acked ∧
      t.Retains crates (j.resume mode current.length) gone groups current := by
  obtain ⟨store, _, hrep, _, hstart⟩ := h.restart hadmits
  let t : Engine :=
    { writer := { store, seq := (logHead s.acked).1
                  prevHash := (logHead s.acked).2 }
      replies := s.replies, acked := s.acked, stale := false }
  refine ⟨t, by rw [Engine.reopen, hstart]; rfl, rfl, ?_⟩
  exact {
    represents := hrep
    divides := h.divides.resume mode
    acked := h.acked
    head := rfl
    length := h.length
    kept := h.kept }

theorem sorted (h : s.Retains crates j gone groups current)
    {store : SegmentedStore} (hstore : s.writer.store = .segmented store) :
    store.dir = segmentDir j.files ∧
      (j.files.map Prod.fst).Pairwise (· < ·) := by
  have hrep := h.represents
  rw [hstore] at hrep
  cases hrep with
  | segmented _ _ dir file first count limit pos sorted => exact ⟨dir, sorted⟩

theorem readStored (h : s.Retains crates j gone groups current)
    {store : SegmentedStore} (hstore : s.writer.store = .segmented store) :
    readSegments crates (listSegments store.dir) =
      .ok (groups.flatten ++ current) := by
  obtain ⟨hdir, hsorted⟩ := h.sorted hstore
  rw [hdir]
  exact h.divides.readSegments hsorted

/-- Pruning leaves an entry unless it takes every file before an empty one. -/
theorem spares_iff (h : s.Retains crates j gone groups current)
    {store : SegmentedStore} (hstore : s.writer.store = .segmented store)
    {boundarySeq : UInt64} :
    store.dir.Spares crates boundarySeq ↔
      groups = [] ∨ boundarySeq < j.first ∨ current ≠ [] := by
  have hrep := h.represents
  rw [hstore] at hrep
  cases hrep with
  | segmented _ _ dir file first count limit pos sorted =>
      have hlist := listSegments_segmentDir sorted
      unfold Journal.files at hlist
      rw [List.map_append] at hlist
      have hread : readFile crates (.readable j.content) = .ok current :=
        h.divides.current
      have hclosed : j.closed = [] ↔ groups = [] := by
        rw [← List.length_eq_zero_iff, h.divides.length_closed,
          List.length_eq_zero_iff]
      unfold Dir.Spares
      rw [dir, Journal.files, hlist, ← hclosed]
      constructor
      · intro hspares
        rcases hspares _ _ rfl with hnil | hbehind | hne
        · exact Or.inl (List.map_eq_nil_iff.mp hnil)
        · exact Or.inr (Or.inl hbehind)
        · refine Or.inr (Or.inr fun hnil => hne ?_)
          rw [hread, hnil]
      · intro hspares front last heq
        obtain ⟨hfront, hlast⟩ := List.append_inj' heq rfl
        obtain rfl := (List.singleton_inj.mp hlast).symm
        rw [← hfront]
        rcases hspares with hnil | hbehind | hne
        · exact Or.inl (List.map_eq_nil_iff.mpr hnil)
        · exact Or.inr (Or.inl hbehind)
        · refine Or.inr (Or.inr fun hnil => hne ?_)
          exact Except.ok.inj (hread.symm.trans hnil)

theorem pruned (h : s.Retains crates j gone groups current)
    {store : SegmentedStore} (hstore : s.writer.store = .segmented store)
    {boundarySeq : UInt64} {removals : List (Option String)} {k : ℕ}
    (hk : k ≤ groups.length)
    (hdir : (pruneBefore crates store.dir boundarySeq removals).1 =
      segmentDir (j.drop k).files)
    (hkept : gone ++ (groups.take k).flatten = [] ∨
      (groups.drop k).flatten ++ current ≠ []) :
    (s.prune crates boundarySeq removals).Retains crates (j.drop k)
      (gone ++ (groups.take k).flatten) (groups.drop k) current where
  represents := by
    unfold Engine.prune
    simp only [hstore, LogStore.prune]
    rw [hdir]
    exact (hstore ▸ h.represents).drop (h.divides.length_closed ▸ hk)
  divides := h.divides.drop hk
  acked := by
    have hacked := h.acked
    rw [← List.take_append_drop k groups, List.flatten_append] at hacked
    rw [List.append_assoc, ← List.append_assoc _ _ current]
    exact hacked
  head := h.head
  length := h.length
  kept := hkept

theorem kept_of_left (h : s.Retains crates j gone groups current) {k : ℕ}
    (hleft : k = 0 ∨ (groups.drop k).flatten ++ current ≠ []) :
    gone ++ (groups.take k).flatten = [] ∨
      (groups.drop k).flatten ++ current ≠ [] := by
  rcases hleft with rfl | hne
  · simpa using h.kept
  · exact Or.inr hne

/-- Pruning takes files whose entries are below the boundary; where it leaves an
entry, the log goes on. -/
theorem prune (h : s.Retains crates j gone groups current)
    {boundarySeq : UInt64} (removals : List (Option String))
    (hspares : ∀ store, s.writer.store = .segmented store →
      store.dir.Spares crates boundarySeq) :
    ∃ k, k ≤ groups.length ∧
      (s.prune crates boundarySeq removals).Retains crates (j.drop k)
        (gone ++ (groups.take k).flatten) (groups.drop k) current := by
  cases hstore : s.writer.store with
  | file store =>
      refine ⟨0, Nat.zero_le _, ?_⟩
      have hsame : s.prune crates boundarySeq removals = s := by
        unfold Engine.prune
        simp only [hstore, LogStore.prune]
        rw [← hstore]
      rw [hsame, List.take_zero, List.flatten_nil, List.append_nil]
      exact h
  | segmented store =>
      have hspare := (h.spares_iff hstore).mp (hspares store hstore)
      have hrep := h.represents
      rw [hstore] at hrep
      cases hrep with
      | segmented _ _ dir file first count limit pos sorted =>
          obtain ⟨k, hk, hdir, _, hall, _, _⟩ := h.divides.pruneBefore sorted
            (h.acked ▸ h.length) boundarySeq removals
          refine ⟨k, hk, h.pruned hstore hk (by rw [dir]; exact hdir) ?_⟩
          exact h.kept_of_left (h.divides.left_of_spare hk hall hspare)

/-! ## Runs -/

theorem op (h : s.Retains crates j gone groups current) {op : Op} {t : Engine}
    (hop : s.Orderly crates (.log op)) (hstep : s.step crates op = .ok t)
    (hparse : ∀ e ∈ t.acked, ParsesBack crates e)
    (hlength : t.acked.length + 1 < 2 ^ 64) :
    ∃ j' groups' current' new, t.Retains crates j' gone groups' current' ∧
      t.acked = s.acked ++ new ∧
      (s.FaultFree op → groups = [] ∨ current ≠ [] →
        groups' = [] ∨ current' ≠ []) := by
  cases op with
  | record record call =>
      obtain rfl := Except.ok.inj hstep
      exact h.record hop hparse hlength
  | reopen mode =>
      obtain ⟨u, hu, hacked, hretains⟩ := h.reopen hop
      obtain rfl : u = t := Except.ok.inj (hu.symm.trans hstep)
      exact ⟨_, groups, current, [], hretains, by simpa using hacked,
        fun _ h => h⟩

theorem orderly_of_faultFree {op : Op} (hop : s.FaultFree op) :
    s.Orderly crates (.log op) := by
  cases op with
  | record record call => exact Or.inl hop
  | reopen mode => exact hop

theorem runs (h : s.Retains crates j gone groups current) {t : Engine}
    (hrun : Runs crates FaultFree s t)
    (hparse : ∀ e ∈ t.acked, ParsesBack crates e)
    (hlength : t.acked.length + 1 < 2 ^ 64) :
    ∃ j' groups' current' new, t.Retains crates j' gone groups' current' ∧
      t.acked = s.acked ++ new := by
  induction hrun with
  | refl => exact ⟨j, groups, current, [], h, by simp⟩
  | @tail u v _ hstep ih =>
      obtain ⟨op, hop, hstep⟩ := hstep
      have hinit := acked_prefix_step crates hstep
      obtain ⟨j', groups', current', new, hretains, hacked⟩ :=
        ih (fun e he => hparse e (hinit.subset he))
          (lt_of_le_of_lt (Nat.succ_le_succ hinit.length_le) hlength)
      obtain ⟨j₂, groups₂, current₂, new₂, hretains₂, hacked₂, _⟩ :=
        hretains.op (orderly_of_faultFree hop) hstep hparse hlength
      refine ⟨j₂, groups₂, current₂, new ++ new₂, hretains₂, ?_⟩
      rw [hacked₂, hacked, List.append_assoc]

/-- Without faults the newest file is not empty, so pruning leaves an entry. -/
theorem orderly_of_steady (h : s.Retains crates j gone groups current)
    (hcurrent : groups = [] ∨ current ≠ []) {step : Upkeep}
    (hstep : s.Steady step) : s.Orderly crates step := by
  cases step with
  | log op => exact orderly_of_faultFree hstep
  | prune boundarySeq removals =>
      intro store hstore
      rw [h.spares_iff hstore]
      exact hcurrent.imp_right Or.inr

theorem upkeep (h : s.Retains crates j gone groups current) {step : Upkeep}
    {t : Engine} (hstep : s.Orderly crates step)
    (ht : s.upkeep crates step = .ok t)
    (hparse : ∀ e ∈ t.acked, ParsesBack crates e)
    (hlength : t.acked.length + 1 < 2 ^ 64) :
    ∃ j' gone' groups' current', t.Retains crates j' gone' groups' current' ∧
      (s.Steady step → groups = [] ∨ current ≠ [] →
        groups' = [] ∨ current' ≠ []) := by
  cases step with
  | log op =>
      obtain ⟨j', groups', current', _, hretains, _, hcurrent⟩ :=
        h.op hstep ht hparse hlength
      exact ⟨j', gone, groups', current', hretains, hcurrent⟩
  | prune boundarySeq removals =>
      obtain rfl := Except.ok.inj ht
      obtain ⟨k, _, hretains⟩ := h.prune removals hstep
      refine ⟨_, _, _, _, hretains, fun _ hcurrent => ?_⟩
      exact hcurrent.imp_left fun hnil => by rw [hnil, List.drop_nil]

end Retains

theorem acked_prefix_upkeep {s t : Engine} {step : Upkeep}
    (hstep : s.upkeep crates step = .ok t) : s.acked <+: t.acked := by
  cases step with
  | log op => exact acked_prefix_step crates hstep
  | prune boundarySeq removals =>
      obtain rfl := Except.ok.inj hstep
      exact List.prefix_rfl

theorem retains_of_orderly {mode : Mode} {s t : Engine}
    (hstart : start crates mode .missing = .ok s)
    (hrun : Maintained crates (Orderly crates) s t)
    (hparse : ∀ e ∈ t.acked, ParsesBack crates e)
    (hlength : t.acked.length + 1 < 2 ^ 64) :
    ∃ j gone groups current, t.Retains crates j gone groups current := by
  induction hrun with
  | refl => exact ⟨_, _, _, _, retains_of_start hstart⟩
  | @tail u v _ hstep ih =>
      obtain ⟨step, hallowed, hstep⟩ := hstep
      have hinit := acked_prefix_upkeep hstep
      obtain ⟨j, gone, groups, current, hretains⟩ :=
        ih (fun e he => hparse e (hinit.subset he))
          (lt_of_le_of_lt (Nat.succ_le_succ hinit.length_le) hlength)
      obtain ⟨_, _, _, _, hnext, _⟩ :=
        hretains.upkeep hallowed hstep hparse hlength
      exact ⟨_, _, _, _, hnext⟩

/-- Every run without faults keeps the log, and its newest file is not empty
behind others. -/
theorem retains_of_steady {mode : Mode} {s t : Engine}
    (hstart : start crates mode .missing = .ok s)
    (hrun : Maintained crates Steady s t)
    (hparse : ∀ e ∈ t.acked, ParsesBack crates e)
    (hlength : t.acked.length + 1 < 2 ^ 64) :
    ∃ j gone groups current, t.Retains crates j gone groups current ∧
      (groups = [] ∨ current ≠ []) := by
  induction hrun with
  | refl => exact ⟨_, _, _, _, retains_of_start hstart, Or.inl rfl⟩
  | @tail u v _ hstep ih =>
      obtain ⟨step, hallowed, hstep⟩ := hstep
      have hinit := acked_prefix_upkeep hstep
      obtain ⟨j, gone, groups, current, hretains, hcurrent⟩ :=
        ih (fun e he => hparse e (hinit.subset he))
          (lt_of_le_of_lt (Nat.succ_le_succ hinit.length_le) hlength)
      obtain ⟨_, _, _, _, hnext, hkeeps⟩ :=
        hretains.upkeep (hretains.orderly_of_steady hcurrent hallowed) hstep
          hparse hlength
      exact ⟨_, _, _, _, hnext, hkeeps hallowed hcurrent⟩

end Engine

end Chainlog
