import Chainlog.Foundation.DividedChain
import Chainlog.FaultFree
import Chainlog.Prune

/-!
# The files that retention leaves

The files of a log divide its chain: each is named after the sequence number
that its first entry has or will have.  Deleting files from the front leaves a
log of the same kind that goes on behind the deleted entries, which the anchor
stands for.
-/

namespace Chainlog

variable (crates : Crates)

/-! ## Anchors -/

/-- The anchor of a chain that goes on behind the entries. -/
def anchorAfter (entries : List AuditEntry) : Option Anchor :=
  (lastHead entries).map fun head => { seq := head.1, hash := head.2 }

@[simp] theorem anchorAfter_nil : anchorAfter [] = none := rfl

theorem anchorAfter_snoc (entries : List AuditEntry) (e : AuditEntry) :
    anchorAfter (entries ++ [e]) =
      some { seq := e.seq, hash := e.entryHash } := by
  simp [anchorAfter]

theorem lastHead_append_of_ne_nil {left right : List AuditEntry}
    (hright : right ≠ []) : lastHead (left ++ right) = lastHead right := by
  cases right using List.reverseRecOn with
  | nil => exact absurd rfl hright
  | append_singleton right e =>
      rw [← List.append_assoc, lastHead_snoc, lastHead_snoc]

theorem logHead_append {left right : List AuditEntry} (hright : right ≠ []) :
    logHead (left ++ right) = logHead right := by
  unfold logHead
  rw [lastHead_append_of_ne_nil hright]

/-- Only the last entries decide the anchor. -/
theorem anchorAfter_append {left right : List AuditEntry} (hright : right ≠ []) :
    anchorAfter (left ++ right) = anchorAfter right := by
  unfold anchorAfter
  rw [lastHead_append_of_ne_nil hright]

theorem chainStart_anchorAfter (entries : List AuditEntry) :
    chainStart (anchorAfter entries) =
      (entryChain crates).finish (chainStart none) entries := by
  rw [finish_chainStart]
  cases entries using List.reverseRecOn with
  | nil => rfl
  | append_singleton entries e =>
      rw [anchorAfter_snoc, logHead_snoc]
      rfl

theorem chainStart_anchorAfter_append (left right : List AuditEntry) :
    chainStart (anchorAfter (left ++ right)) =
      (entryChain crates).finish (chainStart (anchorAfter left)) right := by
  rw [chainStart_anchorAfter crates, chainStart_anchorAfter crates,
    HashChain.Shape.finish_append]

variable {crates}

/-- What is left of a chain follows the anchor of what is gone. -/
theorem follows_append_anchorAfter {gone kept : List AuditEntry} :
    (entryChain crates).Follows (chainStart none) (gone ++ kept) ↔
      (entryChain crates).Follows (chainStart none) gone ∧
        (entryChain crates).Follows (chainStart (anchorAfter gone)) kept := by
  rw [HashChain.Shape.follows_append, chainStart_anchorAfter crates]

theorem toNat_chainStart_anchorAfter {entries : List AuditEntry}
    (hchain : (entryChain crates).Follows (chainStart none) entries)
    (hlength : entries.length + 1 < 2 ^ 64) :
    (chainStart (anchorAfter entries)).1.toNat = entries.length + 1 := by
  have hhead := toNat_logHead crates hchain (by omega)
  rw [chainStart_anchorAfter crates, finish_chainStart,
    toNat_add_one (by omega), hhead]

/-- An entry behind others carries a number above their count. -/
theorem toNat_seq_of_mem {before after : List AuditEntry}
    (hchain : (entryChain crates).Follows (chainStart none) (before ++ after))
    (hlength : (before ++ after).length < 2 ^ 64) {e : AuditEntry}
    (he : e ∈ after) :
    before.length < e.seq.toNat ∧ e.seq.toNat ≤ (before ++ after).length := by
  obtain ⟨i, hi, rfl⟩ := List.getElem_of_mem he
  have hindex : before.length + i < (before ++ after).length := by
    rw [List.length_append]
    omega
  have hseq := toNat_seq_getElem crates hchain hlength _ hindex
  rw [List.getElem_append_right (by omega)] at hseq
  simp only [Nat.add_sub_cancel_left] at hseq
  omega

theorem readSegments_segmentDir {files : List (UInt64 × Bytes)}
    (hsorted : (files.map Prod.fst).Pairwise (· < ·))
    {groups : List (List AuditEntry)}
    (hread : List.Forall₂ (ReadsAs crates) (files.map Prod.snd) groups) :
    readSegments crates (listSegments (segmentDir files)) =
      .ok groups.flatten := by
  rw [listSegments_segmentDir hsorted, readSegments_eq, List.map_map]
  exact readNodes_of_forall₂ hread

/-! ## Divided journals -/

namespace Journal

/-- Forget the first closed files. -/
def drop (j : Journal) (k : ℕ) : Journal where
  closed := j.closed.drop k
  first := j.first
  content := j.content
  count := j.count
  limit := j.limit

theorem files_drop {j : Journal} {k : ℕ} (hk : k ≤ j.closed.length) :
    (j.drop k).files = j.files.drop k := by
  unfold Journal.files Journal.drop
  rw [List.drop_append_of_le_length hk]

theorem sorted_drop {j : Journal} {k : ℕ} (hk : k ≤ j.closed.length)
    (hsorted : (j.files.map Prod.fst).Pairwise (· < ·)) :
    ((j.drop k).files.map Prod.fst).Pairwise (· < ·) := by
  rw [files_drop hk, List.map_drop]
  exact hsorted.drop

end Journal

theorem LogStore.Represents.drop {store : SegmentedStore} {j : Journal}
    (h : (LogStore.segmented store).Represents j) {k : ℕ}
    (hk : k ≤ j.closed.length) :
    (LogStore.segmented
      { store with dir := segmentDir (j.drop k).files }).Represents
        (j.drop k) := by
  cases h with
  | segmented _ _ dir file first count limit pos sorted =>
      exact .segmented _ _ rfl file first count limit pos
        (Journal.sorted_drop hk sorted)

namespace Journal

variable (crates) in
/-- The files hold what is left of a chain from genesis whose first entries are
gone: the closed files the groups, none of them empty, and the open file the
current entries. -/
structure Divides (j : Journal) (gone : List AuditEntry)
    (groups : List (List AuditEntry)) (current : List AuditEntry) : Prop where
  divided : (entryChain crates).Divided (chainStart (anchorAfter gone))
    (j.files.map Prod.fst) (groups ++ [current])
  count : j.count = current.length
  closed : List.Forall₂ (ReadsAs crates) (j.closed.map Prod.snd) groups
  current : ReadsAs crates j.content current
  gone : (entryChain crates).Follows (chainStart none) gone
  filled : ∀ group ∈ groups, group ≠ []
  terminated : Lines.Terminated newline j.content

namespace Divides

variable {j : Journal} {gone current : List AuditEntry}
  {groups : List (List AuditEntry)}

theorem length_closed (h : j.Divides crates gone groups current) :
    j.closed.length = groups.length := by
  have hlength := h.closed.length_eq
  rwa [List.length_map] at hlength

theorem kept_chain (h : j.Divides crates gone groups current) :
    (entryChain crates).Follows (chainStart (anchorAfter gone))
      (groups.flatten ++ current) := by
  have hfollows := h.divided.follows
  rwa [List.flatten_append, List.flatten_singleton] at hfollows

theorem chain (h : j.Divides crates gone groups current) :
    (entryChain crates).Follows (chainStart none)
      (gone ++ (groups.flatten ++ current)) :=
  follows_append_anchorAfter.mpr ⟨h.gone, h.kept_chain⟩

theorem chain_take (h : j.Divides crates gone groups current) (i : ℕ) :
    (entryChain crates).Follows (chainStart none)
      (gone ++ (groups.take i).flatten) := by
  have hchain := h.chain
  rw [← List.take_append_drop i groups, List.flatten_append,
    List.append_assoc, ← List.append_assoc] at hchain
  exact (follows_append_anchorAfter.mp hchain).1

theorem chain_groups (h : j.Divides crates gone groups current) :
    (entryChain crates).Follows (chainStart none) (gone ++ groups.flatten) := by
  have hchain := h.chain_take groups.length
  rwa [List.take_length] at hchain

/-- The parts of a divided journal are the closed files and the open one. -/
theorem divided_iff (hlength : j.closed.length = groups.length) :
    (entryChain crates).Divided (chainStart (anchorAfter gone))
        (j.files.map Prod.fst) (groups ++ [current]) ↔
      (entryChain crates).Divided (chainStart (anchorAfter gone))
          (j.closed.map Prod.fst) groups ∧
        j.first = (chainStart (anchorAfter (gone ++ groups.flatten))).1 ∧
        (entryChain crates).Follows
          (chainStart (anchorAfter (gone ++ groups.flatten))) current := by
  rw [Journal.files, List.map_append,
    HashChain.Shape.divided_append (by rw [List.length_map, hlength]),
    chainStart_anchorAfter_append crates]
  exact and_congr_right fun _ => HashChain.Shape.divided_singleton

theorem fresh (mode : Mode) : (Journal.fresh mode).Divides crates [] [] [] where
  closed := .nil
  current := readsAs_nil
  divided := (divided_iff rfl).mpr ⟨trivial, rfl, trivial⟩
  gone := trivial
  filled := by simp
  terminated := Lines.terminated_nil newline
  count := rfl

theorem rotate (h : j.Divides crates gone groups current)
    (hcurrent : current ≠ []) {first : UInt64}
    (hfirst : first =
      (chainStart (anchorAfter (gone ++ (groups.flatten ++ current)))).1) :
    (j.rotate first).Divides crates gone (groups ++ [current]) [] where
  closed := by
    have hfiles : (j.rotate first).closed.map Prod.snd =
        j.closed.map Prod.snd ++ [j.content] := by
      simp [Journal.rotate, Journal.files]
    rw [hfiles]
    exact List.rel_append h.closed (.cons h.current .nil)
  current := readsAs_nil
  divided := by
    rw [divided_iff (by simp [Journal.rotate, Journal.files, h.length_closed])]
    refine ⟨h.divided, ?_, trivial⟩
    rw [List.flatten_append, List.flatten_singleton]
    exact hfirst
  gone := h.gone
  filled := by
    intro group hgroup
    rcases List.mem_append.mp hgroup with hold | hnew
    · exact h.filled group hold
    · obtain rfl := List.mem_singleton.mp hnew
      exact hcurrent
  terminated := Lines.terminated_nil newline
  count := rfl

theorem opened (h : j.Divides crates gone groups current)
    (hfull : j.full = true → current ≠ []) {entry : AuditEntry}
    (hseq : entry.seq =
      (chainStart (anchorAfter (gone ++ (groups.flatten ++ current)))).1) :
    ∃ groups' current', (j.opened entry).Divides crates gone groups' current' ∧
      groups'.flatten ++ current' = groups.flatten ++ current := by
  unfold Journal.opened
  by_cases hroom : j.full = true
  · rw [if_pos hroom]
    refine ⟨groups ++ [current], [], h.rotate (hfull hroom) hseq, ?_⟩
    rw [List.flatten_append, List.flatten_singleton, List.append_nil]
  · rw [if_neg hroom]
    exact ⟨groups, current, h, rfl⟩

theorem extend (h : j.Divides crates gone groups current) {entry : AuditEntry}
    (hparse : ParsesBack crates entry)
    (hchain : (entryChain crates).Follows (chainStart none)
      (gone ++ (groups.flatten ++ current) ++ [entry])) :
    (j.extend (entryLine crates entry) 1).Divides crates gone groups
      (current ++ [entry]) where
  closed := h.closed
  current := by
    apply h.current.append h.terminated hparse
    · rw [entryLine_eq]
      exact List.prefix_append _ _
    · exact List.prefix_rfl
  divided := by
    have hopen := (divided_iff h.length_closed).mp h.divided
    apply (divided_iff (j := j.extend (entryLine crates entry) 1)
      h.length_closed).mpr
    refine ⟨hopen.1, hopen.2.1, ?_⟩
    rw [← List.append_assoc gone, List.append_assoc _ current,
      follows_append_anchorAfter] at hchain
    exact hchain.2
  gone := h.gone
  filled := h.filled
  terminated := terminated_entryLine crates j.content entry
  count := by
    rw [List.length_append, List.length_singleton, ← h.count]
    rfl

theorem resume (h : j.Divides crates gone groups current) (mode : Mode) :
    (j.resume mode current.length).Divides crates gone groups current where
  closed := h.closed
  current := h.current
  divided := h.divided
  gone := h.gone
  filled := h.filled
  terminated := h.terminated
  count := rfl

/-- Without its first files a journal goes on behind their entries. -/
theorem drop (h : j.Divides crates gone groups current) {k : ℕ}
    (hk : k ≤ groups.length) :
    (j.drop k).Divides crates (gone ++ (groups.take k).flatten)
      (groups.drop k) current where
  closed := by
    show List.Forall₂ _ ((j.closed.drop k).map Prod.snd) _
    rw [List.map_drop]
    exact List.forall₂_drop k h.closed
  current := h.current
  divided := by
    have hdrop := h.divided.drop k
    rw [List.take_append_of_le_length hk, List.drop_append_of_le_length hk,
      ← chainStart_anchorAfter_append crates] at hdrop
    rw [files_drop (h.length_closed ▸ hk), List.map_drop]
    exact hdrop
  gone := h.chain_take k
  filled := fun group hgroup => h.filled group (List.mem_of_mem_drop hgroup)
  terminated := h.terminated
  count := h.count

theorem readSegments (h : j.Divides crates gone groups current)
    (hsorted : (j.files.map Prod.fst).Pairwise (· < ·)) :
    Chainlog.readSegments crates (listSegments (segmentDir j.files)) =
      .ok (groups.flatten ++ current) := by
  have hread : List.Forall₂ (ReadsAs crates) (j.files.map Prod.snd)
      (groups ++ [current]) := by
    unfold Journal.files
    rw [List.map_append]
    exact List.rel_append h.closed (.cons h.current .nil)
  rw [readSegments_segmentDir hsorted hread, List.flatten_append,
    List.flatten_singleton]

/-! ## The numbers in the files -/

theorem length_names (h : j.Divides crates gone groups current) :
    (j.files.map Prod.fst).length = groups.length + 1 := by
  rw [h.divided.length_eq, List.length_append, List.length_singleton]

/-- A file is named after the number behind all entries before it. -/
theorem name_eq (h : j.Divides crates gone groups current) {i : ℕ}
    (hi : i < (j.files.map Prod.fst).length) :
    (j.files.map Prod.fst)[i] =
      (chainStart (anchorAfter (gone ++ (groups.take i).flatten))).1 := by
  have hle : i ≤ groups.length := by
    rw [h.length_names] at hi
    omega
  rw [h.divided.name_eq hi, List.take_append_of_le_length hle,
    chainStart_anchorAfter_append crates]

theorem toNat_name (h : j.Divides crates gone groups current)
    (hlength : (gone ++ (groups.flatten ++ current)).length + 1 < 2 ^ 64)
    {i : ℕ} (hi : i < (j.files.map Prod.fst).length) :
    (j.files.map Prod.fst)[i].toNat =
      (gone ++ (groups.take i).flatten).length + 1 := by
  rw [h.name_eq hi, toNat_chainStart_anchorAfter (h.chain_take i)]
  rw [← List.take_append_drop i groups, List.flatten_append] at hlength
  simp only [List.length_append] at hlength ⊢
  omega

/-- The entries of a closed file have numbers below the next file's name, and
the last of them has the number just below. -/
theorem seq_lt_name (h : j.Divides crates gone groups current)
    (hlength : (gone ++ (groups.flatten ++ current)).length + 1 < 2 ^ 64)
    {i : ℕ} (hi : i < groups.length)
    (hnext : i + 1 < (j.files.map Prod.fst).length) :
    (∀ e ∈ groups[i], e.seq < (j.files.map Prod.fst)[i + 1]) ∧
      ∃ e ∈ groups[i],
        (j.files.map Prod.fst)[i + 1].toNat = e.seq.toNat + 1 := by
  have hname := h.toNat_name hlength hnext
  have hbound : (gone ++ (groups.take (i + 1)).flatten).length + 1 <
      2 ^ 64 := by
    rw [← hname]
    exact UInt64.toNat_lt _
  have hchain := h.chain_take (i + 1)
  have htake : gone ++ (groups.take (i + 1)).flatten =
      gone ++ (groups.take i).flatten ++ groups[i] := by
    rw [List.take_succ_eq_append_getElem hi, List.flatten_append,
      List.flatten_singleton, List.append_assoc]
  rw [htake] at hname hbound hchain
  constructor
  · intro e he
    have hseq := toNat_seq_of_mem hchain (by omega) he
    rw [UInt64.lt_iff_toNat_lt, hname]
    omega
  · have hne := h.filled _ (List.getElem_mem hi)
    refine ⟨groups[i].getLast hne, List.getLast_mem hne, ?_⟩
    have hhead := toNat_logHead crates hchain (by omega)
    have hlast := List.dropLast_append_getLast hne
    have hseq : (logHead (gone ++ (groups.take i).flatten ++ groups[i])).1 =
        (groups[i].getLast hne).seq := by
      conv_lhs => rw [← hlast]
      rw [← List.append_assoc, logHead_snoc]
    rw [hname, ← hhead, hseq]

theorem seq_lt_first (h : j.Divides crates gone groups current)
    (hlength : (gone ++ (groups.flatten ++ current)).length + 1 < 2 ^ 64)
    {e : AuditEntry} (he : e ∈ groups.flatten) : e.seq < j.first := by
  have hopen := (divided_iff h.length_closed).mp h.divided
  have hroom : (gone ++ groups.flatten).length + 1 < 2 ^ 64 := by
    simp only [List.length_append] at hlength ⊢
    omega
  have hseq := toNat_seq_of_mem h.chain_groups (by omega) he
  have hfirst := toNat_chainStart_anchorAfter h.chain_groups hroom
  rw [UInt64.lt_iff_toNat_lt, hopen.2.1, hfirst]
  omega

/-! ## Pruning -/

theorem anchorBefore_eq {dir : Dir} {segment : SegmentFile}
    {rest : List SegmentFile} {entries : List AuditEntry}
    (hlist : listSegments dir = segment :: rest)
    (hread : readFile crates segment.node = .ok entries)
    (hgone : (entryChain crates).Follows (chainStart none) gone)
    (hlength : gone.length + 1 < 2 ^ 64)
    (hfollows :
      (entryChain crates).Follows (chainStart (anchorAfter gone)) entries) :
    anchorBefore crates dir =
      if entries = [] then none else anchorAfter gone := by
  unfold anchorBefore
  simp only [hlist, List.head?_cons, hread, Except.toOption, Option.bind_eq_bind,
    Option.bind_some]
  cases entries with
  | nil => rfl
  | cons e entries =>
      obtain ⟨⟨hseq, hprev, _⟩, _⟩ := hfollows
      have hseq : e.seq = (chainStart (anchorAfter gone)).1 := hseq
      have hprev : e.prevHash = (chainStart (anchorAfter gone)).2 := hprev
      have hnumber := toNat_chainStart_anchorAfter hgone hlength
      rw [← hseq] at hnumber
      rw [if_neg (List.cons_ne_nil e entries)]
      simp only [List.head?_cons]
      cases gone using List.reverseRecOn with
      | nil =>
          have hfirst : e.seq = 1 := hseq
          rw [if_neg (by rw [hfirst]; decide)]
          rfl
      | append_singleton gone g =>
          rw [anchorAfter_snoc] at hseq hprev ⊢
          have hbehind : 1 < e.seq := by
            rw [UInt64.lt_iff_toNat_lt, hnumber]
            simp
          have hstep : e.seq - 1 = g.seq := by
            rw [hseq]
            exact UInt64.add_sub_cancel g.seq 1
          rw [if_pos hbehind, hstep, hprev]
          rfl

theorem anchorBefore (h : j.Divides crates gone groups current)
    (hsorted : (j.files.map Prod.fst).Pairwise (· < ·))
    (hlength : gone.length + 1 < 2 ^ 64) :
    Chainlog.anchorBefore crates (segmentDir j.files) =
      if groups.flatten ++ current = [] then none else anchorAfter gone := by
  have hkept := h.kept_chain
  have hlist := listSegments_segmentDir hsorted
  have hclosed := h.closed
  unfold Journal.files at hlist
  cases hfiles : j.closed with
  | nil =>
      rw [hfiles, List.map_nil, List.forall₂_nil_left_iff] at hclosed
      subst groups
      rw [hfiles, List.nil_append, List.map_cons] at hlist
      unfold Journal.files
      rw [hfiles]
      exact anchorBefore_eq hlist h.current h.gone hlength hkept
  | cons file files =>
      rw [hfiles, List.map_cons, List.forall₂_cons_left_iff] at hclosed
      obtain ⟨group, others, hread, _, rfl⟩ := hclosed
      rw [hfiles, List.cons_append, List.map_cons] at hlist
      rw [List.flatten_cons, List.append_assoc,
        HashChain.Shape.follows_append] at hkept
      have hgroup : group ≠ [] := h.filled group List.mem_cons_self
      unfold Journal.files
      rw [hfiles, List.cons_append,
        anchorBefore_eq hlist hread h.gone hlength hkept.1, if_neg hgroup,
        if_neg (by simp [hgroup])]

theorem first_listed (hsorted : (j.files.map Prod.fst).Pairwise (· < ·)) {i : ℕ}
    (hi : i < (listSegments (segmentDir j.files)).length)
    (hi' : i < (j.files.map Prod.fst).length) :
    (listSegments (segmentDir j.files))[i].first =
      (j.files.map Prod.fst)[i] := by
  simp only [listSegments_segmentDir hsorted, List.getElem_map]

/-- Files are taken away exactly if the listing changes. -/
theorem listSegments_drop_iff (h : j.Divides crates gone groups current)
    (hsorted : (j.files.map Prod.fst).Pairwise (· < ·)) {k : ℕ}
    (hk : k ≤ groups.length) :
    k = 0 ↔ listSegments (segmentDir (j.drop k).files) =
      listSegments (segmentDir j.files) := by
  have hclosed : k ≤ j.closed.length := h.length_closed ▸ hk
  rw [listSegments_segmentDir hsorted,
    listSegments_segmentDir (sorted_drop hclosed hsorted), files_drop hclosed,
    List.map_drop]
  constructor
  · rintro rfl
    rfl
  · intro hsame
    have hcount := congrArg List.length hsame
    have hnames := h.length_names
    rw [List.length_map] at hnames
    rw [List.length_drop, List.length_map] at hcount
    omega

theorem name_last (h : j.Divides crates gone groups current)
    (hi : groups.length < (j.files.map Prod.fst).length) :
    (j.files.map Prod.fst)[groups.length] = j.first := by
  have hopen := (divided_iff h.length_closed).mp h.divided
  rw [h.name_eq hi, hopen.2.1, List.take_length]

/-- A file behind one whose successor starts behind the boundary has an entry
that reaches it. -/
theorem reaches_of_lt_name (h : j.Divides crates gone groups current)
    (hlength : (gone ++ (groups.flatten ++ current)).length + 1 < 2 ^ 64)
    {k i : ℕ} (hi : k + i < groups.length) {boundarySeq : UInt64}
    (hk : k + 1 < (j.files.map Prod.fst).length)
    (hbehind : boundarySeq < (j.files.map Prod.fst)[k + 1]) :
    ∃ e ∈ groups[k + i], boundarySeq ≤ e.seq := by
  have hnames := h.length_names
  obtain ⟨_, e, he, hnumber⟩ := h.seq_lt_name hlength hi (by omega)
  refine ⟨e, he, ?_⟩
  have hmono : (j.files.map Prod.fst)[k + 1].toNat ≤
      (j.files.map Prod.fst)[k + i + 1].toNat := by
    rw [h.toNat_name hlength, h.toNat_name hlength]
    have hinit : groups.take (k + 1) <+: groups.take (k + i + 1) :=
      List.take_prefix_take_left (by omega)
    have hle := hinit.flatten.length_le
    simp only [List.length_append]
    omega
  rw [UInt64.lt_iff_toNat_lt] at hbehind
  rw [UInt64.le_iff_toNat_le]
  omega

/-- Pruning takes whole files whose entries are all below the boundary, and
where it succeeds all of these but the newest file. -/
theorem pruneBefore (h : j.Divides crates gone groups current)
    (hsorted : (j.files.map Prod.fst).Pairwise (· < ·))
    (hlength : (gone ++ (groups.flatten ++ current)).length + 1 < 2 ^ 64)
    (boundarySeq : UInt64) (removals : List (Option String)) :
    ∃ k, k ≤ groups.length ∧
      (Chainlog.pruneBefore crates (segmentDir j.files) boundarySeq
        removals).1 = segmentDir (j.drop k).files ∧
      (∀ e ∈ (groups.take k).flatten, e.seq < boundarySeq) ∧
      (0 < k → k = groups.length → j.first ≤ boundarySeq) ∧
      (∀ result, (Chainlog.pruneBefore crates (segmentDir j.files) boundarySeq
          removals).2 = .ok result →
        (∀ group ∈ groups.drop k, ∃ e ∈ group, boundarySeq ≤ e.seq) ∧
          result = if 0 < k ∧ (groups.drop k).flatten ++ current ≠ [] then
            anchorAfter (gone ++ (groups.take k).flatten) else none) ∧
      ((∀ removal ∈ removals, removal = none) →
        ∃ result, (Chainlog.pruneBefore crates (segmentDir j.files) boundarySeq
          removals).2 = .ok result) := by
  have hnames := h.length_names
  have hlist := listSegments_segmentDir hsorted
  have hcount : (listSegments (segmentDir j.files)).length =
      groups.length + 1 := by
    rw [hlist, List.length_map, ← hnames, List.length_map]
  obtain ⟨k, hk, hdir, hbefore, hok, htotal⟩ := @pruneBefore_cut crates
    (segmentDir j.files) (List.length_pos_iff.mp (by omega)) boundarySeq removals
  have hk' : k ≤ groups.length := by omega
  have hdrop : (segmentDir j.files).removeAll
      ((listSegments (segmentDir j.files)).take k) =
      segmentDir (j.drop k).files := by
    rw [removeAll_segmentDir hsorted, files_drop (h.length_closed ▸ hk')]
  refine ⟨k, hk', hdir.trans hdrop, ?_, ?_, ?_, htotal⟩
  · intro e he
    obtain ⟨group, hgroup, he⟩ := List.mem_flatten.mp he
    obtain ⟨i, hi, rfl⟩ := List.getElem_of_mem hgroup
    rw [List.length_take] at hi
    rw [List.getElem_take] at he
    obtain ⟨hlt, hle⟩ := hbefore i (by omega)
    have hbelow := (h.seq_lt_name hlength (by omega) (by omega)).1 e he
    rw [first_listed hsorted hlt (by omega)] at hle
    exact UInt64.lt_of_lt_of_le hbelow hle
  · rintro hpos rfl
    obtain ⟨hlt, hle⟩ := hbefore (groups.length - 1) (by omega)
    rw [first_listed hsorted hlt (by omega)] at hle
    have hindex : groups.length - 1 + 1 = groups.length := by omega
    simp only [hindex] at hle
    rwa [h.name_last (by omega)] at hle
  · intro result hresult
    obtain ⟨hafter, hanchor⟩ := hok result hresult
    constructor
    · intro group hgroup
      obtain ⟨i, hi, rfl⟩ := List.getElem_of_mem hgroup
      rw [List.length_drop] at hi
      rw [List.getElem_drop]
      have hbehind := hafter (by omega)
      rw [first_listed hsorted (by omega) (by omega), UInt64.not_le] at hbehind
      exact h.reaches_of_lt_name hlength (by omega) (by omega) hbehind
    · have hcut := h.drop hk'
      have hsorted' := sorted_drop (h.length_closed ▸ hk') hsorted
      have hroom : (gone ++ (groups.take k).flatten).length + 1 < 2 ^ 64 := by
        rw [← List.take_append_drop k groups, List.flatten_append] at hlength
        simp only [List.length_append] at hlength ⊢
        omega
      rw [hanchor, hdrop, hcut.anchorBefore hsorted' hroom]
      by_cases hpos : 0 < k
      · by_cases hnil : (groups.drop k).flatten ++ current = []
        · simp [hpos, hnil]
        · simp [hpos, hnil]
      · simp [hpos]

theorem flatten_take_eq_nil (h : j.Divides crates gone groups current) {k : ℕ}
    (hk : k ≤ groups.length) : (groups.take k).flatten = [] ↔ k = 0 := by
  constructor
  · intro hnil
    by_contra hpos
    have hfirst : groups[0] ∈ groups.take k :=
      List.mem_take_iff_getElem.mpr ⟨0, by omega, rfl⟩
    exact h.filled _ (List.mem_of_mem_take hfirst)
      (List.flatten_eq_nil_iff.mp hnil _ hfirst)
  · rintro rfl
    rfl

/-- Where an entry is left, the anchor is that of the deleted entries. -/
theorem pruned_anchor (h : j.Divides crates gone groups current) {k : ℕ}
    (hk : k ≤ groups.length)
    (hleft : k = 0 ∨ (groups.drop k).flatten ++ current ≠ []) :
    (if 0 < k ∧ (groups.drop k).flatten ++ current ≠ [] then
      anchorAfter (gone ++ (groups.take k).flatten) else none) =
        anchorAfter (groups.take k).flatten := by
  by_cases hpos : 0 < k
  · rw [if_pos ⟨hpos, hleft.resolve_left (by omega)⟩]
    apply anchorAfter_append
    rw [Ne, h.flatten_take_eq_nil hk]
    omega
  · rw [if_neg fun hboth => hpos hboth.1,
      (h.flatten_take_eq_nil hk).mpr (by omega), anchorAfter_nil]

/-- Pruning leaves an entry in the newest file, or stops before it. -/
theorem left_of_spare (h : j.Divides crates gone groups current) {k : ℕ}
    (hk : k ≤ groups.length) {boundarySeq : UInt64}
    (hall : 0 < k → k = groups.length → j.first ≤ boundarySeq)
    (hspare : groups = [] ∨ boundarySeq < j.first ∨ current ≠ []) :
    k = 0 ∨ (groups.drop k).flatten ++ current ≠ [] := by
  rcases hspare with rfl | hbehind | hne
  · exact Or.inl (Nat.le_zero.mp hk)
  · by_cases hpos : 0 < k
    · right
      have hlt : k < groups.length := by
        rcases Nat.lt_or_eq_of_le hk with hlt | heq
        · exact hlt
        · exact absurd (hall hpos heq) (UInt64.not_le.mpr hbehind)
      rw [List.drop_eq_getElem_cons hlt, List.flatten_cons]
      simp [h.filled _ (List.getElem_mem hlt)]
    · exact Or.inl (by omega)
  · exact Or.inr (by simp [hne])

end Divides

end Journal

end Chainlog
