import Chainlog.Segment

/-!
# Directories

Looking files up, replacing and removing them.
-/

namespace Chainlog

/-- What the file system answers to `std::fs::write`. -/
inductive FileWrite where
  | written
  | openFailed (reason : String)
  /-- The file was truncated and holds a front part of the new content. -/
  | writeFailed (persisted : ℕ) (reason : String)
  deriving DecidableEq, Repr

namespace Dir

def put (dir : Dir) (name : String) (content : Bytes) : Dir :=
  (dir.create name).setContent name content

/-- `std::fs::write`. -/
def write (dir : Dir) (name : String) (content : Bytes) (answer : FileWrite) :
    Dir × Result Unit :=
  match dir.find name, answer with
  | some (.unreadable reason), _ => (dir, .error (.io reason))
  | _, .written => (dir.put name content, .ok ())
  | _, .openFailed reason => (dir, .error (.io reason))
  | _, .writeFailed persisted reason =>
      (dir.put name (content.take persisted), .error (.io reason))

def names (dir : Dir) : List String := dir.map Prod.fst

@[simp] theorem find_nil (name : String) : find [] name = none := rfl

theorem find_cons (file : String × FileNode) (dir : Dir) (name : String) :
    find (file :: dir) name =
      if file.1 = name then some file.2 else find dir name := by
  unfold find
  rw [List.find?_cons]
  by_cases hname : file.1 = name <;> simp [hname]

theorem find_append (front back : Dir) (name : String) :
    find (front ++ back) name = (find front name).or (find back name) := by
  unfold find
  rw [List.find?_append]
  cases List.find? (fun file => file.1 = name) front <;> simp

theorem mem_of_find {dir : Dir} {name : String} {node : FileNode}
    (hfind : dir.find name = some node) : (name, node) ∈ dir := by
  unfold find at hfind
  obtain ⟨file, hfile, hnode⟩ := Option.map_eq_some_iff.mp hfind
  have hname := List.find?_some hfile
  have hmem := List.mem_of_find?_eq_some hfile
  simp only [decide_eq_true_eq] at hname
  rwa [← hname, ← hnode]

theorem find_eq_none {dir : Dir} {name : String} :
    dir.find name = none ↔ name ∉ dir.names := by
  unfold find names
  rw [Option.map_eq_none_iff, List.find?_eq_none]
  simp only [decide_eq_true_eq, List.mem_map, not_exists, not_and]

theorem find_setContent (dir : Dir) (name other : String) (content : Bytes) :
    (dir.setContent name content).find other =
      if other = name then (dir.find name).map fun _ => .readable content
      else dir.find other := by
  induction dir with
  | nil => simp [setContent]
  | cons file rest ih =>
      have hcons : setContent (file :: rest) name content =
          (if file.1 = name then (name, .readable content) else file) ::
            setContent rest name content := rfl
      rw [hcons, find_cons, find_cons, find_cons, ih]
      by_cases hfile : file.1 = name
      · subst hfile
        by_cases hother : other = file.1
        · simp [hother]
        · simp [hother, Ne.symm hother]
      · by_cases hother : other = name
        · subst hother
          simp [hfile]
        · simp [hfile, hother]

theorem names_setContent (dir : Dir) (name : String) (content : Bytes) :
    (dir.setContent name content).names = dir.names := by
  unfold names setContent
  rw [List.map_map]
  apply List.map_congr_left
  intro file _
  by_cases hfile : file.1 = name <;> simp [hfile]

theorem find_put (dir : Dir) (name other : String) (content : Bytes) :
    (dir.put name content).find other =
      if other = name then some (.readable content) else dir.find other := by
  unfold put create
  rw [find_setContent]
  cases hfind : dir.find name with
  | some node =>
      simp only [hfind, Option.map_some]
  | none =>
      simp only [find_append, hfind, find_cons, find_nil]
      by_cases hother : other = name
      · simp [hother]
      · simp [hother, Ne.symm hother]

theorem nodup_put {dir : Dir} (hdir : dir.names.Nodup) (name : String)
    (content : Bytes) : (dir.put name content).names.Nodup := by
  unfold put create
  rw [names_setContent]
  cases hfind : dir.find name with
  | some node => exact hdir
  | none =>
      have hnew := find_eq_none.mp hfind
      unfold names at hdir hnew ⊢
      rw [List.map_append]
      apply List.nodup_append.mpr
      refine ⟨hdir, by simp, ?_⟩
      rintro a ha b hb rfl
      rw [List.map_singleton, List.mem_singleton] at hb
      rw [hb] at ha
      exact hnew ha

theorem mem_names_create (dir : Dir) (name : String) :
    name ∈ (dir.create name).names := by
  unfold create
  cases hfind : dir.find name with
  | some node => exact List.mem_map_of_mem (mem_of_find hfind)
  | none => simp [names]

theorem nodup_create {dir : Dir} (hdir : dir.names.Nodup) (name : String) :
    (dir.create name).names.Nodup := by
  rw [← names_setContent _ name []]
  exact nodup_put hdir name []

theorem find_of_mem {dir : Dir} (hdir : dir.names.Nodup) {name : String}
    {node : FileNode} (hmem : (name, node) ∈ dir) :
    dir.find name = some node := by
  induction dir with
  | nil => cases hmem
  | cons file rest ih =>
      obtain ⟨hfile, hrest⟩ := List.nodup_cons.mp hdir
      rw [find_cons]
      rcases List.mem_cons.mp hmem with rfl | hmem
      · rw [if_pos rfl]
      · have hne : file.1 ≠ name := by
          rintro rfl
          exact hfile (List.mem_map.mpr ⟨_, hmem, rfl⟩)
        rw [if_neg hne, ih hrest hmem]

theorem write_written {dir : Dir} {name : String}
    (hfile : ∀ reason, dir.find name ≠ some (.unreadable reason))
    (content : Bytes) :
    dir.write name content .written = (dir.put name content, .ok ()) := by
  unfold write
  cases hfind : dir.find name with
  | none => rfl
  | some node =>
      cases node with
      | readable old => rfl
      | unreadable reason => exact absurd hfind (hfile reason)

/-- A write leaves the directory, replaces the file, or cuts it short. -/
theorem write_cases (dir : Dir) (name : String) (content : Bytes)
    (answer : FileWrite) :
    (∃ err, dir.write name content answer = (dir, .error err)) ∨
      (answer = .written ∧
        dir.write name content answer = (dir.put name content, .ok ())) ∨
      ∃ n reason, answer = .writeFailed n reason ∧
        dir.write name content answer =
          (dir.put name (content.take n), .error (.io reason)) := by
  unfold write
  split
  · exact Or.inl ⟨_, rfl⟩
  · exact Or.inr (Or.inl ⟨rfl, rfl⟩)
  · exact Or.inl ⟨_, rfl⟩
  · exact Or.inr (Or.inr ⟨_, _, rfl, rfl⟩)

theorem find_remove (dir : Dir) (name other : String) :
    (dir.remove name).find other =
      if other = name then none else dir.find other := by
  induction dir with
  | nil => simp [remove]
  | cons file rest ih =>
      unfold remove at ih ⊢
      by_cases hfile : file.1 = name
      · rw [List.filter_cons_of_neg (by simp [hfile]), ih, find_cons, hfile]
        by_cases hother : other = name
        · simp [hother]
        · simp [hother, Ne.symm hother]
      · rw [List.filter_cons_of_pos (by simp [hfile]), find_cons, find_cons, ih]
        by_cases hother : other = name
        · subst hother
          simp [hfile]
        · simp [hother]

theorem remove_eq_self {dir : Dir} {name : String}
    (hfind : dir.find name = none) : dir.remove name = dir := by
  apply List.filter_eq_self.mpr
  intro file hfile
  have hne : file.1 ≠ name := by
    rintro rfl
    exact find_eq_none.mp hfind (List.mem_map_of_mem hfile)
  simpa using hne

theorem nodup_remove {dir : Dir} (hdir : dir.names.Nodup) (name : String) :
    (dir.remove name).names.Nodup :=
  hdir.sublist (List.filter_sublist.map Prod.fst)

end Dir

end Chainlog
