import Mathlib.Order.Basic
import Mathlib.Data.List.Pairwise
import Mathlib.Data.String.Basic
import Mathlib.Tactic

/-!
# JSON documents

A document keeps the members of an object in the order of its text.  Reading a
document into an ordered map sorts the members and lets a later key replace an
earlier one; `sortKeys` is that reading and `Sorted` its image.
-/

/-- A JSON document over a type of numbers. -/
inductive Json (ν : Type) where
  | null
  | bool (b : Bool)
  | number (n : ν)
  | string (s : String)
  | array (items : List (Json ν))
  | object (members : List (String × Json ν))

namespace Json

variable {ν : Type}

/-! ## Nesting -/

mutual
/-- The number of arrays and objects around the innermost value. -/
def depth : Json ν → ℕ
  | .array items => depthItems items + 1
  | .object members => depthMembers members + 1
  | _ => 0

def depthItems : List (Json ν) → ℕ
  | [] => 0
  | item :: rest => max item.depth (depthItems rest)

def depthMembers : List (String × Json ν) → ℕ
  | [] => 0
  | (_, value) :: rest => max value.depth (depthMembers rest)
end

@[simp] theorem depth_null : (Json.null : Json ν).depth = 0 := by simp [depth]
@[simp] theorem depth_bool (b : Bool) : (Json.bool b : Json ν).depth = 0 := by
  simp [depth]
@[simp] theorem depth_number (n : ν) : (Json.number n).depth = 0 := by
  simp [depth]
@[simp] theorem depth_string (s : String) :
    (Json.string s : Json ν).depth = 0 := by simp [depth]
@[simp] theorem depth_array (items : List (Json ν)) :
    (Json.array items).depth = depthItems items + 1 := by rw [depth]
@[simp] theorem depth_object (members : List (String × Json ν)) :
    (Json.object members).depth = depthMembers members + 1 := by rw [depth]
@[simp] theorem depthItems_nil : depthItems ([] : List (Json ν)) = 0 := rfl
@[simp] theorem depthItems_cons (item : Json ν) (rest : List (Json ν)) :
    depthItems (item :: rest) = max item.depth (depthItems rest) := by
  rw [depthItems]
@[simp] theorem depthMembers_nil :
    depthMembers ([] : List (String × Json ν)) = 0 := rfl
@[simp] theorem depthMembers_cons (key : String) (value : Json ν)
    (rest : List (String × Json ν)) :
    depthMembers ((key, value) :: rest) =
      max value.depth (depthMembers rest) := by
  rw [depthMembers]

/-! ## Ordered members -/

mutual
/-- Every object lists its members in strictly increasing key order. -/
def Sorted : Json ν → Prop
  | .array items => SortedItems items
  | .object members =>
      (members.map Prod.fst).Pairwise (· < ·) ∧ SortedMembers members
  | _ => True

def SortedItems : List (Json ν) → Prop
  | [] => True
  | item :: rest => item.Sorted ∧ SortedItems rest

def SortedMembers : List (String × Json ν) → Prop
  | [] => True
  | (_, value) :: rest => value.Sorted ∧ SortedMembers rest
end

/-- Insert a member into an ordered member list; an equal key is replaced. -/
def insertMember (key : String) (value : Json ν) :
    List (String × Json ν) → List (String × Json ν)
  | [] => [(key, value)]
  | (k, v) :: rest =>
      if key < k then (key, value) :: (k, v) :: rest
      else if key = k then (key, value) :: rest
      else (k, v) :: insertMember key value rest

mutual
/-- Collect every object's members into an ordered map, from left to right. -/
def sortKeys : Json ν → Json ν
  | .array items => .array (sortItems items)
  | .object members => .object (sortMembers members [])
  | .null => .null
  | .bool b => .bool b
  | .number n => .number n
  | .string s => .string s

def sortItems : List (Json ν) → List (Json ν)
  | [] => []
  | item :: rest => item.sortKeys :: sortItems rest

def sortMembers : List (String × Json ν) → List (String × Json ν) →
    List (String × Json ν)
  | [], map => map
  | (key, value) :: rest, map =>
      sortMembers rest (insertMember key value.sortKeys map)
end

theorem insertMember_keys (key : String) (value : Json ν)
    (map : List (String × Json ν)) {other : String}
    (hother : other ∈ (insertMember key value map).map Prod.fst) :
    other = key ∨ other ∈ map.map Prod.fst := by
  induction map with
  | nil => simpa [insertMember] using hother
  | cons entry rest ih =>
      obtain ⟨k, v⟩ := entry
      simp only [insertMember] at hother
      split_ifs at hother with hlt heq
      · simpa using hother
      · have hor : other = key ∨ other ∈ rest.map Prod.fst := by
          simpa using hother
        rcases hor with h | h
        · exact Or.inl h
        · exact Or.inr (by simp only [List.map_cons, List.mem_cons]; exact Or.inr h)
      · have hor : other = k ∨
            other ∈ (insertMember key value rest).map Prod.fst := by
          simpa using hother
        rcases hor with h | h
        · exact Or.inr (by simp [h])
        · rcases ih h with h' | h'
          · exact Or.inl h'
          · exact Or.inr (by simp only [List.map_cons, List.mem_cons]; exact Or.inr h')

theorem insertMember_pairwise (key : String) (value : Json ν)
    {map : List (String × Json ν)}
    (hmap : (map.map Prod.fst).Pairwise (· < ·)) :
    ((insertMember key value map).map Prod.fst).Pairwise (· < ·) := by
  induction map with
  | nil => simp [insertMember]
  | cons entry rest ih =>
      obtain ⟨k, v⟩ := entry
      simp only [List.map_cons, List.pairwise_cons] at hmap
      simp only [insertMember]
      split_ifs with hlt heq
      · simp only [List.map_cons, List.pairwise_cons, List.mem_cons]
        refine ⟨?_, hmap.1, hmap.2⟩
        rintro other (rfl | hother)
        · exact hlt
        · exact hlt.trans (hmap.1 other hother)
      · subst key
        simpa only [List.map_cons, List.pairwise_cons] using hmap
      · simp only [List.map_cons, List.pairwise_cons]
        refine ⟨?_, ih hmap.2⟩
        intro other hother
        rcases insertMember_keys key value rest hother with rfl | hmem
        · exact lt_of_le_of_ne (not_lt.mp hlt) (Ne.symm heq)
        · exact hmap.1 other hmem

theorem insertMember_sorted {key : String} {value : Json ν}
    (hvalue : value.Sorted) {map : List (String × Json ν)}
    (hmap : SortedMembers map) :
    SortedMembers (insertMember key value map) := by
  induction map with
  | nil => exact ⟨hvalue, trivial⟩
  | cons entry rest ih =>
      obtain ⟨k, v⟩ := entry
      simp only [insertMember]
      split_ifs
      · exact ⟨hvalue, hmap⟩
      · exact ⟨hvalue, hmap.2⟩
      · exact ⟨hmap.1, ih hmap.2⟩

mutual
/-- Reading a document yields ordered members throughout. -/
theorem sortKeys_sorted : ∀ doc : Json ν, doc.sortKeys.Sorted
  | .null => by simp [sortKeys, Sorted]
  | .bool _ => by simp [sortKeys, Sorted]
  | .number _ => by simp [sortKeys, Sorted]
  | .string _ => by simp [sortKeys, Sorted]
  | .array items => by
      rw [sortKeys, Sorted]
      exact sortItems_sorted items
  | .object members => by
      rw [sortKeys, Sorted]
      exact sortMembers_sorted members [] (by simp) trivial

theorem sortItems_sorted : ∀ items : List (Json ν),
    SortedItems (sortItems items)
  | [] => trivial
  | item :: rest => ⟨sortKeys_sorted item, sortItems_sorted rest⟩

theorem sortMembers_sorted : ∀ (members map : List (String × Json ν)),
    (map.map Prod.fst).Pairwise (· < ·) → SortedMembers map →
      ((sortMembers members map).map Prod.fst).Pairwise (· < ·) ∧
        SortedMembers (sortMembers members map)
  | [], _, hkeys, hmap => ⟨hkeys, hmap⟩
  | (key, value) :: rest, map, hkeys, hmap =>
      sortMembers_sorted rest (insertMember key value.sortKeys map)
        (insertMember_pairwise key _ hkeys)
        (insertMember_sorted (sortKeys_sorted value) hmap)
end

theorem insertMember_last {key : String} {value : Json ν}
    {map : List (String × Json ν)}
    (hkey : ∀ other ∈ map.map Prod.fst, other < key) :
    insertMember key value map = map ++ [(key, value)] := by
  induction map with
  | nil => rfl
  | cons entry rest ih =>
      obtain ⟨k, v⟩ := entry
      have hk : k < key := hkey k (by simp)
      have hrest := ih fun other hother =>
        hkey other (by simp only [List.map_cons, List.mem_cons]; exact Or.inr hother)
      rw [insertMember, if_neg hk.asymm, if_neg hk.ne', hrest,
        List.cons_append]

mutual
theorem sortKeys_eq_self : ∀ doc : Json ν, doc.Sorted → doc.sortKeys = doc
  | .null, _ => by rw [sortKeys]
  | .bool _, _ => by rw [sortKeys]
  | .number _, _ => by rw [sortKeys]
  | .string _, _ => by rw [sortKeys]
  | .array items, h => by
      rw [sortKeys, sortItems_eq_self items (by rwa [Sorted] at h)]
  | .object members, h => by
      rw [Sorted] at h
      rw [sortKeys, sortMembers_eq_append members [] (by simpa using h.1) h.2,
        List.nil_append]

theorem sortItems_eq_self : ∀ items : List (Json ν),
    SortedItems items → sortItems items = items
  | [], _ => rfl
  | item :: rest, h => by
      rw [sortItems, sortKeys_eq_self item h.1, sortItems_eq_self rest h.2]

theorem sortMembers_eq_append : ∀ (members map : List (String × Json ν)),
    ((map ++ members).map Prod.fst).Pairwise (· < ·) →
      SortedMembers members → sortMembers members map = map ++ members
  | [], map, _, _ => by rw [sortMembers, List.append_nil]
  | (key, value) :: rest, map, hkeys, h => by
      have hbelow : ∀ other ∈ map.map Prod.fst, other < key := by
        intro other hother
        rw [List.map_append, List.pairwise_append] at hkeys
        exact hkeys.2.2 other hother key (by simp)
      have hkeys' : (((map ++ [(key, value)]) ++ rest).map Prod.fst).Pairwise
          (· < ·) := by
        simpa using hkeys
      rw [sortMembers, sortKeys_eq_self value h.1, insertMember_last hbelow,
        sortMembers_eq_append rest _ hkeys' h.2, List.append_assoc]
      rfl
end

/-! ## Members -/

/-- `doc[key]`: the member of an object, or null. -/
def member (doc : Json ν) (key : String) : Json ν :=
  match doc with
  | .object members =>
      ((members.find? fun entry => entry.1 = key).map Prod.snd).getD .null
  | _ => .null

/-- `doc[key] = value`.  Null becomes an object; nothing else that is no object
has members. -/
def setMember (doc : Json ν) (key : String) (value : Json ν) : Json ν :=
  match doc with
  | .object members => .object (insertMember key value members)
  | .null => .object [(key, value)]
  | other => other

theorem find_insertMember (key other : String) (value : Json ν)
    (map : List (String × Json ν)) :
    ((insertMember key value map).find? fun entry => entry.1 = other) =
      if key = other then some (key, value)
      else map.find? fun entry => entry.1 = other := by
  induction map with
  | nil =>
      by_cases hkey : key = other <;> simp [insertMember, hkey]
  | cons entry rest ih =>
      obtain ⟨k, v⟩ := entry
      simp only [insertMember]
      by_cases hkey : key = other
      · subst hkey
        rw [if_pos rfl] at ih ⊢
        split_ifs with hlt heq
        · simp
        · simp
        · rw [List.find?_cons_of_neg (by simpa using Ne.symm heq), ih]
      · rw [if_neg hkey] at ih ⊢
        split_ifs with hlt heq
        · simp [hkey]
        · simp [hkey, ← heq]
        · rw [List.find?_cons, List.find?_cons, ih]

theorem member_setMember_object (key other : String) (value : Json ν)
    (members : List (String × Json ν)) :
    ((object members).setMember key value).member other =
      if key = other then value else (object members).member other := by
  simp only [setMember, member, find_insertMember]
  by_cases hkey : key = other <;> simp [hkey]

theorem sorted_of_mem {key : String} {value : Json ν}
    {members : List (String × Json ν)} (hmembers : SortedMembers members)
    (hmem : (key, value) ∈ members) : value.Sorted := by
  induction members with
  | nil => cases hmem
  | cons entry rest ih =>
      rcases List.mem_cons.mp hmem with rfl | h
      · exact hmembers.1
      · exact ih hmembers.2 h

theorem sorted_member {doc : Json ν} (hdoc : doc.Sorted) (key : String) :
    (doc.member key).Sorted := by
  cases doc with
  | object members =>
      rw [Sorted] at hdoc
      simp only [member]
      cases hfind : members.find? fun entry => entry.1 = key with
      | none => simp [Sorted]
      | some entry => exact sorted_of_mem hdoc.2 (List.mem_of_find?_eq_some hfind)
  | _ => simp [member, Sorted]

theorem sorted_setMember {doc value : Json ν} (hdoc : doc.Sorted)
    (hvalue : value.Sorted) (key : String) :
    (doc.setMember key value).Sorted := by
  cases doc with
  | object members =>
      rw [Sorted] at hdoc
      rw [setMember, Sorted]
      exact ⟨insertMember_pairwise key value hdoc.1,
        insertMember_sorted hvalue hdoc.2⟩
  | null => exact (by simp [setMember, Sorted, SortedMembers, hvalue])
  | bool b => exact hdoc
  | number n => exact hdoc
  | string s => exact hdoc
  | array items => exact hdoc

/-! ## Numbers -/

mutual
/-- Replace every number. -/
def mapNumbers (f : ν → ν) : Json ν → Json ν
  | .array items => .array (mapItems f items)
  | .object members => .object (mapMembers f members)
  | .null => .null
  | .bool b => .bool b
  | .number n => .number (f n)
  | .string s => .string s

def mapItems (f : ν → ν) : List (Json ν) → List (Json ν)
  | [] => []
  | item :: rest => item.mapNumbers f :: mapItems f rest

def mapMembers (f : ν → ν) : List (String × Json ν) → List (String × Json ν)
  | [] => []
  | (key, value) :: rest => (key, value.mapNumbers f) :: mapMembers f rest
end

mutual
def numbers : Json ν → List ν
  | .array items => numbersOfItems items
  | .object members => numbersOfMembers members
  | .number n => [n]
  | _ => []

def numbersOfItems : List (Json ν) → List ν
  | [] => []
  | item :: rest => item.numbers ++ numbersOfItems rest

def numbersOfMembers : List (String × Json ν) → List ν
  | [] => []
  | (_, value) :: rest => value.numbers ++ numbersOfMembers rest
end

variable {f : ν → ν}

mutual
/-- A document is left as it is where each of its numbers is. -/
theorem mapNumbers_eq_self_iff : ∀ doc : Json ν,
    doc.mapNumbers f = doc ↔ ∀ n ∈ doc.numbers, f n = n
  | .null => by simp [mapNumbers, numbers]
  | .bool _ => by simp [mapNumbers, numbers]
  | .number _ => by simp [mapNumbers, numbers]
  | .string _ => by simp [mapNumbers, numbers]
  | .array items => by
      rw [mapNumbers, numbers, Json.array.injEq]
      exact mapItems_eq_self_iff items
  | .object members => by
      rw [mapNumbers, numbers, Json.object.injEq]
      exact mapMembers_eq_self_iff members

theorem mapItems_eq_self_iff : ∀ items : List (Json ν),
    mapItems f items = items ↔ ∀ n ∈ numbersOfItems items, f n = n
  | [] => by simp [mapItems, numbersOfItems]
  | item :: rest => by
      rw [mapItems, numbersOfItems, List.cons.injEq,
        mapNumbers_eq_self_iff item, mapItems_eq_self_iff rest]
      simp only [List.mem_append, or_imp, forall_and]

theorem mapMembers_eq_self_iff : ∀ members : List (String × Json ν),
    mapMembers f members = members ↔
      ∀ n ∈ numbersOfMembers members, f n = n
  | [] => by simp [mapMembers, numbersOfMembers]
  | (key, value) :: rest => by
      rw [mapMembers, numbersOfMembers, List.cons.injEq, Prod.mk.injEq,
        mapNumbers_eq_self_iff value, mapMembers_eq_self_iff rest]
      simp only [true_and, List.mem_append, or_imp, forall_and]
end

theorem map_fst_mapMembers (members : List (String × Json ν)) :
    (mapMembers f members).map Prod.fst = members.map Prod.fst := by
  induction members with
  | nil => rfl
  | cons member rest ih => simp [mapMembers, ih]

mutual
theorem sorted_mapNumbers : ∀ doc : Json ν, doc.Sorted →
    (doc.mapNumbers f).Sorted
  | .null, _ => by simp [mapNumbers, Sorted]
  | .bool _, _ => by simp [mapNumbers, Sorted]
  | .number _, _ => by simp [mapNumbers, Sorted]
  | .string _, _ => by simp [mapNumbers, Sorted]
  | .array items, h => by
      rw [Sorted] at h
      rw [mapNumbers, Sorted]
      exact sortedItems_mapItems items h
  | .object members, h => by
      rw [Sorted] at h
      rw [mapNumbers, Sorted, map_fst_mapMembers]
      exact ⟨h.1, sortedMembers_mapMembers members h.2⟩

theorem sortedItems_mapItems : ∀ items : List (Json ν), SortedItems items →
    SortedItems (mapItems f items)
  | [], _ => trivial
  | item :: rest, h => by
      rw [SortedItems] at h
      rw [mapItems, SortedItems]
      exact ⟨sorted_mapNumbers item h.1, sortedItems_mapItems rest h.2⟩

theorem sortedMembers_mapMembers : ∀ members : List (String × Json ν),
    SortedMembers members → SortedMembers (mapMembers f members)
  | [], _ => trivial
  | (key, value) :: rest, h => by
      rw [SortedMembers] at h
      rw [mapMembers, SortedMembers]
      exact ⟨sorted_mapNumbers value h.1, sortedMembers_mapMembers rest h.2⟩
end

end Json
