import Chainlog.Foundation.JsonDocument

/-!
# Members under sorting

Where the keys of an object are distinct, sorting its members replaces none of
them: it only moves them, so that every key keeps its value and the nesting
stays.
-/

namespace Json

variable {ν : Type}

/-- A member with something done to its value. -/
def onValue (change : Json ν → Json ν) (member : String × Json ν) :
    String × Json ν :=
  (member.1, change member.2)

theorem sortItems_eq_map (items : List (Json ν)) :
    sortItems items = items.map sortKeys := by
  induction items with
  | nil => rfl
  | cons item rest ih => rw [sortItems, ih, List.map_cons]

theorem mapItems_eq_map {f : ν → ν} (items : List (Json ν)) :
    mapItems f items = items.map (mapNumbers f) := by
  induction items with
  | nil => rfl
  | cons item rest ih => rw [mapItems, ih, List.map_cons]

theorem mapMembers_eq_map {f : ν → ν} (members : List (String × Json ν)) :
    mapMembers f members = members.map (onValue (mapNumbers f)) := by
  induction members with
  | nil => rfl
  | cons member rest ih =>
      rw [mapMembers, ih, List.map_cons]
      rfl

/-! ## Moved members -/

theorem perm_insertMember {key : String} (value : Json ν)
    {map : List (String × Json ν)} (hnew : key ∉ map.map Prod.fst) :
    (insertMember key value map).Perm ((key, value) :: map) := by
  induction map with
  | nil => rfl
  | cons entry rest ih =>
      obtain ⟨k, v⟩ := entry
      rw [List.map_cons, List.mem_cons, not_or] at hnew
      rw [insertMember]
      split_ifs with hlt heq
      · rfl
      · exact absurd heq hnew.1
      · exact ((ih hnew.2).cons (k, v)).trans (List.Perm.swap _ _ _)

theorem perm_sortMembers {members map : List (String × Json ν)}
    (hkeys : ((members ++ map).map Prod.fst).Nodup) :
    (sortMembers members map).Perm (members.map (onValue sortKeys) ++ map) := by
  induction members generalizing map with
  | nil => rw [sortMembers, List.map_nil, List.nil_append]
  | cons entry rest ih =>
      obtain ⟨key, value⟩ := entry
      rw [List.cons_append, List.map_cons, List.nodup_cons] at hkeys
      have hnew : key ∉ map.map Prod.fst := by
        intro hmem
        apply hkeys.1
        rw [List.map_append]
        exact List.mem_append_right _ hmem
      have hinsert := perm_insertMember value.sortKeys hnew
      have hmoved : (rest ++ insertMember key value.sortKeys map).Perm
          ((key, value.sortKeys) :: (rest ++ map)) :=
        (hinsert.append_left rest).trans List.perm_middle
      have hrest : ((rest ++ insertMember key value.sortKeys map).map
          Prod.fst).Nodup := by
        rw [(hmoved.map Prod.fst).nodup_iff, List.map_cons, List.nodup_cons]
        exact hkeys
      rw [sortMembers, List.map_cons, List.cons_append]
      refine (ih hrest).trans ?_
      exact (hinsert.append_left _).trans List.perm_middle

theorem perm_sorted {members : List (String × Json ν)}
    (hkeys : (members.map Prod.fst).Nodup) :
    (sortMembers members []).Perm (members.map (onValue sortKeys)) := by
  have hall : ((members ++ []).map Prod.fst).Nodup := by
    rwa [List.append_nil]
  have hperm := perm_sortMembers hall
  rwa [List.append_nil] at hperm

/-! ## Nesting -/

theorem depthMembers_perm {members others : List (String × Json ν)}
    (h : members.Perm others) : depthMembers members = depthMembers others := by
  induction h with
  | nil => rfl
  | cons entry _ ih =>
      obtain ⟨key, value⟩ := entry
      rw [depthMembers_cons, depthMembers_cons, ih]
  | swap first second rest =>
      obtain ⟨key, value⟩ := first
      obtain ⟨other, found⟩ := second
      rw [depthMembers_cons, depthMembers_cons, depthMembers_cons,
        depthMembers_cons, max_left_comm]
  | trans _ _ ih₁ ih₂ => exact ih₁.trans ih₂

mutual
/-- No object has a key twice. -/
def Distinct : Json ν → Prop
  | .array items => DistinctItems items
  | .object members => (members.map Prod.fst).Nodup ∧ DistinctMembers members
  | _ => True

def DistinctItems : List (Json ν) → Prop
  | [] => True
  | item :: rest => item.Distinct ∧ DistinctItems rest

def DistinctMembers : List (String × Json ν) → Prop
  | [] => True
  | (_, value) :: rest => value.Distinct ∧ DistinctMembers rest
end

mutual
theorem depth_sortKeys : ∀ doc : Json ν, doc.Distinct →
    doc.sortKeys.depth = doc.depth
  | .null, _ => by rw [sortKeys]
  | .bool _, _ => by rw [sortKeys]
  | .number _, _ => by rw [sortKeys]
  | .string _, _ => by rw [sortKeys]
  | .array items, h => by
      rw [Distinct] at h
      rw [sortKeys, depth_array, depth_array, depthItems_sortItems items h]
  | .object members, h => by
      rw [Distinct] at h
      rw [sortKeys, depth_object, depth_object,
        depthMembers_perm (perm_sorted h.1), depthMembers_onValue members h.2]

theorem depthItems_sortItems : ∀ items : List (Json ν), DistinctItems items →
    depthItems (sortItems items) = depthItems items
  | [], _ => rfl
  | item :: rest, h => by
      rw [sortItems, depthItems_cons, depthItems_cons, depth_sortKeys item h.1,
        depthItems_sortItems rest h.2]

theorem depthMembers_onValue : ∀ members : List (String × Json ν),
    DistinctMembers members →
      depthMembers (members.map (onValue sortKeys)) = depthMembers members
  | [], _ => rfl
  | (_, value) :: rest, h => by
      rw [List.map_cons, onValue, depthMembers_cons, depthMembers_cons,
        depth_sortKeys value h.1, depthMembers_onValue rest h.2]
end

mutual
theorem Sorted.distinct : ∀ doc : Json ν, doc.Sorted → doc.Distinct
  | .null, _ => by simp [Distinct]
  | .bool _, _ => by simp [Distinct]
  | .number _, _ => by simp [Distinct]
  | .string _, _ => by simp [Distinct]
  | .array items, h => by
      rw [Sorted] at h
      rw [Distinct]
      exact SortedItems.distinct items h
  | .object members, h => by
      rw [Sorted] at h
      rw [Distinct]
      exact ⟨h.1.imp fun hlt => ne_of_lt hlt, SortedMembers.distinct members h.2⟩

theorem SortedItems.distinct : ∀ items : List (Json ν), SortedItems items →
    DistinctItems items
  | [], _ => trivial
  | item :: rest, h => ⟨Sorted.distinct item h.1, SortedItems.distinct rest h.2⟩

theorem SortedMembers.distinct : ∀ members : List (String × Json ν),
    SortedMembers members → DistinctMembers members
  | [], _ => trivial
  | (_, value) :: rest, h =>
      ⟨Sorted.distinct value h.1, SortedMembers.distinct rest h.2⟩
end

theorem depthItems_le_iff {items : List (Json ν)} {n : ℕ} :
    depthItems items ≤ n ↔ ∀ item ∈ items, item.depth ≤ n := by
  induction items with
  | nil => simp
  | cons item rest ih => simp [ih]

mutual
theorem depth_mapNumbers {f : ν → ν} : ∀ doc : Json ν,
    (doc.mapNumbers f).depth = doc.depth
  | .null => by rw [mapNumbers]
  | .bool _ => by rw [mapNumbers]
  | .number _ => by rw [mapNumbers, depth_number, depth_number]
  | .string _ => by rw [mapNumbers]
  | .array items => by
      rw [mapNumbers, depth_array, depth_array, depthItems_mapItems items]
  | .object members => by
      rw [mapNumbers, depth_object, depth_object, depthMembers_mapMembers members]

theorem depthItems_mapItems {f : ν → ν} : ∀ items : List (Json ν),
    depthItems (mapItems f items) = depthItems items
  | [] => rfl
  | item :: rest => by
      rw [mapItems, depthItems_cons, depthItems_cons, depth_mapNumbers item,
        depthItems_mapItems rest]

theorem depthMembers_mapMembers {f : ν → ν} :
    ∀ members : List (String × Json ν),
      depthMembers (mapMembers f members) = depthMembers members
  | [] => rfl
  | (_, value) :: rest => by
      rw [mapMembers, depthMembers_cons, depthMembers_cons,
        depth_mapNumbers value, depthMembers_mapMembers rest]
end

/-! ## Numbers of sorted documents -/

theorem mapMembers_insertMember (f : ν → ν) (key : String) (value : Json ν)
    (map : List (String × Json ν)) :
    mapMembers f (insertMember key value map) =
      insertMember key (value.mapNumbers f) (mapMembers f map) := by
  induction map with
  | nil => rfl
  | cons entry rest ih =>
      obtain ⟨k, v⟩ := entry
      rw [insertMember, mapMembers, insertMember]
      split_ifs
      · rfl
      · rfl
      · rw [mapMembers, ih]

mutual
theorem mapNumbers_sortKeys {f : ν → ν} : ∀ doc : Json ν,
    doc.sortKeys.mapNumbers f = (doc.mapNumbers f).sortKeys
  | .null => by rw [sortKeys, mapNumbers, sortKeys]
  | .bool _ => by rw [sortKeys, mapNumbers, sortKeys]
  | .number _ => by rw [sortKeys, mapNumbers, sortKeys]
  | .string _ => by rw [sortKeys, mapNumbers, sortKeys]
  | .array items => by
      rw [sortKeys, mapNumbers, mapNumbers, sortKeys, mapItems_sortItems items]
  | .object members => by
      rw [sortKeys, mapNumbers, mapNumbers, sortKeys,
        mapMembers_sortMembers members []]
      rfl

theorem mapItems_sortItems {f : ν → ν} : ∀ items : List (Json ν),
    mapItems f (sortItems items) = sortItems (mapItems f items)
  | [] => rfl
  | item :: rest => by
      rw [sortItems, mapItems, mapItems, sortItems, mapNumbers_sortKeys item,
        mapItems_sortItems rest]

theorem mapMembers_sortMembers {f : ν → ν} :
    ∀ members map : List (String × Json ν),
      mapMembers f (sortMembers members map) =
        sortMembers (mapMembers f members) (mapMembers f map)
  | [], _ => by rw [sortMembers, mapMembers, sortMembers]
  | (key, value) :: rest, map => by
      rw [sortMembers, mapMembers_sortMembers rest, mapMembers_insertMember,
        mapNumbers_sortKeys value, mapMembers, sortMembers]
end

end Json
