import PluginHost.Collection.SortedMap
import PluginHost.Collection.Table

/-!
Look-ups in tables and ordered maps, and membership in ordered sets.
-/

namespace PluginHost

theorem Table.mem_entries_of_get? {κ : Type u} {υ : Type v} [DecidableEq κ] {table : Table κ υ}
    {key : κ} {value : υ} (h : table.get? key = some value) : (key, value) ∈ table.entries := by
  have hlist : ∀ entries : List (κ × υ), getList key entries = some value →
      (key, value) ∈ entries := by
    intro entries
    induction entries with
    | nil => exact fun h => (by cases h)
    | cons entry rest ih =>
        intro h
        unfold getList at h
        split at h
        · rename_i hkey
          rw [hkey, ← Option.some.inj h]
          exact List.mem_cons_self
        · exact List.mem_cons_of_mem _ (ih h)
  exact hlist table.entries h

theorem Table.get?_ne_none_of_mem_keys {κ : Type u} {υ : Type v} [DecidableEq κ]
    {table : Table κ υ} {key : κ} (h : key ∈ table.keys) : table.get? key ≠ none := by
  have hlist : ∀ entries : List (κ × υ), key ∈ entries.map Prod.fst →
      getList key entries ≠ none := by
    intro entries
    induction entries with
    | nil => exact fun h => (by cases h)
    | cons entry rest ih =>
        intro h
        unfold getList
        split
        · simp
        · rename_i hkey
          exact ih ((List.mem_cons.mp h).resolve_left hkey)
  exact hlist table.entries h

section Table

variable {κ : Type u} {υ : Type v} [DecidableEq κ] {table : Table κ υ} {key : κ} {value : υ}

namespace Table

theorem mem_keys_put {other : κ} :
    other ∈ (table.put key value).keys ↔ other = key ∨ other ∈ table.keys := by
  obtain ⟨entries⟩ := table
  simp only [keys, put]
  induction entries with
  | nil => simp [putList]
  | cons entry rest ih =>
      simp only [putList]
      split
      · rename_i heq
        simp [heq]
      · simp only [List.map_cons, List.mem_cons, ih]
        exact or_left_comm

theorem nodup_keys_put (h : table.keys.Nodup) : (table.put key value).keys.Nodup := by
  obtain ⟨entries⟩ := table
  induction entries with
  | nil => simp [keys, put, putList]
  | cons entry rest ih =>
      obtain ⟨hfirst, hrest⟩ := List.nodup_cons.mp h
      simp only [keys, put, putList]
      split
      · rename_i heq
        rw [List.map_cons, heq]
        exact h
      · rename_i hne
        refine List.nodup_cons.mpr ⟨fun hmem => ?_, ih hrest⟩
        have hput : entry.1 ∈ ((⟨rest⟩ : Table κ υ).put key value).keys := hmem
        rcases mem_keys_put.mp hput with heq | hmem
        · exact hne heq.symm
        · exact hfirst hmem

theorem get?_of_mem (h : table.keys.Nodup) (hmem : (key, value) ∈ table.entries) :
    table.get? key = some value := by
  obtain ⟨entries⟩ := table
  induction entries with
  | nil => cases hmem
  | cons entry rest ih =>
      obtain ⟨hfirst, hrest⟩ := List.nodup_cons.mp h
      unfold get? getList
      rcases List.mem_cons.mp hmem with rfl | hmem
      · rw [if_pos rfl]
      · have hne : key ≠ entry.1 := fun heq => hfirst (List.mem_map.mpr ⟨_, hmem, heq⟩)
        rw [if_neg hne]
        exact ih hrest hmem

end Table

end Table

variable {κ : Type u} {υ : Type v} [Ord κ] [Std.TransOrd κ] [Std.LawfulEqOrd κ] [DecidableEq κ]

namespace SortedMap

theorem get?_insert (map : SortedMap κ υ) (key other : κ) (value : υ) :
    (map.insert key value).get? other = if other = key then some value else map.get? other := by
  split
  · rename_i heq
    rw [heq, get?_insert_self]
  · rename_i hne
    exact get?_insert_of_ne map hne value

theorem insert_eq_self {map : SortedMap κ υ} {key : κ} {value : υ} (h : map.get? key = some value) :
    map.insert key value = map := by
  apply ext_get?
  intro other
  rw [get?_insert]
  split
  · rename_i heq
    rw [heq, h]
  · rfl

omit [Std.TransOrd κ] [DecidableEq κ] in
theorem mem_keys_iff {map : SortedMap κ υ} {key : κ} :
    key ∈ map.keys ↔ ∃ value, map.get? key = some value := by
  simp [keys, get?_eq_some_iff]

omit [Std.TransOrd κ] in
theorem findSome?_entries {α : Type w} (map : SortedMap κ υ) (key : κ) (f : υ → Option α) :
    (map.entries.findSome? fun entry => if entry.1 = key then f entry.2 else none) =
      (map.get? key).bind f := by
  obtain ⟨entries, hascending⟩ := map
  change _ = (getList key entries).bind f
  induction entries with
  | nil => rfl
  | cons first rest ih =>
      obtain ⟨hfirst, hrest⟩ := List.pairwise_cons.mp hascending
      rw [List.findSome?_cons, getList]
      by_cases hkey : first.1 = key
      · -- No later entry has the key, which matters if `f` has nothing for the first.
        have hnone : (rest.findSome? fun entry => if entry.1 = key then f entry.2 else none) =
            none := by
          rw [List.findSome?_eq_none_iff]
          intro entry hentry
          refine if_neg fun hsame => ?_
          have hlt := hfirst entry hentry
          simp [hkey, hsame] at hlt
        rw [hnone, if_pos hkey, if_pos (by simp [hkey])]
        cases hf : f first.2 <;> exact hf.symm
      · rw [if_neg hkey, if_neg fun heq => hkey (Std.LawfulEqOrd.eq_of_compare heq).symm]
        exact ih hrest

omit [Std.LawfulEqOrd κ] [DecidableEq κ] in
theorem insertList_last {entries : List (κ × υ)} {key : κ} {value : υ}
    (h : ∀ entry ∈ entries, compare entry.1 key = .lt) :
    insertList key value entries = entries ++ [(key, value)] := by
  induction entries with
  | nil => rfl
  | cons first rest ih =>
      obtain ⟨hfirst, hrest⟩ := List.forall_mem_cons.mp h
      have hgt : compare key first.1 = .gt := Std.OrientedCmp.gt_of_lt hfirst
      simp only [insertList, hgt, ih hrest, List.cons_append]

omit [Std.LawfulEqOrd κ] [DecidableEq κ] in
theorem entries_foldl_insert {more : List (κ × υ)} {map : SortedMap κ υ}
    (h : Ascending (map.entries ++ more)) :
    (more.foldl (fun map entry => map.insert entry.1 entry.2) map).entries =
      map.entries ++ more := by
  induction more generalizing map with
  | nil => simp
  | cons entry rest ih =>
      obtain ⟨-, -, hlower⟩ := List.pairwise_append.mp h
      have hinsert : (map.insert entry.1 entry.2).entries = map.entries ++ [entry] :=
        insertList_last fun other hother => hlower other hother entry List.mem_cons_self
      have hnext : Ascending ((map.insert entry.1 entry.2).entries ++ rest) := by
        rw [hinsert, List.append_assoc]
        exact h
      rw [List.foldl_cons, ih hnext, hinsert, List.append_assoc]
      rfl

omit [Std.LawfulEqOrd κ] [DecidableEq κ] in
theorem ofList_entries (map : SortedMap κ υ) : ofList map.entries = map := by
  have hempty : Ascending ((empty : SortedMap κ υ).entries ++ map.entries) := map.ascending
  exact entries_injective (entries_foldl_insert hempty)

end SortedMap

namespace SortedSet

omit [Std.LawfulEqOrd κ] [DecidableEq κ] in
theorem ofList_toList (set : SortedSet κ) : ofList (toList set) = set := by
  unfold ofList toList SortedMap.keys
  rw [List.foldl_map]
  exact SortedMap.ofList_entries set

omit [Std.TransOrd κ] [Std.LawfulEqOrd κ] [DecidableEq κ] in
theorem pairwise_toList (set : SortedSet κ) :
    (toList set).Pairwise fun a b => compare a b = .lt :=
  List.pairwise_map.mpr set.ascending

omit [Std.TransOrd κ] [DecidableEq κ] in
theorem nodup_toList (set : SortedSet κ) : (toList set).Nodup := by
  refine (pairwise_toList set).imp fun {a b} hlt heq => ?_
  simp [heq] at hlt

omit [Std.TransOrd κ] [Std.LawfulEqOrd κ] [DecidableEq κ] in
@[simp] theorem toList_empty : toList (SortedMap.empty : SortedSet κ) = [] := rfl

@[simp] theorem mem_add {set : SortedSet κ} {key other : κ} :
    other ∈ toList (add set key) ↔ other = key ∨ other ∈ toList set := by
  simp only [toList, SortedMap.mem_keys_iff, add, SortedMap.get?_insert]
  split
  · simp [*]
  · simp [*]

omit [DecidableEq κ] in
/-- Sets with the same members are the same set. -/
theorem ext_mem {a b : SortedSet κ} (h : ∀ key, key ∈ toList a ↔ key ∈ toList b) : a = b := by
  apply SortedMap.ext_get?
  intro key
  have hkey := h key
  simp only [toList, SortedMap.mem_keys_iff] at hkey
  cases ha : a.get? key with
  | none =>
      cases hb : b.get? key with
      | none => rfl
      | some => simp [ha, hb] at hkey
  | some =>
      cases hb : b.get? key with
      | none => simp [ha, hb] at hkey
      | some => rfl

theorem mem_foldl_add {keys : List κ} {set : SortedSet κ} {key : κ} :
    key ∈ toList (keys.foldl add set) ↔ key ∈ keys ∨ key ∈ toList set := by
  induction keys generalizing set with
  | nil => simp
  | cons first rest ih =>
      simp only [List.foldl_cons, ih, mem_add, List.mem_cons]
      constructor
      · rintro (h | h | h) <;> simp [h]
      · rintro ((h | h) | h) <;> simp [h]

end SortedSet

end PluginHost
