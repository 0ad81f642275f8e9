/-!
Finite maps kept in key order. The entries are strictly ascending, so two maps with the same
look-ups are the same map (`SortedMap.ext_get?`).
-/

namespace PluginHost

variable {κ : Type u} {υ : Type v} [Ord κ]

def Ascending (entries : List (κ × υ)) : Prop :=
  entries.Pairwise fun a b => compare a.1 b.1 = .lt

namespace SortedMap

def insertList (key : κ) (value : υ) : List (κ × υ) → List (κ × υ)
  | [] => [(key, value)]
  | entry :: rest =>
      match compare key entry.1 with
      | .lt => (key, value) :: entry :: rest
      | .eq => (key, value) :: rest
      | .gt => entry :: insertList key value rest

def getList (key : κ) : List (κ × υ) → Option υ
  | [] => none
  | entry :: rest => if compare key entry.1 = .eq then some entry.2 else getList key rest

theorem mem_insertList {key : κ} {value : υ} {entry : κ × υ} {entries : List (κ × υ)}
    (h : entry ∈ insertList key value entries) : entry = (key, value) ∨ entry ∈ entries := by
  induction entries with
  | nil => exact Or.inl (by simpa [insertList] using h)
  | cons first rest ih =>
      simp only [insertList] at h
      split at h
      · simpa using h
      · rcases List.mem_cons.mp h with h | h
        · exact Or.inl h
        · exact Or.inr (List.mem_cons_of_mem _ h)
      · rcases List.mem_cons.mp h with h | h
        · exact Or.inr (by simp [h])
        · rcases ih h with h | h
          · exact Or.inl h
          · exact Or.inr (List.mem_cons_of_mem _ h)

theorem ascending_insertList [Std.TransOrd κ] {key : κ} {value : υ} {entries : List (κ × υ)}
    (h : Ascending entries) : Ascending (insertList key value entries) := by
  induction entries with
  | nil => simp [insertList, Ascending]
  | cons first rest ih =>
      obtain ⟨hfirst, hrest⟩ := List.pairwise_cons.mp h
      simp only [insertList]
      split
      · rename_i hlt
        refine List.pairwise_cons.mpr ⟨fun entry hentry => ?_, h⟩
        rcases List.mem_cons.mp hentry with rfl | hentry
        · exact hlt
        · exact Std.TransCmp.lt_trans hlt (hfirst entry hentry)
      · rename_i heq
        refine List.pairwise_cons.mpr ⟨fun entry hentry => ?_, hrest⟩
        exact Std.TransCmp.lt_of_eq_of_lt heq (hfirst entry hentry)
      · rename_i hgt
        refine List.pairwise_cons.mpr ⟨fun entry hentry => ?_, ih hrest⟩
        rcases mem_insertList hentry with rfl | hentry
        · exact Std.OrientedCmp.lt_of_gt hgt
        · exact hfirst entry hentry

end SortedMap

structure SortedMap (κ : Type u) (υ : Type v) [Ord κ] where
  entries : List (κ × υ)
  ascending : Ascending entries

namespace SortedMap

def empty : SortedMap κ υ :=
  ⟨[], List.Pairwise.nil⟩

instance : EmptyCollection (SortedMap κ υ) := ⟨empty⟩

instance : Inhabited (SortedMap κ υ) := ⟨empty⟩

instance [DecidableEq κ] [DecidableEq υ] : DecidableEq (SortedMap κ υ) := fun a b =>
  decidable_of_iff (a.entries = b.entries) (by cases a; cases b; simp)

def insert [Std.TransOrd κ] (map : SortedMap κ υ) (key : κ) (value : υ) : SortedMap κ υ :=
  ⟨insertList key value map.entries, ascending_insertList map.ascending⟩

def get? (map : SortedMap κ υ) (key : κ) : Option υ :=
  getList key map.entries

def contains (map : SortedMap κ υ) (key : κ) : Bool :=
  (map.get? key).isSome

def erase (map : SortedMap κ υ) (key : κ) : SortedMap κ υ :=
  ⟨map.entries.filter fun entry => compare key entry.1 != .eq, map.ascending.filter _⟩

def keys (map : SortedMap κ υ) : List κ :=
  map.entries.map Prod.fst

def values (map : SortedMap κ υ) : List υ :=
  map.entries.map Prod.snd

def size (map : SortedMap κ υ) : Nat :=
  map.entries.length

def isEmpty (map : SortedMap κ υ) : Bool :=
  map.entries.isEmpty

/-- Later entries replace earlier ones with the same key. -/
def ofList [Std.TransOrd κ] (entries : List (κ × υ)) : SortedMap κ υ :=
  entries.foldl (fun map entry => map.insert entry.1 entry.2) empty

@[simp] theorem get?_empty (key : κ) : (empty : SortedMap κ υ).get? key = none := rfl

theorem entries_injective {a b : SortedMap κ υ} (h : a.entries = b.entries) : a = b := by
  cases a
  cases b
  simp_all

section Lookup

variable [Std.LawfulEqOrd κ]

theorem getList_insertList_self (key : κ) (value : υ) (entries : List (κ × υ)) :
    getList key (insertList key value entries) = some value := by
  induction entries with
  | nil => simp [insertList, getList]
  | cons first rest ih =>
      simp only [insertList]
      split
      · simp [getList]
      · simp [getList]
      · rename_i hgt
        simp [getList, hgt, ih]

theorem getList_insertList_of_ne {key other : κ} (h : other ≠ key) (value : υ)
    (entries : List (κ × υ)) :
    getList other (insertList key value entries) = getList other entries := by
  have hne : compare other key ≠ .eq := fun heq => h (Std.LawfulEqOrd.eq_of_compare heq)
  induction entries with
  | nil => simp [insertList, getList, hne]
  | cons first rest ih =>
      simp only [insertList]
      split
      · simp [getList, hne]
      · rename_i heq
        have hkey : key = first.1 := Std.LawfulEqOrd.eq_of_compare heq
        simp [getList, hne, ← hkey]
      · simp only [getList, ih]

@[simp] theorem get?_insert_self [Std.TransOrd κ] (map : SortedMap κ υ) (key : κ) (value : υ) :
    (map.insert key value).get? key = some value :=
  getList_insertList_self key value map.entries

theorem get?_insert_of_ne [Std.TransOrd κ] (map : SortedMap κ υ) {key other : κ} (h : other ≠ key) (value : υ) :
    (map.insert key value).get? other = map.get? other :=
  getList_insertList_of_ne h value map.entries

theorem getList_eq_some_iff {entries : List (κ × υ)} (h : Ascending entries) {key : κ}
    {value : υ} : getList key entries = some value ↔ (key, value) ∈ entries := by
  induction entries with
  | nil => simp [getList]
  | cons first rest ih =>
      obtain ⟨hfirst, hrest⟩ := List.pairwise_cons.mp h
      simp only [getList]
      split
      · rename_i heq
        have hkey : key = first.1 := Std.LawfulEqOrd.eq_of_compare heq
        constructor
        · intro hvalue
          cases hvalue
          simp [hkey]
        · intro hmem
          rcases List.mem_cons.mp hmem with hmem | hmem
          · rw [← hmem]
          · have := hfirst _ hmem
            rw [hkey] at this
            simp at this
      · rename_i hne
        rw [ih hrest, List.mem_cons]
        refine ⟨Or.inr, fun hmem => hmem.resolve_left fun heq => hne ?_⟩
        simp [← heq]

theorem get?_eq_some_iff {map : SortedMap κ υ} {key : κ} {value : υ} :
    map.get? key = some value ↔ (key, value) ∈ map.entries :=
  getList_eq_some_iff map.ascending

theorem eq_of_mem_iff [Std.TransOrd κ] {a b : List (κ × υ)} (ha : Ascending a) (hb : Ascending b)
    (h : ∀ entry, entry ∈ a ↔ entry ∈ b) : a = b := by
  induction a generalizing b with
  | nil =>
      cases b with
      | nil => rfl
      | cons first rest => exact absurd ((h first).mpr (by simp)) (by simp)
  | cons first rest ih =>
      cases b with
      | nil => exact absurd ((h first).mp (by simp)) (by simp)
      | cons other more =>
          obtain ⟨hfirst, hrest⟩ := List.pairwise_cons.mp ha
          obtain ⟨hother, hmore⟩ := List.pairwise_cons.mp hb
          have heq : first = other := by
            rcases List.mem_cons.mp ((h first).mp (by simp)) with heq | hin
            · exact heq
            · rcases List.mem_cons.mp ((h other).mpr (by simp)) with heq | hin'
              · exact heq.symm
              · have hlt := Std.TransCmp.lt_trans (hother _ hin) (hfirst _ hin')
                simp at hlt
          subst heq
          congr 1
          refine ih hrest hmore fun entry => ⟨fun hin => ?_, fun hin => ?_⟩
          · rcases List.mem_cons.mp ((h entry).mp (List.mem_cons_of_mem _ hin)) with heq | hin'
            · have := hfirst _ hin
              rw [heq] at this
              simp at this
            · exact hin'
          · rcases List.mem_cons.mp ((h entry).mpr (List.mem_cons_of_mem _ hin)) with heq | hin'
            · have := hother _ hin
              rw [heq] at this
              simp at this
            · exact hin'

theorem ext_get? [Std.TransOrd κ] {a b : SortedMap κ υ} (h : ∀ key, a.get? key = b.get? key) : a = b := by
  apply entries_injective
  refine eq_of_mem_iff a.ascending b.ascending fun entry => ?_
  obtain ⟨key, value⟩ := entry
  rw [← get?_eq_some_iff, ← get?_eq_some_iff, h]

end Lookup

end SortedMap

abbrev SortedSet (κ : Type u) [Ord κ] :=
  SortedMap κ Unit

namespace SortedSet

def add [Std.TransOrd κ] (set : SortedSet κ) (key : κ) : SortedSet κ :=
  SortedMap.insert set key ()

def ofList [Std.TransOrd κ] (keys : List κ) : SortedSet κ :=
  keys.foldl add SortedMap.empty

def toList (set : SortedSet κ) : List κ :=
  SortedMap.keys set

end SortedSet

end PluginHost
