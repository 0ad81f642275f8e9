/-!
Look-up tables: pairs of key and value, at most one for each key, in order of first entry.
-/

namespace PluginHost

structure Table (κ : Type u) (υ : Type v) where
  entries : List (κ × υ)

namespace Table

variable {κ : Type u} {υ : Type v} [DecidableEq κ]

def empty : Table κ υ := ⟨[]⟩

instance : EmptyCollection (Table κ υ) := ⟨empty⟩

instance : Inhabited (Table κ υ) := ⟨empty⟩

def getList (key : κ) : List (κ × υ) → Option υ
  | [] => none
  | entry :: rest => if key = entry.1 then some entry.2 else getList key rest

def putList (key : κ) (value : υ) : List (κ × υ) → List (κ × υ)
  | [] => [(key, value)]
  | entry :: rest =>
      if key = entry.1 then (key, value) :: rest else entry :: putList key value rest

def get? (table : Table κ υ) (key : κ) : Option υ :=
  getList key table.entries

def contains (table : Table κ υ) (key : κ) : Bool :=
  (table.get? key).isSome

def put (table : Table κ υ) (key : κ) (value : υ) : Table κ υ :=
  ⟨putList key value table.entries⟩

def erase (table : Table κ υ) (key : κ) : Table κ υ :=
  ⟨table.entries.filter fun entry => key ≠ entry.1⟩

def map (table : Table κ υ) (f : κ → υ → υ) : Table κ υ :=
  ⟨table.entries.map fun entry => (entry.1, f entry.1 entry.2)⟩

def keys (table : Table κ υ) : List κ :=
  table.entries.map Prod.fst

def size (table : Table κ υ) : Nat :=
  table.entries.length

theorem getList_putList_self (key : κ) (value : υ) (entries : List (κ × υ)) :
    getList key (putList key value entries) = some value := by
  induction entries with
  | nil => simp [putList, getList]
  | cons entry rest ih =>
      simp only [putList]
      split
      · simp [getList]
      · rename_i hne
        simp [getList, hne, ih]

theorem getList_putList_of_ne {key other : κ} (h : other ≠ key) (value : υ)
    (entries : List (κ × υ)) :
    getList other (putList key value entries) = getList other entries := by
  induction entries with
  | nil => simp [putList, getList, h]
  | cons entry rest ih =>
      simp only [putList]
      split
      · rename_i heq
        simp [getList, h, ← heq]
      · simp [getList, ih]

theorem getList_filter (key other : κ) (entries : List (κ × υ)) :
    getList other (entries.filter fun entry => key ≠ entry.1) =
      if other = key then none else getList other entries := by
  induction entries with
  | nil => simp [getList]
  | cons entry rest ih =>
      simp only [List.filter_cons]
      split
      · rename_i hkeep
        simp only [decide_eq_true_eq] at hkeep
        simp only [getList, ih]
        split
        · rename_i heq
          simp [heq, Ne.symm hkeep]
        · rfl
      · rename_i hdrop
        simp only [decide_eq_true_eq, ne_eq, Decidable.not_not] at hdrop
        simp only [ih, getList, ← hdrop]
        split <;> simp_all

theorem getList_map (f : κ → υ → υ) (key : κ) (entries : List (κ × υ)) :
    getList key (entries.map fun entry => (entry.1, f entry.1 entry.2)) =
      (getList key entries).map (f key) := by
  induction entries with
  | nil => rfl
  | cons entry rest ih =>
      simp only [List.map_cons, getList]
      split
      · rename_i heq
        rw [heq, Option.map_some]
      · exact ih

@[simp] theorem get?_empty (key : κ) : (empty : Table κ υ).get? key = none := rfl

@[simp] theorem get?_put_self (table : Table κ υ) (key : κ) (value : υ) :
    (table.put key value).get? key = some value :=
  getList_putList_self key value table.entries

theorem get?_put_of_ne (table : Table κ υ) {key other : κ} (h : other ≠ key) (value : υ) :
    (table.put key value).get? other = table.get? other :=
  getList_putList_of_ne h value table.entries

theorem get?_put (table : Table κ υ) (key other : κ) (value : υ) :
    (table.put key value).get? other = if other = key then some value else table.get? other := by
  split
  · rename_i heq
    rw [heq, get?_put_self]
  · rename_i hne
    exact get?_put_of_ne table hne value

theorem get?_erase (table : Table κ υ) (key other : κ) :
    (table.erase key).get? other = if other = key then none else table.get? other :=
  getList_filter key other table.entries

theorem get?_map (table : Table κ υ) (f : κ → υ → υ) (key : κ) :
    (table.map f).get? key = (table.get? key).map (f key) :=
  getList_map f key table.entries

end Table

end PluginHost
