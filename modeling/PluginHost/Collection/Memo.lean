import PluginHost.Collection.Table

/-!
A memory of results: what has been computed for a key stays. Results that say "nothing there" are
kept like any other. A key gets a slot before its result is computed, and a slot without a result
counts as nothing kept.
-/

namespace PluginHost

structure Memo (κ : Type u) (υ : Type v) where
  slots : Table κ (Option υ)

namespace Memo

variable {κ : Type} {υ : Type} [DecidableEq κ]

def empty : Memo κ υ := ⟨.empty⟩

def get? (memo : Memo κ υ) (key : κ) : Option υ :=
  (memo.slots.get? key).join

def contains (memo : Memo κ υ) (key : κ) : Bool :=
  (memo.get? key).isSome

/-- The slots that have a result. -/
def filled (memo : Memo κ υ) : List (κ × Option υ) :=
  memo.slots.entries.filter fun slot => slot.2.isSome

def size (memo : Memo κ υ) : Nat :=
  memo.filled.length

def isEmpty (memo : Memo κ υ) : Bool :=
  memo.size == 0

/-- Makes a slot for `key`, unless there is one. -/
def reserve (memo : Memo κ υ) (key : κ) : Memo κ υ :=
  if memo.slots.contains key then memo else ⟨memo.slots.put key none⟩

def fill (memo : Memo κ υ) (key : κ) (value : υ) : Memo κ υ :=
  ⟨memo.slots.put key (some value)⟩

structure Fetched (κ υ : Type) where
  value : υ
  /-- Whether the value has just been computed. -/
  computed : Bool
  memo : Memo κ υ

/-- The result for `key`; `compute` runs only if there is none yet. -/
def fetch [Monad m] (memo : Memo κ υ) (key : κ) (compute : m υ) : m (Fetched κ υ) :=
  let reserved := memo.reserve key
  match reserved.get? key with
  | some value => pure ⟨value, false, reserved⟩
  | none => do
      let value ← compute
      pure ⟨value, true, reserved.fill key value⟩

@[simp] theorem get?_empty (key : κ) : (empty : Memo κ υ).get? key = none := rfl

@[simp] theorem get?_reserve (memo : Memo κ υ) (key other : κ) :
    (memo.reserve key).get? other = memo.get? other := by
  unfold reserve
  split
  · rfl
  · rename_i hnone
    unfold get?
    rw [Table.get?_put]
    split
    · rename_i heq
      simp [Table.contains] at hnone
      simp [heq, hnone]
    · rfl

theorem get?_fill (memo : Memo κ υ) (key other : κ) (value : υ) :
    (memo.fill key value).get? other = if other = key then some value else memo.get? other := by
  unfold get? fill
  rw [Table.get?_put]
  split <;> rfl

theorem reserve_eq_self {memo : Memo κ υ} {key : κ} {value : υ} (h : memo.get? key = some value) :
    memo.reserve key = memo := by
  have hslot : memo.slots.contains key = true := by
    unfold get? at h
    cases hslot : memo.slots.get? key with
    | none => simp [hslot] at h
    | some => simp [Table.contains, hslot]
  rw [reserve, if_pos hslot]

theorem fetch_of_some [Monad m] {memo : Memo κ υ} {key : κ} {value : υ}
    (h : memo.get? key = some value) (compute : m υ) :
    memo.fetch key compute = pure ⟨value, false, memo⟩ := by
  simp only [fetch, reserve_eq_self h, h]

theorem fetch_of_none [Monad m] {memo : Memo κ υ} {key : κ}
    (h : memo.get? key = none) (compute : m υ) :
    memo.fetch key compute = compute >>= fun value =>
      pure ⟨value, true, (memo.reserve key).fill key value⟩ := by
  simp only [fetch, get?_reserve, h]

end Memo

end PluginHost
