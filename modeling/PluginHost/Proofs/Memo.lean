import Mathlib.Data.Finset.Card
import PluginHost.Collection.Memo
import PluginHost.Proofs.Collection

/-!
Sequences of calls on a memory. The first fetch of a key computes its result and writes it, and this
result is what every later call on the key is answered from (`run_answers`). Computations may depend
on a world and change it, so a computation that does not run shows in a world that stays as it was.
-/

namespace PluginHost

namespace Memo

variable {κ υ σ : Type} [DecidableEq κ]

/-! Slots. -/

/-- No key has two slots. -/
def Distinct (memo : Memo κ υ) : Prop :=
  memo.slots.keys.Nodup

omit [DecidableEq κ] in
theorem distinct_empty : (empty : Memo κ υ).Distinct :=
  List.nodup_nil

theorem Distinct.reserve {memo : Memo κ υ} (h : memo.Distinct) (key : κ) :
    (memo.reserve key).Distinct := by
  unfold Memo.reserve
  split
  · exact h
  · exact Table.nodup_keys_put h

theorem Distinct.fill {memo : Memo κ υ} (h : memo.Distinct) (key : κ) (value : υ) :
    (memo.fill key value).Distinct :=
  Table.nodup_keys_put h

theorem Distinct.mem_keys_filled_iff {memo : Memo κ υ} (h : memo.Distinct) {key : κ} :
    key ∈ memo.filled.map Prod.fst ↔ ∃ value, memo.get? key = some value := by
  constructor
  · intro hkey
    obtain ⟨slot, hslot, rfl⟩ := List.mem_map.mp hkey
    obtain ⟨hmem, hsome⟩ := List.mem_filter.mp hslot
    obtain ⟨value, hvalue⟩ := Option.isSome_iff_exists.mp hsome
    refine ⟨value, ?_⟩
    rw [get?, Table.get?_of_mem h hmem, hvalue]
    rfl
  · rintro ⟨value, hvalue⟩
    have hslot : memo.slots.get? key = some (some value) := Option.join_eq_some_iff.mp hvalue
    exact List.mem_map.mpr ⟨_, List.mem_filter.mpr ⟨Table.mem_entries_of_get? hslot, rfl⟩, rfl⟩

/-- Slots without a result do not count. -/
theorem Distinct.size_eq_card {memo : Memo κ υ} (h : memo.Distinct) {keys : Finset κ}
    (hkeys : ∀ key, key ∈ keys ↔ ∃ value, memo.get? key = some value) : memo.size = keys.card := by
  have hnodup : (memo.filled.map Prod.fst).Nodup := List.Nodup.sublist (List.filter_sublist.map _) h
  have hset : (memo.filled.map Prod.fst).toFinset = keys := by
    ext key
    rw [List.mem_toFinset, h.mem_keys_filled_iff, hkeys]
  rw [← hset, List.toFinset_card_of_nodup hnodup, List.length_map, size]

/-! Calls. -/

inductive Call (κ υ σ : Type) where
  | fetch (key : κ) (compute : StateM σ υ)
  | get (key : κ)
  | contains (key : κ)
  | size
  | isEmpty

/-- The key that a call is about. -/
def Call.key? : Call κ υ σ → Option κ
  | .fetch key _ => some key
  | .get key => some key
  | .contains key => some key
  | .size => none
  | .isEmpty => none

inductive Answer (υ : Type) where
  | fetched (value : υ) (computed : Bool)
  | found (value : Option υ)
  | truth (holds : Bool)
  | count (n : Nat)
  deriving DecidableEq

def perform (memo : Memo κ υ) : Call κ υ σ → StateM σ (Answer υ × Memo κ υ)
  | .fetch key compute => do
      let fetched ← memo.fetch key compute
      pure (.fetched fetched.value fetched.computed, fetched.memo)
  | .get key => pure (.found (memo.get? key), memo)
  | .contains key => pure (.truth (memo.contains key), memo)
  | .size => pure (.count memo.size, memo)
  | .isEmpty => pure (.truth memo.isEmpty, memo)

/-- The answer to a call, and the world that it leaves. -/
def answer (memo : Memo κ υ) (call : Call κ υ σ) (world : σ) : Answer υ × σ :=
  let ((answer, _), after) := (memo.perform call).run world
  (answer, after)

theorem answer_fetch_of_some {memo : Memo κ υ} {key : κ} {value : υ}
    (h : memo.get? key = some value) (compute : StateM σ υ) (world : σ) :
    memo.answer (.fetch key compute) world = (.fetched value false, world) := by
  simp only [answer, perform, fetch_of_some h]
  rfl

theorem answer_fetch_of_none {memo : Memo κ υ} {key : κ} (h : memo.get? key = none)
    (compute : StateM σ υ) (world : σ) :
    memo.answer (.fetch key compute) world =
      (.fetched (compute.run world).1 true, (compute.run world).2) := by
  simp only [answer, perform, fetch_of_none h]
  rfl

/-- What is kept for its key is all that the answer to a call depends on. -/
theorem answer_congr {memo memo' : Memo κ υ} {key : κ} (h : memo.get? key = memo'.get? key)
    {call : Call κ υ σ} (hcall : call.key? = some key) (world : σ) :
    memo.answer call world = memo'.answer call world := by
  cases call with
  | fetch other compute =>
      cases hcall
      cases hvalue : memo.get? key with
      | none => rw [answer_fetch_of_none hvalue, answer_fetch_of_none (h ▸ hvalue)]
      | some value => rw [answer_fetch_of_some hvalue, answer_fetch_of_some (h ▸ hvalue)]
  | get other =>
      cases hcall
      simp only [answer, perform, h]
      rfl
  | contains other =>
      cases hcall
      simp only [answer, perform, Memo.contains, h]
      rfl
  | size => cases hcall
  | isEmpty => cases hcall

/-! Sessions. -/

/-- A memory in its world, with the calls so far and their answers. -/
structure Session (κ υ σ : Type) where
  memo : Memo κ υ
  world : σ
  history : List (Call κ υ σ × Answer υ)

namespace Session

def start (world : σ) : Session κ υ σ :=
  ⟨.empty, world, []⟩

def step (s : Session κ υ σ) (call : Call κ υ σ) : Session κ υ σ :=
  let ((answer, memo), world) := (s.memo.perform call).run s.world
  ⟨memo, world, s.history ++ [(call, answer)]⟩

def run (s : Session κ υ σ) (calls : List (Call κ υ σ)) : Session κ υ σ :=
  calls.foldl step s

/-- The keys that have been fetched, with what the fetches returned. -/
def fetches (s : Session κ υ σ) : List (κ × υ) :=
  s.history.filterMap fun
    | (.fetch key _, .fetched value _) => some (key, value)
    | _ => none

/-- What the first fetch of a key returned. -/
def first? (s : Session κ υ σ) (key : κ) : Option υ :=
  s.fetches.lookup key

def fetchedKeys (s : Session κ υ σ) : Finset κ :=
  (s.fetches.map Prod.fst).toFinset

theorem mem_fetchedKeys_iff {s : Session κ υ σ} {key : κ} :
    key ∈ s.fetchedKeys ↔ ∃ value, s.first? key = some value := by
  rw [← Option.isSome_iff_exists, first?, List.lookup_isSome_iff, fetchedKeys, List.mem_toFinset,
    List.mem_map]
  exact exists_congr fun fetch => and_congr_right fun _ => by rw [beq_iff_eq, eq_comm]

theorem first?_fetched (s : Session κ υ σ) (key other : κ) (compute : StateM σ υ) (value : υ)
    (computed : Bool) (memo : Memo κ υ) (world : σ) :
    first? ⟨memo, world, s.history ++ [(.fetch key compute, .fetched value computed)]⟩ other =
      (s.first? other).or (if other = key then some value else none) := by
  have hfetches : fetches ⟨memo, world,
      s.history ++ [(.fetch key compute, .fetched value computed)]⟩ = s.fetches ++ [(key, value)] :=
    List.filterMap_append
  rw [first?, hfetches, List.lookup_append, List.lookup_cons, first?]
  by_cases heq : other = key
  · simp [heq]
  · simp [heq, beq_eq_false_iff_ne.mpr heq]

/-- The memory keeps what the first fetches returned. -/
structure Sound (s : Session κ υ σ) : Prop where
  distinct : s.memo.Distinct
  first : ∀ key, s.memo.get? key = s.first? key

theorem sound_start (world : σ) : (start world : Session κ υ σ).Sound :=
  ⟨distinct_empty, fun _ => rfl⟩

theorem step_fetch_of_some {s : Session κ υ σ} {key : κ} {value : υ}
    (h : s.memo.get? key = some value) (compute : StateM σ υ) :
    s.step (.fetch key compute) =
      ⟨s.memo, s.world, s.history ++ [(.fetch key compute, .fetched value false)]⟩ := by
  simp only [step, perform, fetch_of_some h]
  rfl

theorem step_fetch_of_none {s : Session κ υ σ} {key : κ} (h : s.memo.get? key = none)
    (compute : StateM σ υ) :
    s.step (.fetch key compute) =
      ⟨(s.memo.reserve key).fill key (compute.run s.world).1, (compute.run s.world).2,
        s.history ++ [(.fetch key compute, .fetched (compute.run s.world).1 true)]⟩ := by
  simp only [step, perform, fetch_of_none h]
  rfl

theorem Sound.asked {s : Session κ υ σ} (h : s.Sound) {call : Call κ υ σ}
    (hcall : ∀ key compute, call ≠ .fetch key compute) (answer : Answer υ) :
    Sound ⟨s.memo, s.world, s.history ++ [(call, answer)]⟩ := by
  refine ⟨h.distinct, fun key => ?_⟩
  have hfetches : fetches ⟨s.memo, s.world, s.history ++ [(call, answer)]⟩ = s.fetches := by
    cases call with
    | fetch key compute => exact absurd rfl (hcall key compute)
    | get | contains | size | isEmpty => exact List.filterMap_append.trans (List.append_nil _)
  rw [first?, hfetches]
  exact h.first key

theorem Sound.step {s : Session κ υ σ} (h : s.Sound) (call : Call κ υ σ) : (s.step call).Sound := by
  cases call with
  | fetch key compute =>
      cases hkept : s.memo.get? key with
      | some value =>
          -- What this fetch returns is recorded after the first fetch of the key.
          rw [step_fetch_of_some hkept]
          refine ⟨h.distinct, fun other => ?_⟩
          rw [first?_fetched, ← h.first]
          split
          · rename_i heq
            simp [heq, hkept]
          · simp
      | none =>
          rw [step_fetch_of_none hkept]
          refine ⟨(h.distinct.reserve key).fill key _, fun other => ?_⟩
          rw [first?_fetched, ← h.first, get?_fill, get?_reserve]
          split
          · rename_i heq
            simp [heq, hkept]
          · simp
  | get key => exact h.asked (by simp) _
  | contains key => exact h.asked (by simp) _
  | size => exact h.asked (by simp) _
  | isEmpty => exact h.asked (by simp) _

theorem Sound.run {s : Session κ υ σ} (h : s.Sound) (calls : List (Call κ υ σ)) :
    (s.run calls).Sound := by
  induction calls generalizing s with
  | nil => exact h
  | cons call rest ih => exact ih (h.step call)

theorem Sound.size_eq {s : Session κ υ σ} (h : s.Sound) : s.memo.size = s.fetchedKeys.card :=
  h.distinct.size_eq_card fun key => by rw [mem_fetchedKeys_iff, h.first]

theorem get?_step (s : Session κ υ σ) {call : Call κ υ σ} {key : κ} (h : call.key? ≠ some key) :
    (s.step call).memo.get? key = s.memo.get? key := by
  cases call with
  | fetch other compute =>
      cases hkept : s.memo.get? other with
      | some value => rw [step_fetch_of_some hkept]
      | none =>
          have hne : key ≠ other := fun heq => h (congrArg some heq.symm)
          rw [step_fetch_of_none hkept, get?_fill, if_neg hne, get?_reserve]
  | get | contains | size | isEmpty => rfl

theorem get?_run (s : Session κ υ σ) {calls : List (Call κ υ σ)} {key : κ}
    (h : ∀ call ∈ calls, call.key? ≠ some key) : (s.run calls).memo.get? key = s.memo.get? key := by
  induction calls generalizing s with
  | nil => rfl
  | cons call rest ih =>
      obtain ⟨hcall, hrest⟩ := List.forall_mem_cons.mp h
      exact (ih (s.step call) hrest).trans (s.get?_step hcall)

/-- Whatever has been asked of a new memory before: a fetch returns what the first fetch of its key
returned, and runs its computation only if it is itself the first one. The other calls tell what
first fetches returned and how many keys have had one. Calls on other keys, however many, change
nothing in what a call on a key is answered. -/
theorem run_answers (world : σ) (calls : List (Call κ υ σ)) :
    let s := (start world).run calls
    (∀ key compute, s.memo.answer (.fetch key compute) s.world =
      match s.first? key with
      | some value => (.fetched value false, s.world)
      | none => (.fetched (compute.run s.world).1 true, (compute.run s.world).2)) ∧
      (∀ key, s.memo.answer (.get key) s.world = (.found (s.first? key), s.world)) ∧
      (∀ key, s.memo.answer (.contains key) s.world =
        (.truth (s.first? key).isSome, s.world)) ∧
      s.memo.answer .size s.world = (.count s.fetchedKeys.card, s.world) ∧
      s.memo.answer .isEmpty s.world = (.truth (s.fetchedKeys.card = 0), s.world) ∧
      ∀ (key : κ) (others : List (Call κ υ σ)), (∀ call ∈ others, call.key? ≠ some key) →
        ∀ call : Call κ υ σ, call.key? = some key →
          ∀ later, (s.run others).memo.answer call later = s.memo.answer call later := by
  intro s
  have hsound : s.Sound := (sound_start world).run calls
  refine ⟨fun key compute => ?_, fun key => ?_, fun key => ?_, ?_, ?_, ?_⟩
  · rw [← hsound.first]
    cases hkept : s.memo.get? key with
    | some value => exact answer_fetch_of_some hkept compute s.world
    | none => exact answer_fetch_of_none hkept compute s.world
  · rw [← hsound.first]
    rfl
  · rw [← hsound.first]
    rfl
  · rw [← hsound.size_eq]
    rfl
  · rw [← hsound.size_eq]
    rfl
  · exact fun key others hothers call hcall later => answer_congr (s.get?_run hothers) hcall later

/-- Computes a result and counts that it has done so. -/
def counted (value : Option String) : StateM Nat (Option String) := do
  modify (· + 1)
  pure value

/-- Nothing is found for ink, which a second fetch does not change; wells are found. -/
def inkCalls : List (Call String (Option String) Nat) :=
  [.get "Ink", .fetch "Ink" (counted none), .fetch "Well" (counted (some "Desk")),
    .fetch "Ink" (counted (some "Pen"))]

/-- Calls on other keys than ink. -/
def otherCalls : List (Call String (Option String) Nat) :=
  [.fetch "Pen" (counted none), .size, .contains "Well"]

theorem run_answers_ink :
    let s := (start 0).run inkCalls
    s.first? "Ink" = some none ∧ s.first? "Pen" = none ∧ s.world = 2 ∧ s.fetchedKeys.card = 2 ∧
      s.memo.answer (.fetch "Ink" (counted (some "Pen"))) 2 = (.fetched none false, 2) ∧
      s.memo.answer (.fetch "Pen" (counted (some "Desk"))) 2 = (.fetched (some "Desk") true, 3) ∧
      s.memo.answer .size 2 = (.count 2, 2) ∧
      (∀ call ∈ otherCalls, call.key? ≠ some "Ink") ∧
      (s.run otherCalls).memo.answer (.get "Ink") 3 = (.found (some none), 3) := by
  intro s
  obtain ⟨hfetch, hget, -, hsize, -, hothers⟩ := run_answers 0 inkCalls
  have hall : ∀ call ∈ otherCalls, call.key? ≠ some "Ink" := by decide
  refine ⟨rfl, rfl, rfl, rfl, hfetch "Ink" _, hfetch "Pen" _, hsize, hall, ?_⟩
  exact hothers "Ink" otherCalls hall (.get "Ink") rfl 3

end Session

end Memo

end PluginHost
