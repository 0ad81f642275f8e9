import PluginHost.Proofs.Storage.Following

/-!
Files with several names. What is done to such a file is seen under all its names, and what is done
to a name is not seen under the others. So the names of a file always have the same contents.
-/

namespace PluginHost.Storage.Tree

variable {t t' : Tree} {a b x y : Address}

theorem exists_file_of_numberAt {number : Nat} (h : t.numberAt a = some number) :
    ∃ contents, t.get? a = some (.file contents) := by
  unfold numberAt at h
  split at h
  · exact ⟨_, ‹_›⟩
  · cases h

theorem shares_iff :
    t.shares a b = true ↔ ∃ number, t.numberAt a = some number ∧ t.numberAt b = some number := by
  rw [shares, Bool.and_eq_true, beq_iff_eq, Option.isSome_iff_exists]
  constructor
  · rintro ⟨⟨number, ha⟩, hb⟩
    exact ⟨number, ha, hb.trans ha⟩
  · rintro ⟨number, ha, hb⟩
    exact ⟨⟨number, ha⟩, hb.trans ha.symm⟩

theorem shares_symm (h : t.shares a b = true) : t.shares b a = true := by
  obtain ⟨number, ha, hb⟩ := shares_iff.mp h
  exact shares_iff.mpr ⟨number, hb, ha⟩

theorem shares_trans (h : t.shares a b = true) (h' : t.shares b x = true) :
    t.shares a x = true := by
  obtain ⟨number, ha, hb⟩ := shares_iff.mp h
  obtain ⟨other, hb', hx⟩ := shares_iff.mp h'
  obtain rfl := Option.some.inj (hb.symm.trans hb')
  exact shares_iff.mpr ⟨number, ha, hx⟩

theorem exists_file_of_shares (h : t.shares a b = true) :
    ∃ contents, t.get? b = some (.file contents) := by
  obtain ⟨number, -, hb⟩ := shares_iff.mp h
  exact exists_file_of_numberAt hb

theorem shares_of_none (h : t.get? a = none) : t.shares a b = false := by
  simp [shares, numberAt, h]

/-! Names that are given and taken. -/

theorem numberAt_put (ha : a ≠ []) (entry : Entry) (x : Address) :
    (t.put a entry).numberAt x = if x = a then none else t.numberAt x := by
  unfold numberAt
  rw [get?_put ha]
  by_cases hx : x = a
  · simp only [hx, put, Table.get?_erase, if_true]
    split <;> rfl
  · simp only [put, Table.get?_erase, if_neg hx]

theorem numberAt_erase (ha : a ≠ []) (x : Address) :
    (t.erase a).numberAt x = if x = a then none else t.numberAt x := by
  unfold numberAt
  rw [get?_erase ha]
  by_cases hx : x = a
  · simp only [hx, if_true]
  · simp only [erase, Table.get?_erase, if_neg hx]

theorem get?_move (ha : a ≠ []) (hb : b ≠ []) (entry : Entry) (x : Address) :
    (t.move a b entry).get? x =
      if x = b then some entry else if x = a then none else t.get? x := by
  have hmoved : (t.move a b entry).get? x = ((t.erase a).put b entry).get? x := by
    unfold move
    split <;> rfl
  rw [hmoved, get?_put hb, get?_erase ha]

@[simp] theorem limits_move (entry : Entry) : (t.move a b entry).limits = t.limits := by
  unfold move
  split <;> rfl

@[simp] theorem here_move (entry : Entry) : (t.move a b entry).here = t.here := by
  unfold move
  split <;> rfl

theorem numberAt_move (ha : a ≠ []) (hb : b ≠ []) {entry : Entry} (hentry : t.get? a = some entry)
    (x : Address) : (t.move a b entry).numberAt x =
      if x = b then t.numberAt a else if x = a then none else t.numberAt x := by
  cases hnumber : t.numberAt a with
  | none =>
      have hmove : t.move a b entry = (t.erase a).put b entry := by
        simp only [move, hnumber]
      rw [hmove, numberAt_put hb, numberAt_erase ha]
  | some number =>
      obtain ⟨contents, hfile⟩ := exists_file_of_numberAt hnumber
      obtain rfl := Option.some.inj (hentry.symm.trans hfile)
      have hnumbers : (t.move a b (.file contents)).entries.numbers.get? x =
          if x = b then some number else if x = a then none else t.entries.numbers.get? x := by
        simp only [move, hnumber, put, erase, Table.get?_put, Table.get?_erase]
        by_cases hx : x = b <;> simp [hx]
      rw [numberAt, get?_move ha hb, hnumbers]
      by_cases hx : x = b
      · simp only [hx, if_true]
      by_cases hxa : x = a
      · simp only [if_neg hx, if_pos hxa]
      · simp only [if_neg hx, if_neg hxa, numberAt]

/-! Contents that are given. -/

theorem fill_of_numberAt_eq_none (h : t.numberAt a = none) (contents : Contents) :
    t.fill a contents = t.put a (.file contents) := by
  rw [fill, h]

@[simp] theorem limits_fill (contents : Contents) : (t.fill a contents).limits = t.limits := by
  unfold fill
  split <;> rfl

@[simp] theorem here_fill (contents : Contents) : (t.fill a contents).here = t.here := by
  unfold fill
  split <;> rfl

/-- A file that is filled shows its contents under all its names. -/
theorem get?_fill (ha : a ≠ []) (contents : Contents) (x : Address) :
    (t.fill a contents).get? x =
      if x = a ∨ t.shares a x = true then some (.file contents) else t.get? x := by
  cases hnumber : t.numberAt a with
  | none => simp [fill_of_numberAt_eq_none hnumber, get?_put ha, shares, hnumber]
  | some number =>
      have hself : t.shares a a = true := shares_iff.mpr ⟨number, hnumber, hnumber⟩
      have hnames : x = a ∨ t.shares a x = true ↔ t.shares a x = true :=
        or_iff_right_of_imp fun heq => heq ▸ hself
      simp only [hnames]
      by_cases hx : x = []
      · have hroot : t.shares a [] = false := by
          rw [Bool.eq_false_iff]
          intro hshares
          obtain ⟨old, hold⟩ := exists_file_of_shares hshares
          simp [get?] at hold
        simp [hx, get?, hroot]
      · have hentry : (t.fill a contents).get? x = (t.get? x).map fun entry =>
            if t.shares a x then .file contents else entry := by
          simp only [fill, hnumber, get?, if_neg hx, Table.get?_map]
        rw [hentry]
        split
        · rename_i hshares
          obtain ⟨old, hold⟩ := exists_file_of_shares hshares
          rw [hold, Option.map_some]
        · exact Option.map_id'

/-- Filling a file gives it no name and takes none from it. -/
theorem numberAt_fill (ha : a ≠ []) (contents : Contents) (x : Address) :
    (t.fill a contents).numberAt x = t.numberAt x := by
  cases hnumber : t.numberAt a with
  | none =>
      rw [fill_of_numberAt_eq_none hnumber, numberAt_put ha]
      split
      · rename_i hx
        rw [hx, hnumber]
      · rfl
  | some number =>
      have hnumbers : (t.fill a contents).entries.numbers = t.entries.numbers := by
        simp only [fill, hnumber]
      rw [numberAt, numberAt, get?_fill ha, hnumbers]
      by_cases hx : x = a ∨ t.shares a x = true
      · obtain ⟨old, hold⟩ : ∃ old, t.get? x = some (.file old) := by
          rcases hx with rfl | hshares
          · exact exists_file_of_numberAt hnumber
          · exact exists_file_of_shares hshares
        rw [if_pos hx, hold]
      · rw [if_neg hx]

theorem shares_fill (ha : a ≠ []) (contents : Contents) (x y : Address) :
    (t.fill a contents).shares x y = t.shares x y := by
  rw [shares, shares, numberAt_fill ha, numberAt_fill ha]

/-! The names of one file have the same contents. -/

def Coherent (t : Tree) : Prop :=
  ∀ a b, t.shares a b = true → t.get? a = t.get? b

/-- It is enough that each name that is left stands for a name of the same file from before. -/
theorem Coherent.of_names (h : t.Coherent)
    (hnames : ∀ x number, t'.numberAt x = some number →
      ∃ z, t.numberAt z = some number ∧ t'.get? x = t.get? z) : t'.Coherent := by
  intro x y hshares
  obtain ⟨number, hx, hy⟩ := shares_iff.mp hshares
  obtain ⟨u, hu, heq⟩ := hnames x number hx
  obtain ⟨v, hv, heq'⟩ := hnames y number hy
  rw [heq, heq']
  exact h u v (shares_iff.mpr ⟨number, hu, hv⟩)

theorem coherent_put (h : t.Coherent) (ha : a ≠ []) (entry : Entry) : (t.put a entry).Coherent := by
  refine h.of_names fun x number hx => ⟨x, ?_⟩
  rw [numberAt_put ha] at hx
  split at hx
  · cases hx
  · exact ⟨hx, by rw [get?_put ha, if_neg ‹_›]⟩

theorem coherent_erase (h : t.Coherent) (ha : a ≠ []) : (t.erase a).Coherent := by
  refine h.of_names fun x number hx => ⟨x, ?_⟩
  rw [numberAt_erase ha] at hx
  split at hx
  · cases hx
  · exact ⟨hx, by rw [get?_erase ha, if_neg ‹_›]⟩

theorem coherent_move (h : t.Coherent) (ha : a ≠ []) (hb : b ≠ []) {entry : Entry}
    (hentry : t.get? a = some entry) : (t.move a b entry).Coherent := by
  refine h.of_names fun x number hx => ?_
  rw [numberAt_move ha hb hentry] at hx
  rw [get?_move ha hb]
  split at hx
  · rename_i hnew
    exact ⟨a, hx, by rw [if_pos hnew, hentry]⟩
  split at hx
  · cases hx
  · rename_i hnew hold
    exact ⟨x, hx, by rw [if_neg hnew, if_neg hold]⟩

theorem coherent_fill (h : t.Coherent) (ha : a ≠ []) (contents : Contents) :
    (t.fill a contents).Coherent := by
  intro x y hshares
  rw [shares_fill ha] at hshares
  have hnamed : ∀ {x y}, t.shares x y = true → x = a ∨ t.shares a x = true →
      t.shares a y = true := by
    rintro x y hshares (rfl | hx)
    · exact hshares
    · exact shares_trans hx hshares
  rw [get?_fill ha, get?_fill ha]
  by_cases hx : x = a ∨ t.shares a x = true
  · rw [if_pos hx, if_pos (.inr (hnamed hshares hx))]
  · rw [if_neg hx, if_neg fun hy => hx (.inr (hnamed (shares_symm hshares) hy))]
    exact h x y hshares

end PluginHost.Storage.Tree
