import Mathlib.Data.List.Sort
import PluginHost.Proofs.Path
import PluginHost.Storage.Listing

/-!
The order of listings. Paths are ordered by their components; a listing is in this order, and
leaving out some of its files does not change the order of the others.
-/

namespace PluginHost

theorem isLE_trans {α : Type} [Ord α] [Std.TransOrd α] (a b c : α) :
    (compare a b).isLE = true → (compare b c).isLE = true → (compare a c).isLE = true :=
  Std.TransCmp.isLE_trans

theorem isLE_total {α : Type} [Ord α] [Std.TransOrd α] (a b : α) :
    ((compare a b).isLE || (compare b a).isLE) = true := by
  have hswap : compare b a = (compare a b).swap := Std.OrientedCmp.eq_swap
  rw [hswap]
  cases compare a b <;> rfl

/-- What is sorted is in strict order if no two of it are equal. -/
theorem pairwise_mergeSort_lt {α : Type} [Ord α] [Std.TransOrd α] {l : List α}
    (h : l.Pairwise fun a b => compare a b ≠ .eq) :
    (l.mergeSort fun a b => (compare a b).isLE).Pairwise fun a b => compare a b = .lt := by
  have hne : (l.mergeSort fun a b => (compare a b).isLE).Pairwise fun a b => compare a b ≠ .eq :=
    ((List.mergeSort_perm l _).pairwise_iff fun {a b} hab hba =>
      hab (Std.OrientedCmp.eq_symm hba)).mpr h
  refine ((List.pairwise_mergeSort isLE_trans isLE_total l).and hne).imp fun {a b} hab => ?_
  obtain ⟨hle, hne⟩ := hab
  cases heq : compare a b <;> simp [heq] at hle hne ⊢

namespace Path

instance : Std.TransOrd Component :=
  inferInstanceAs (Std.TransCmp (compareLex (compareOn Component.rank) (compareOn Component.label)))

instance : Std.TransOrd Path :=
  inferInstanceAs (Std.TransCmp (compareOn components))

/-- A path of this name ends in every suffix of the name. -/
theorem hasSuffix_of_isNamed {p : Path} {name suffix : String}
    (h : p.isNamed (name ++ suffix) = true) : p.hasSuffix suffix = true := by
  unfold isNamed at h
  unfold hasSuffix
  cases hfile : p.fileName with
  | none => simp [hfile] at h
  | some file =>
      rw [hfile, Option.any_some, Text.sameLetters_iff] at h
      have hlower : Text.lower file.toList = Text.lower name.toList ++ Text.lower suffix.toList := by
        rw [h, String.toList_append]
        exact List.map_append
      rw [Option.any_some, Text.endsWithLetters, hlower, List.isSuffixOf_iff_suffix]
      exact List.suffix_append _ _

end Path

namespace Storage

section

variable {α : Type} {le : α → α → Bool}

theorem takeWhile_split {a : α} {front back : List α} (hfront : ∀ b ∈ front, (!le a b) = true)
    (hback : ∀ b ∈ back, le a b = true) :
    (front ++ back).takeWhile (fun b => !le a b) = front ∧
      (front ++ back).dropWhile (fun b => !le a b) = back := by
  rw [List.takeWhile_append_of_pos hfront, List.dropWhile_append_of_pos hfront]
  cases back with
  | nil => simp
  | cons b rest => simp [hback b List.mem_cons_self]

variable (htrans : ∀ a b c, le a b = true → le b c = true → le a c = true)
  (htotal : ∀ a b, (le a b || le b a) = true)
include htrans htotal

/-- Where a stable sort puts the first element: behind all that have to stand before it. -/
theorem mergeSort_cons_split (a : α) (l : List α) :
    ∃ front back, (a :: l).mergeSort le = front ++ a :: back ∧ l.mergeSort le = front ++ back ∧
      (∀ b ∈ front, (!le a b) = true) ∧ ∀ b ∈ back, le a b = true := by
  obtain ⟨front, back, hsorted, hrest, hfront⟩ := List.mergeSort_cons htrans htotal a l
  refine ⟨front, back, hsorted, hrest, hfront, ?_⟩
  have hpairwise := List.pairwise_mergeSort htrans htotal (a :: l)
  rw [hsorted, List.pairwise_append] at hpairwise
  exact (List.pairwise_cons.mp hpairwise.2.1).1

theorem mergeSort_eq_insertionSort (l : List α) :
    l.mergeSort le = l.insertionSort fun a b => le a b = true := by
  induction l with
  | nil => simp
  | cons a l ih =>
      obtain ⟨front, back, hsorted, hrest, hfront, hback⟩ := mergeSort_cons_split htrans htotal a l
      obtain ⟨htake, hdrop⟩ := takeWhile_split hfront hback
      rw [hsorted, List.insertionSort_cons, ← ih, hrest, List.orderedInsert_eq_take_drop]
      simp only [Bool.not_eq_true, Bool.decide_eq_false, htake, hdrop]

/-- Some elements may be left out before or after a stable sort. -/
theorem filter_mergeSort (p : α → Bool) (l : List α) :
    (l.mergeSort le).filter p = (l.filter p).mergeSort le := by
  induction l with
  | nil => simp
  | cons a l ih =>
      obtain ⟨front, back, hsorted, hrest, hfront, hback⟩ := mergeSort_cons_split htrans htotal a l
      rw [hsorted, List.filter_append]
      cases hkept : p a with
      | false =>
          rw [List.filter_cons_of_neg (by simp [hkept]), List.filter_cons_of_neg (by simp [hkept]),
            ← List.filter_append, ← hrest, ih]
      | true =>
          rw [List.filter_cons_of_pos hkept, List.filter_cons_of_pos hkept]
          obtain ⟨before, after, hagain, hmore, hbefore, hafter⟩ :=
            mergeSort_cons_split htrans htotal a (l.filter p)
          have hsame : before ++ after = front.filter p ++ back.filter p := by
            rw [← hmore, ← ih, hrest, List.filter_append]
          obtain ⟨htake, hdrop⟩ := takeWhile_split hbefore hafter
          obtain ⟨htake', hdrop'⟩ := takeWhile_split
            (fun b (hb : b ∈ front.filter p) => hfront b (List.mem_filter.mp hb).1)
            fun b (hb : b ∈ back.filter p) => hback b (List.mem_filter.mp hb).1
          rw [hsame] at htake hdrop
          rw [hagain, ← htake, ← hdrop, htake', hdrop']

end

namespace Tree

variable (t : Tree) (folder : Path)

theorem filter_listing (suffix : String) (p : Path → Bool) :
    (t.listing folder suffix).filter p = if t.isFolder folder then
      (((t.visit t.visitBound [folder] ⟨[], []⟩).files.filter fun path =>
        p path && path.hasSuffix suffix).mergeSort fun a b => (compare a b).isLE)
      else [] := by
  unfold listing
  split
  · rw [filter_mergeSort isLE_trans isLE_total, List.filter_filter]
  · rfl

/-- Of the files with one of these names none is missing in a listing for this suffix. -/
theorem filter_listing_of_suffix {suffix : String} {p : Path → Bool}
    (hp : ∀ path, p path = true → path.hasSuffix suffix = true) :
    (t.listing folder suffix).filter p = (t.listing folder "").filter p := by
  have hany : ∀ path : Path, path.hasSuffix suffix = true → path.hasSuffix "" = true := by
    intro path hpath
    unfold Path.hasSuffix at hpath ⊢
    cases hfile : path.fileName with
    | none => simp [hfile] at hpath
    | some file => simp [Text.endsWithLetters, Text.lower]
  have hsame : ∀ path : Path, (p path && path.hasSuffix suffix) = (p path && path.hasSuffix "") := by
    intro path
    cases hpath : p path with
    | false => rfl
    | true => simp [hp path hpath, hany path (hp path hpath)]
  simp only [filter_listing, hsame]

/-- A listing in a form that can be evaluated. -/
theorem listing_eq_insertionSort (suffix : String) :
    t.listing folder suffix = if t.isFolder folder then
      ((t.visit t.visitBound [folder] ⟨[], []⟩).files.filter (·.hasSuffix suffix)).insertionSort
        fun a b => (compare a b).isLE = true
      else [] := by
  simp only [listing, mergeSort_eq_insertionSort isLE_trans isLE_total]

end Tree

end Storage

end PluginHost
