import Mathlib.Data.List.Induction
import PluginHost.Proofs.Storage.Listing

/-!
Paths that go on from another one by names, as the paths of a listing do. The names can be read off
the components, so no two such paths are equal in the order of paths, and the parent leads the way of
the path without its last name.
-/

namespace PluginHost

namespace Path

namespace Component

theorem eq_of_rank {a b : Component} (hrank : a.rank = b.rank) (hlabel : a.label = b.label) :
    a = b := by
  cases a <;> cases b <;> first | rfl | exact congrArg name hlabel | cases hrank

instance : Std.LawfulEqOrd Component where
  eq_of_compare {a b} h := by
    obtain ⟨hrank, hlabel⟩ := Ordering.then_eq_eq.mp h
    exact eq_of_rank (Std.LawfulEqOrd.eq_of_compare hrank) (Std.LawfulEqOrd.eq_of_compare hlabel)

end Component

theorem components_of_compare {p q : Path} (h : compare p q = .eq) : p.components = q.components :=
  Std.LawfulEqOrd.eq_of_compare h

/-! One more name. -/

section

variable {p : Path} {name : String}

theorem pieces_join (hname : PlainName name) (hp : p.text ≠ "") : ∃ before, before ≠ [] ∧
    (p.join name).pieces = before ++ [name.toList] ∧
      (p.pieces = before ∨ p.pieces = before ++ [[]]) := by
  have hfields : Text.fields '/' name.toList = [name.toList] := Text.fields_of_not_mem hname.slash
  unfold join pieces
  rw [isAbsolute_eq_false hname, if_neg Bool.false_ne_true]
  split
  · rename_i hend
    obtain ⟨front, hfront⟩ := List.getLast?_eq_some_iff.mp (hend.resolve_left hp)
    refine ⟨Text.fields '/' front, Text.fields_ne_nil _ _, ?_, .inr ?_⟩
    · have hjoin := Text.fields_join '/' front name.toList
      simpa [hfront, hfields] using hjoin
    · rw [hfront, Text.fields_join]
      rfl
  · refine ⟨Text.fields '/' p.text.toList, Text.fields_ne_nil _ _, ?_, .inl rfl⟩
    have hjoin := Text.fields_join '/' p.text.toList name.toList
    simpa [hfields] using hjoin

theorem text_join_ne (hname : PlainName name) (p : Path) : (p.join name).text ≠ "" := by
  obtain ⟨-, -, front, htext⟩ := join_eq hname p
  intro hempty
  rw [hempty] at htext
  exact hname.ne (toList_eq_nil_iff.mp (List.append_eq_nil_iff.mp htext.symm).2)

theorem isAbsolute_join (hname : PlainName name) (hp : p.text ≠ "") :
    (p.join name).isAbsolute = p.isAbsolute := by
  obtain ⟨c, rest, hlist⟩ := List.exists_cons_of_ne_nil fun hnil => hp (toList_eq_nil_iff.mp hnil)
  unfold join
  rw [isAbsolute_eq_false hname, if_neg Bool.false_ne_true]
  split <;> simp [isAbsolute, hlist]

theorem components_join (hname : PlainName name) (hp : p.text ≠ "") :
    (p.join name).components = p.components ++ [.name name] := by
  obtain ⟨before, hne, hjoin, hpieces⟩ := pieces_join hname hp
  obtain ⟨first, rest, rfl⟩ := List.exists_cons_of_ne_nil hne
  have hlast : [name.toList].filterMap (component? false) = [.name name] := by
    rw [List.filterMap_cons_some (hname.component? false), List.filterMap_nil]
  rcases hpieces with hpieces | hpieces <;>
    simp [components, hjoin, hpieces, isAbsolute_join hname hp, hlast, component?]

theorem size_join (hname : PlainName name) :
    p.text.utf8ByteSize < (p.join name).text.utf8ByteSize := by
  have hpos : 0 < name.utf8ByteSize := Nat.pos_of_ne_zero (by simpa using hname.ne)
  unfold join
  rw [isAbsolute_eq_false hname, if_neg Bool.false_ne_true]
  split <;> simp only [String.utf8ByteSize_append] <;> omega

theorem fileName_join (hname : PlainName name) (p : Path) : (p.join name).fileName = some name := by
  obtain ⟨before, hpieces, -⟩ := join_eq hname p
  exact fileName_of_pieces hpieces hname

theorem hasSuffix_join (hname : PlainName name) (p : Path) (suffix : String) :
    (p.join name).hasSuffix suffix = Text.endsWithLetters name suffix := by
  rw [hasSuffix, fileName_join hname, Option.any_some]

end

/-! Several names. -/

def spell (p : Path) (names : List String) : Path :=
  names.foldl join p

@[simp] theorem spell_nil (p : Path) : p.spell [] = p := rfl

theorem spell_concat (p : Path) (names : List String) (name : String) :
    p.spell (names ++ [name]) = (p.spell names).join name :=
  List.foldl_concat ..

variable {p : Path} {names others : List String}

theorem text_spell_ne (hp : p.text ≠ "") (hnames : ∀ name ∈ names, PlainName name) :
    (p.spell names).text ≠ "" := by
  induction names using List.reverseRecOn with
  | nil => exact hp
  | append_singleton names name _ =>
      rw [spell_concat]
      exact text_join_ne (hnames name (by simp)) _

theorem components_spell (hp : p.text ≠ "") (hnames : ∀ name ∈ names, PlainName name) :
    (p.spell names).components = p.components ++ names.map .name := by
  induction names using List.reverseRecOn with
  | nil => simp [spell]
  | append_singleton names name ih =>
      have hfront : ∀ other ∈ names, PlainName other := fun other hother =>
        hnames other (List.mem_append_left _ hother)
      rw [spell_concat, components_join (hnames name (by simp)) (text_spell_ne hp hfront), ih hfront]
      simp

theorem size_spell (hnames : ∀ name ∈ names, PlainName name) :
    p.text.utf8ByteSize + names.length ≤ (p.spell names).text.utf8ByteSize := by
  induction names using List.reverseRecOn with
  | nil => exact Nat.le_refl _
  | append_singleton names name ih =>
      have hfront := ih fun other hother => hnames other (List.mem_append_left _ hother)
      have hlast := size_join (p := p.spell names) (hnames name (by simp))
      rw [spell_concat, List.length_append, List.length_singleton]
      omega

/-- No two such paths are equal in the order of paths. -/
theorem names_of_compare (hp : p.text ≠ "") (hnames : ∀ name ∈ names, PlainName name)
    (hothers : ∀ name ∈ others, PlainName name)
    (h : compare (p.spell names) (p.spell others) = .eq) : names = others := by
  have hsame := components_of_compare h
  rw [components_spell hp hnames, components_spell hp hothers] at hsame
  refine List.map_injective_iff.mpr (fun a b hab => ?_) (List.append_cancel_left hsame)
  exact Component.name.inj hab

end Path

end PluginHost
