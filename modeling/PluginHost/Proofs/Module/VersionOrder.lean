import PluginHost.Proofs.Module.IdentityText
import PluginHost.Proofs.Module.VersionText
import PluginHost.Proofs.Resolution.Fitting

/-!
Which texts versions are read from, and how versions are ordered. A text is numerals between dots,
with blanks around them. Two versions are in the order of the first fields in which they differ, so
a candidate that is not lower there is not lower at all.
-/

namespace PluginHost

namespace Version

/-! Texts. -/

/-- The version as it may be written: one to four numerals between dots, blanks around them. Fields
for which there is no numeral are zero. -/
def Written (s : List Char) (version : Version) : Prop :=
  ∃ numerals numbers, Text.Padded (['.'].intercalate numerals) s ∧
    List.Forall₂ SpellsField numerals numbers ∧ 1 ≤ numbers.length ∧ numbers.length ≤ 4 ∧
      version.fields = numbers ++ List.replicate (4 - numbers.length) 0

theorem mem_of_spellsField {s : List Char} {n : UInt32} (h : SpellsField s n) {c : Char}
    (hc : c ∈ s) : c = '+' ∨ c.isDigit = true := by
  obtain ⟨digits, rfl | rfl, -, hdigits, -⟩ := h
  · exact .inr (hdigits c hc)
  · exact (List.mem_cons.mp hc).imp id (hdigits c)

theorem mem_numeral {numerals : List (List Char)} {numbers : List UInt32}
    (h : List.Forall₂ SpellsField numerals numbers) {numeral : List Char}
    (hnumeral : numeral ∈ numerals) {c : Char} (hc : c ∈ numeral) :
    c = '+' ∨ c.isDigit = true := by
  induction h with
  | nil => cases hnumeral
  | cons hfirst _ ih =>
      rcases List.mem_cons.mp hnumeral with rfl | hrest
      · exact mem_of_spellsField hfirst hc
      · exact ih hrest

theorem trim_intercalate {numerals : List (List Char)} {numbers : List UInt32}
    (h : List.Forall₂ SpellsField numerals numbers) :
    Text.trim (['.'].intercalate numerals) = ['.'].intercalate numerals := by
  have hblank : ∀ c ∈ ['.'].intercalate numerals, Text.isBlank c = false := by
    intro c hc
    rcases Text.mem_intercalate hc with rfl | ⟨numeral, hnumeral, hc⟩
    · decide
    · rcases mem_numeral h hnumeral hc with rfl | hdigit
      · decide
      · exact Text.isBlank_of_isDigit hdigit
  exact Text.trim_eq_self ⟨fun c hc => hblank c (List.mem_of_head? hc),
    fun c hc => hblank c (List.mem_of_getLast? hc)⟩

theorem fields_injective {a b : Version} (h : a.fields = b.fields) : a = b := by
  cases a
  cases b
  simpa [fields] using h

theorem fields_ofFields {numbers : List UInt32} (hlength : numbers.length ≤ 4) :
    (ofFields numbers).fields = numbers ++ List.replicate (4 - numbers.length) 0 := by
  match numbers, hlength with
  | [], _ | [_], _ | [_, _], _ | [_, _, _], _ | [_, _, _, _], _ => rfl

theorem parse_iff_written {s : String} {version : Version} :
    parse s = .ok version ↔ Written s.toList version := by
  rw [parse_iff_spells]
  constructor
  · rintro ⟨numbers, hspells, hlength, rfl⟩
    refine ⟨_, numbers, ?_, hspells, ?_, hlength, fields_ofFields hlength⟩
    · rw [Text.intercalate_fields]
      exact Text.padded_trim s.toList
    · rw [← hspells.length_eq]
      exact List.length_pos_iff.mpr (Text.fields_ne_nil _ _)
  · rintro ⟨numerals, numbers, hpadded, hspells, hpos, hlength, hfields⟩
    have hpieces : Text.fields '.' (Text.trim s.toList) = numerals := by
      rw [hpadded.trim_eq, trim_intercalate hspells]
      refine Text.fields_intercalate ?_ fun numeral hnumeral hdot => ?_
      · rintro rfl
        simp [← hspells.length_eq] at hpos
      · rcases mem_numeral hspells hnumeral hdot with heq | hdigit
        · cases heq
        · exact absurd hdigit (by decide)
    refine ⟨numbers, hpieces ▸ hspells, hlength, fields_injective ?_⟩
    rw [hfields, fields_ofFields hlength]

/-! Order. -/

theorem compare_of_findIdx? {a b : List UInt32} (hlength : a.length = b.length) :
    compare a b = match (a.zip b).findIdx? fun pair => pair.1 ≠ pair.2 with
      | none => .eq
      | some place => compare (a.getD place 0) (b.getD place 0) := by
  induction a generalizing b with
  | nil =>
      obtain rfl := List.eq_nil_of_length_eq_zero hlength.symm
      rfl
  | cons x xs ih =>
      cases b with
      | nil => simp at hlength
      | cons y ys =>
          rw [List.compare_cons_cons, List.zip_cons_cons, List.findIdx?_cons]
          by_cases hxy : x = y
          · subst hxy
            rw [Std.ReflOrd.compare_self, ih (by simpa using hlength)]
            cases hrest : (xs.zip ys).findIdx? fun pair => pair.1 ≠ pair.2 <;> simp
          · have hne : compare x y ≠ .eq := fun heq => hxy (Std.LawfulEqOrd.eq_of_compare heq)
            have hthen : (compare x y).then (compare xs ys) = compare x y := by
              cases hcompare : compare x y with
              | eq => exact absurd hcompare hne
              | lt | gt => rfl
            simp [hxy, hthen]

/-- Versions are in the order of the first fields in which they differ. -/
theorem compare_eq (a b : Version) :
    compare a b = match a.firstDifference b with
      | none => .eq
      | some place => compare (a.fields.getD place 0) (b.fields.getD place 0) :=
  compare_of_findIdx? rfl

theorem firstDifference_eq_none_iff {a b : Version} : a.firstDifference b = none ↔ a = b :=
  ⟨firstDifference_eq_none, fun h => h ▸ firstDifference_self a⟩

theorem firstDifference_eq_some_iff {a b : Version} {place : Nat} :
    a.firstDifference b = some place ↔
      place < 4 ∧ a.fields.getD place 0 ≠ b.fields.getD place 0 ∧
        ∀ earlier < place, a.fields.getD earlier 0 = b.fields.getD earlier 0 := by
  have hlength : (a.fields.zip b.fields).length = 4 := rfl
  have hget : ∀ i (hi : i < (a.fields.zip b.fields).length),
      (a.fields.zip b.fields)[i] = (a.fields.getD i 0, b.fields.getD i 0) := by
    intro i hi
    match i, hlength ▸ hi with
    | 0, _ | 1, _ | 2, _ | 3, _ => rfl
  rw [firstDifference, List.findIdx?_eq_some_iff_getElem]
  simp only [hget, hlength, exists_prop, decide_eq_true_eq, ne_eq, Decidable.not_not]

end Version

/-- A candidate passes for its version if it is not below the one that is asked for, and agrees with
it on as many leading fields as are pinned. -/
theorem Selection.isSome_depthAfter (wanted found : Version) (depth : Nat) :
    (depthAfter wanted found depth).isSome = true ↔ (compare wanted found).isLE = true ∧
      ∀ place ∈ wanted.firstDifference found, depth ≤ place := by
  rw [depthAfter, Version.compare_eq]
  cases wanted.firstDifference found with
  | none => simp
  | some place =>
      rw [Std.isLE_compare]
      simp only [Option.mem_some_iff, forall_eq']
      by_cases hrefused :
          found.fields.getD place 0 < wanted.fields.getD place 0 ∨ place < depth
      · rw [if_pos hrefused]
        simpa [← UInt32.not_le, imp_iff_not_or] using hrefused
      · rw [if_neg hrefused]
        simpa [not_or] using hrefused

namespace Version

/-- The texts that versions are read from, their own among them, and the order of versions, which is
what candidates are held against. -/
theorem parse_compare_exact :
    (∀ s version, parse s = .ok version ↔ Written s.toList version) ∧
    (∀ version : Version, parse version.text = .ok version) ∧
    (∀ a b : Version, (a.firstDifference b = none ↔ a = b) ∧
      (∀ place, a.firstDifference b = some place ↔
        place < 4 ∧ a.fields.getD place 0 ≠ b.fields.getD place 0 ∧
          ∀ earlier < place, a.fields.getD earlier 0 = b.fields.getD earlier 0) ∧
      compare a b = match a.firstDifference b with
        | none => .eq
        | some place => compare (a.fields.getD place 0) (b.fields.getD place 0)) ∧
    ∀ wanted found depth, (Selection.depthAfter wanted found depth).isSome = true ↔
      (compare wanted found).isLE = true ∧
        ∀ place ∈ wanted.firstDifference found, depth ≤ place :=
  ⟨fun _ _ => parse_iff_written, parse_text,
    fun a b => ⟨firstDifference_eq_none_iff, fun _ => firstDifference_eq_some_iff, compare_eq a b⟩,
    Selection.isSome_depthAfter⟩

end Version

end PluginHost
