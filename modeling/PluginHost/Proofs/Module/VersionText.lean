import Mathlib.Data.List.Forall2
import PluginHost.Module.Version
import PluginHost.Proofs.Outcome

/-!
The texts of versions: one to four numbers between dots. A number is written with digits, perhaps
after a plus sign, and is one of 32 bits.
-/

namespace PluginHost.Version

/-- The number `n`, as it is written in a version. -/
def SpellsField (s : List Char) (n : UInt32) : Prop :=
  ∃ digits, (s = digits ∨ s = '+' :: digits) ∧ digits ≠ [] ∧ (∀ c ∈ digits, c.isDigit = true) ∧
    n.toNat = Nat.ofDigitChars 10 digits 0

/-- The version `version`, as it is written; numbers that are left out at the end are zero. -/
def Spells (s : List Char) (version : Version) : Prop :=
  ∃ numbers, List.Forall₂ SpellsField (Text.fields '.' (Text.trim s)) numbers ∧
    numbers.length ≤ 4 ∧ version = ofFields numbers

theorem value?_eq_some_iff {s : List Char} {n : Nat} :
    Text.Numeral.value? s = some n ↔
      s ≠ [] ∧ (∀ c ∈ s, c.isDigit = true) ∧ Nat.ofDigitChars 10 s 0 = n := by
  simp [Text.Numeral.value?, and_assoc]

theorem inRange_eq_some_iff {digits : List Char} {n : UInt32} :
    ((Text.Numeral.value? digits).bind fun n =>
        if n < UInt32.size then some (UInt32.ofNat n) else none) = some n ↔
      digits ≠ [] ∧ (∀ c ∈ digits, c.isDigit = true) ∧ n.toNat = Nat.ofDigitChars 10 digits 0 := by
  constructor
  · intro h
    obtain ⟨value, hvalue, h⟩ := Option.bind_eq_some_iff.mp h
    obtain ⟨hne, hdigits, rfl⟩ := value?_eq_some_iff.mp hvalue
    split at h
    · rename_i hlt
      cases h
      exact ⟨hne, hdigits, UInt32.toNat_ofNat_of_lt hlt⟩
    · cases h
  · rintro ⟨hne, hdigits, hn⟩
    rw [value?_eq_some_iff.mpr ⟨hne, hdigits, hn.symm⟩, Option.bind_some, if_pos n.toNat_lt,
      UInt32.ofNat_toNat]

theorem field?_eq_some_iff {s : List Char} {n : UInt32} :
    field? s = some n ↔ SpellsField s n := by
  rw [field?, inRange_eq_some_iff]
  constructor
  · intro h
    refine ⟨_, ?_, h⟩
    split
    · rename_i hplus
      exact Or.inr (List.eq_cons_of_mem_head? hplus)
    · exact Or.inl rfl
  · rintro ⟨digits, rfl | rfl, h⟩
    · have hplus : s.head? ≠ some '+' := by
        intro hhead
        exact absurd (h.2.1 '+' (List.mem_of_head? hhead)) (by decide)
      rw [if_neg hplus]
      exact h
    · exact h

theorem mapM_field?_iff {parts : List (List Char)} {numbers : List UInt32} :
    parts.mapM field? = some numbers ↔ List.Forall₂ SpellsField parts numbers := by
  induction parts generalizing numbers with
  | nil => simp [eq_comm]
  | cons part rest ih =>
      rw [List.mapM_cons, List.forall₂_cons_left_iff]
      constructor
      · intro h
        obtain ⟨number, hnumber, h⟩ := Option.bind_eq_some_iff.mp h
        obtain ⟨more, hmore, h⟩ := Option.bind_eq_some_iff.mp h
        cases h
        exact ⟨number, more, field?_eq_some_iff.mp hnumber, ih.mp hmore, rfl⟩
      · rintro ⟨number, more, hnumber, hmore, rfl⟩
        simp [field?_eq_some_iff.mpr hnumber, ih.mpr hmore]

/-- Versions are read from exactly the texts that spell them. -/
theorem parse_iff_spells {s : String} {version : Version} :
    parse s = .ok version ↔ Spells s.toList version := by
  rw [parse, mapError_eq_ok, read]
  constructor
  · intro h
    split at h
    · cases h
    · rename_i hlength
      split at h
      · rename_i numbers hnumbers
        have hspells := mapM_field?_iff.mp hnumbers
        cases h
        exact ⟨numbers, hspells, hspells.length_eq ▸ Nat.not_lt.mp hlength, rfl⟩
      · cases h
  · rintro ⟨numbers, hspells, hlength, rfl⟩
    rw [if_neg (Nat.not_lt.mpr (hspells.length_eq ▸ hlength)), mapM_field?_iff.mpr hspells]

end PluginHost.Version
