/-!
Unsigned decimal numerals: a non-empty row of the digits 0 to 9, leading zeros allowed.
-/

namespace PluginHost.Text.Numeral

def print (n : Nat) : List Char :=
  Nat.toDigits 10 n

def value? (s : List Char) : Option Nat :=
  if s ≠ [] ∧ s.all Char.isDigit then some (Nat.ofDigitChars 10 s 0) else none

theorem print_ne_nil (n : Nat) : print n ≠ [] :=
  Nat.toDigits_ne_nil

theorem isDigit_of_mem_print {n : Nat} {c : Char} (h : c ∈ print n) : c.isDigit = true :=
  Nat.isDigit_of_mem_toDigits (by decide) (by decide) h

@[simp] theorem value?_print (n : Nat) : value? (print n) = some n := by
  have hdigits : (print n).all Char.isDigit = true :=
    List.all_eq_true.mpr fun _ => isDigit_of_mem_print
  rw [value?, if_pos ⟨print_ne_nil n, hdigits⟩, print,
    Nat.ofDigitChars_toDigits (by decide) (by decide)]

end PluginHost.Text.Numeral
