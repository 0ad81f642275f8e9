import PluginHost.Text.Hex

/-!
Universally unique identifiers: 128 bits, written as thirty-two lower-case hexadecimal digits in
five groups, read in that form, without hyphens, in braces, or as a URN.
-/

namespace PluginHost

structure Uuid where
  bits : BitVec 128
  deriving DecidableEq

namespace Uuid

def number (u : Uuid) : Nat :=
  u.bits.toNat

theorem number_injective {a b : Uuid} (h : a.number = b.number) : a = b := by
  cases a
  cases b
  simpa [number, BitVec.toNat_inj] using h

def ofNat (n : Nat) : Uuid :=
  ⟨BitVec.ofNat 128 n⟩

instance : Ord Uuid := ⟨fun a b => compare a.number b.number⟩

instance : Std.TransOrd Uuid where
  eq_swap := by
    intro a b
    exact Nat.compare_swap _ _ |>.symm
  isLE_trans := by
    intro a b c hab hbc
    exact @Std.TransCmp.isLE_trans Nat compare _ _ _ _ hab hbc

instance : Std.LawfulEqOrd Uuid where
  compare_self := by
    intro a
    exact @Std.ReflCmp.compare_self Nat compare _ _
  eq_of_compare := by
    intro a b h
    exact number_injective (Std.LawfulEqOrd.eq_of_compare (α := Nat) h)

def digits (u : Uuid) : List Char :=
  (List.range 32).map fun k => Text.Hex.digit (u.number / Nat.pow 16 (31 - k) % 16)

def groups : List Nat := [8, 4, 4, 4, 12]

/-- Puts a hyphen between groups of the given lengths. -/
def hyphenate : List Nat → List Char → List Char
  | [], _ => []
  | [n], s => s.take n
  | n :: rest, s => s.take n ++ '-' :: hyphenate rest (s.drop n)

def text (u : Uuid) : String :=
  String.ofList (hyphenate groups u.digits)

def digitValue? (c : Char) : Option Nat :=
  if c.toNat < 128 then Text.Hex.value? (UInt8.ofNat c.toNat) else none

def ofDigits? (s : List Char) : Option Uuid :=
  if s.length = 32 then
    (s.mapM digitValue?).map fun values => ofNat (values.foldl (fun n v => 16 * n + v) 0)
  else
    none

/-- Takes the hyphens out again, or fails where a group has another length. -/
def dehyphenate? : List Nat → List Char → Option (List Char)
  | [], s => if s.isEmpty then some [] else none
  | [n], s => if s.length = n then some s else none
  | n :: rest, s =>
      match s.drop n with
      | '-' :: more => (dehyphenate? rest more).map (s.take n ++ ·)
      | _ => none

/-- The scheme and namespace of a URN, in letters of either case. -/
def urnHead : List Char := "urn:uuid:".toList

/-- What the braces or the URN scheme enclose, if there are any. -/
def unwrap (s : List Char) : List Char :=
  if s.length = 38 ∧ s.head? = some '\x7b' ∧ s.getLast? = some '\x7d' then
    (s.drop 1).dropLast
  else if s.length = 45 ∧ (s.take urnHead.length).map Char.toLower = urnHead then
    s.drop urnHead.length
  else s

def parse? (s : String) : Option Uuid :=
  let s := s.toList
  match ofDigits? s with
  | some u => some u
  | none => (dehyphenate? groups (unwrap s)).bind ofDigits?

end Uuid

end PluginHost
