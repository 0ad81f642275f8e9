import PluginHost.Decimal.Shortest
import PluginHost.Json.Document

/-!
What a numeral stands for when it is read strictly. Integers that fit sixty-four bits are exact.
Everything else is a floating point number: the digits that fit sixty-four bits, scaled by a power
of ten in floating point arithmetic, which fails beyond the largest finite number.
-/

namespace PluginHost.Json

inductive Number where
  | natural (value : Nat)
  | negative (value : Nat)
  | floating (value : Decimal.Value)

namespace Numeral

def wordLimit : Nat := UInt64.size

def digitOf (c : Char) : Nat :=
  c.toNat - '0'.toNat

/-- The leading digits that fit a word, and those that are left over. -/
def gather (significand : Nat) : List Char → Nat × List Char
  | [] => (significand, [])
  | c :: rest =>
      let next := 10 * significand + digitOf c
      if next < wordLimit then gather next rest else (significand, c :: rest)

def powerOfTen (n : Nat) : Float :=
  Float.ofScientific 1 false n

/-- The product with a power of ten, in steps of at most 308 decimal places. -/
def scale : Nat → Float → Int → Option Float
  | 0, f, _ => some f
  | steps + 1, f, exponent =>
      if exponent.natAbs ≤ 308 then
        if exponent ≥ 0 then
          let product := f * powerOfTen exponent.natAbs
          if product.isInf then none else some product
        else
          some (f / powerOfTen exponent.natAbs)
      else if f == 0 then some f
      else if exponent ≥ 0 then none
      else scale steps (f / powerOfTen 308) (exponent + 308)

def exponentLimit : Nat := Nat.pow 2 31

/-- The significand with its exponent of ten; `none` if the exponent is too large to count. -/
def parts (n : Numeral) : Nat × Option Int :=
  let (significand, left) := gather 0 n.whole
  let (significand, after) := gather significand n.fraction
  let base : Int := left.length - (n.fraction.length - after.length : Nat)
  match n.exponent with
  | none => (significand, some base)
  | some (negative, digits) =>
      let e := Nat.ofDigitChars 10 digits 0
      if e < exponentLimit then (significand, some (if negative then base - e else base + e))
      else (significand, none)

def sign (negative : Bool) (f : Float) : Decimal.Value :=
  .ofBits (if negative then -f else f).toBits

def read? (n : Numeral) : Option Number :=
  let (significand, left) := gather 0 n.whole
  if n.floating = false ∧ left = [] ∧ n.negative = false then
    some (.natural significand)
  else if n.floating = false ∧ left = [] ∧ 0 < significand ∧ significand ≤ Nat.pow 2 63 then
    some (.negative significand)
  else
    match n.parts with
    | (significand, some exponent) =>
        (scale 10 (UInt64.ofNat significand).toFloat exponent).map fun f =>
          .floating (sign n.negative f)
    | (significand, none) =>
        match n.exponent with
        | some (false, _) =>
            if significand = 0 then some (.floating (sign n.negative 0)) else none
        | _ => some (.floating (sign n.negative 0))

end Numeral

end PluginHost.Json
