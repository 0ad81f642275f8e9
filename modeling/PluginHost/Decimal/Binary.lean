/-!
Binary floating point values with 53 significant bits, as exact numbers: a sign, a significand and
a power of two. A decimal is rounded to the nearest of them, a tie to the even significand.
-/

namespace PluginHost.Decimal

structure Binary where
  negative : Bool
  significand : Nat
  exponent : Int
  deriving DecidableEq, Repr

inductive Value where
  | finite (value : Binary)
  | infinite (negative : Bool)
  | undefined
  deriving DecidableEq, Repr

def precision : Nat := 53

def lowestExponent : Int := -1074

def highestExponent : Int := 971

/-- The value that the sixty-four bits of a floating point number stand for. -/
def Value.ofBits (bits : UInt64) : Value :=
  let n := bits.toNat
  let negative : Bool := n / Nat.pow 2 63 == 1
  let field : Nat := n / Nat.pow 2 52 % Nat.pow 2 11
  let fraction : Nat := n % Nat.pow 2 52
  if field = 2047 then
    if fraction = 0 then .infinite negative else .undefined
  else if field = 0 then .finite ⟨negative, fraction, lowestExponent⟩
  else .finite ⟨negative, Nat.pow 2 52 + fraction, (field : Int) - 1075⟩

def roundDiv (numerator denominator : Nat) : Nat :=
  let quotient := numerator / denominator
  let rest := numerator % denominator
  if 2 * rest < denominator then quotient
  else if 2 * rest > denominator then quotient + 1
  else if quotient % 2 = 0 then quotient
  else quotient + 1

def power (base : Nat) (exponent : Int) : Nat :=
  Nat.pow base exponent.toNat

/-- The power of two that gives `numerator / denominator` just `precision` bits, or the lowest
power if that is more. -/
def unitExponent (numerator denominator : Nat) : Int :=
  let guess : Int := (numerator.log2 : Int) - denominator.log2 - precision
  let fits (e : Int) : Bool :=
    numerator * power 2 (-e) < denominator * power 2 e * Nat.pow 2 precision
  max lowestExponent (if fits guess then guess else guess + 1)

/-- The nearest value to `numerator / denominator`. -/
def nearest (negative : Bool) (numerator denominator : Nat) : Value :=
  if numerator = 0 then
    .finite ⟨negative, 0, lowestExponent⟩
  else
    let e := unitExponent numerator denominator
    let m := roundDiv (numerator * power 2 (-e)) (denominator * power 2 e)
    let (m, e) := if m = Nat.pow 2 precision then (Nat.pow 2 (precision - 1), e + 1) else (m, e)
    if e > highestExponent then .infinite negative else .finite ⟨negative, m, e⟩

/-- The nearest value to `digits * 10 ^ exponent`. -/
def ofDecimal (negative : Bool) (digits : Nat) (exponent : Int) : Value :=
  let places : Int := (Nat.toDigits 10 digits).length + exponent
  if digits = 0 ∨ places < -330 then .finite ⟨negative, 0, lowestExponent⟩
  else if places > 310 then .infinite negative
  else nearest negative (digits * power 10 exponent) (power 10 (-exponent))

end PluginHost.Decimal
