import PluginHost.Decimal.Binary

/-!
The shortest decimal that reads back as a given binary value. For one digit, two digits and so on,
the two neighbours of the value on that decimal grid are tested against the interval of reals that
round to it; the first grid with a hit wins, and of two hits the nearer one, a tie going to the
even numeral.
-/

namespace PluginHost.Decimal

structure Scaled where
  numeral : Nat
  exponent : Int
  deriving DecidableEq, Repr

/-- The reals that round to a value: quarters of `2 ^ exponent`, ends included when `closed`. -/
structure Interval where
  low : Nat
  middle : Nat
  high : Nat
  exponent : Int
  closed : Bool

def Binary.interval (b : Binary) : Interval :=
  let narrow := b.significand = Nat.pow 2 (precision - 1) ∧ b.exponent > lowestExponent
  { low := 4 * b.significand - (if narrow then 1 else 2)
    middle := 4 * b.significand
    high := 4 * b.significand + 2
    exponent := b.exponent
    closed := b.significand % 2 = 0 }

/-- Compares `numeral * 10 ^ exponent` with `quarters * 2 ^ i.exponent / 4`. -/
def Scaled.compareQuarters (d : Scaled) (i : Interval) (quarters : Nat) : Ordering :=
  compare (d.numeral * 4 * power 10 d.exponent * power 2 (-i.exponent))
    (quarters * power 2 i.exponent * power 10 (-d.exponent))

def Interval.holds (i : Interval) (d : Scaled) : Bool :=
  let low := d.compareQuarters i i.low
  let high := d.compareQuarters i i.high
  (low == .gt && high == .lt) || (i.closed && (low == .eq || high == .eq))

/-- The place of the leading digit: the least `k` with the value below `10 ^ k`. -/
def Interval.leadingPlace (i : Interval) : Int :=
  let numerator := i.middle * power 2 i.exponent
  let denominator := 4 * power 2 (-i.exponent)
  if denominator ≤ numerator then
    ((Nat.toDigits 10 (numerator / denominator)).length : Int)
  else
    let zeros := (List.range 330).find? fun k => denominator ≤ numerator * Nat.pow 10 (k + 1)
    Int.neg (zeros.getD 330 : Nat)

/-- The neighbour of the value on the grid with step `10 ^ exponent` that reads back, if any. -/
def Interval.onGrid? (i : Interval) (exponent : Int) : Option Scaled :=
  let numerator := i.middle * power 2 i.exponent * power 10 (-exponent)
  let denominator := 4 * power 2 (-i.exponent) * power 10 exponent
  let below : Scaled := ⟨numerator / denominator, exponent⟩
  let above : Scaled := ⟨numerator / denominator + 1, exponent⟩
  match i.holds below, i.holds above with
  | false, false => none
  | true, false => some below
  | false, true => some above
  | true, true =>
      let rest := 2 * (numerator % denominator)
      if rest < denominator ∨ (rest = denominator ∧ below.numeral % 2 = 0) then some below
      else some above

def Scaled.reduce : Nat → Scaled → Scaled
  | 0, d => d
  | n + 1, d =>
      if d.numeral ≠ 0 ∧ d.numeral % 10 = 0 then reduce n ⟨d.numeral / 10, d.exponent + 1⟩ else d

def Binary.shortest (b : Binary) : Scaled :=
  if b.significand = 0 then
    ⟨0, 0⟩
  else
    let i := b.interval
    let place := i.leadingPlace
    let found := (List.range 17).findSome? fun (k : Nat) => i.onGrid? (place - (k + 1))
    (found.getD ⟨b.significand, b.exponent⟩).reduce 20

/-- Which places of the leading digit are written out positionally; the others get an exponent, with
its sign in front. -/
structure Layout where
  positional : Int → Bool

def signed (n : Int) : List Char :=
  if n < 0 then (toString n).toList else '+' :: (toString n).toList

def zeros (n : Int) : List Char :=
  List.replicate n.toNat '0'

def Layout.digits (layout : Layout) (d : Scaled) : List Char :=
  let numeral := Nat.toDigits 10 d.numeral
  let length : Int := numeral.length
  let place := length + d.exponent
  if d.numeral = 0 then
    ['0', '.', '0']
  else if layout.positional place then
    if d.exponent ≥ 0 then numeral ++ zeros d.exponent ++ ['.', '0']
    else if place > 0 then
      numeral.take place.toNat ++ '.' :: numeral.drop place.toNat
    else '0' :: '.' :: zeros (-place) ++ numeral
  else
    let exponent := signed (place - 1)
    match numeral with
    | [] => []
    | [c] => c :: 'e' :: exponent
    | c :: more => c :: '.' :: more ++ 'e' :: exponent

def Layout.text (layout : Layout) : Value → String
  | .undefined => "NaN"
  | .infinite negative => if negative then "-inf" else "inf"
  | .finite b =>
      String.ofList ((if b.negative then ['-'] else []) ++ layout.digits b.shortest)

/-- Exponents for values below one in a hundred thousand and from ten to the sixteenth up. -/
def compact : Layout := ⟨fun place => -5 < place && place ≤ 16⟩

def plain : Layout := ⟨fun _ => true⟩

end PluginHost.Decimal
