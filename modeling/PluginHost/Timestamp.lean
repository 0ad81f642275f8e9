import PluginHost.Text.Blank
import PluginHost.Text.Numeral

/-!
Points in time in the form of RFC 3339, kept in universal time. Reading is lenient about the width
of the numbers and about blanks, converts any offset to universal time and keeps a leap second as
second 60. Writing gives the fraction no, three, six or nine digits, whichever loses nothing.
-/

namespace PluginHost

structure Timestamp where
  year : Int
  month : Nat
  day : Nat
  hour : Nat
  minute : Nat
  second : Nat
  nanosecond : Nat
  deriving DecidableEq, Repr

namespace Timestamp

def isLeap (year : Int) : Bool :=
  year % 4 == 0 && (year % 100 != 0 || year % 400 == 0)

def daysIn (year : Int) (month : Nat) : Nat :=
  if month = 2 then (if isLeap year then 29 else 28)
  else if month = 4 ∨ month = 6 ∨ month = 9 ∨ month = 11 then 30
  else 31

def lowestYear : Int := -262143

def highestYear : Int := 262142

def InRange (t : Timestamp) : Prop :=
  lowestYear ≤ t.year ∧ t.year ≤ highestYear ∧ 1 ≤ t.month ∧ t.month ≤ 12 ∧
    1 ≤ t.day ∧ t.day ≤ daysIn t.year t.month ∧ t.hour ≤ 23 ∧ t.minute ≤ 59 ∧ t.second ≤ 60

instance (t : Timestamp) : Decidable t.InRange :=
  inferInstanceAs (Decidable (_ ∧ _))

def nextDay (t : Timestamp) : Timestamp :=
  if t.day < daysIn t.year t.month then { t with day := t.day + 1 }
  else if t.month < 12 then { t with month := t.month + 1, day := 1 }
  else { t with year := t.year + 1, month := 1, day := 1 }

def previousDay (t : Timestamp) : Timestamp :=
  if 1 < t.day then { t with day := t.day - 1 }
  else if 1 < t.month then { t with month := t.month - 1, day := daysIn t.year (t.month - 1) }
  else { t with year := t.year - 1, month := 12, day := 31 }

/-- The same point in time after taking away an offset in minutes of less than a day. -/
def withoutOffset (t : Timestamp) (minutes : Int) : Timestamp :=
  let total : Int := (60 * t.hour + t.minute : Nat) - minutes
  let moved := if total < 0 then t.previousDay else if total ≥ 1440 then t.nextDay else t
  let rest := (total % 1440).toNat
  { moved with hour := rest / 60, minute := rest % 60 }

/-- At most `width` digits, at least one. -/
def number? (width : Nat) (s : List Char) : Option (Nat × List Char) :=
  let digits := (s.take width).takeWhile Char.isDigit
  (Text.Numeral.value? digits).map fun n => (n, s.drop digits.length)

def field? (width : Nat) (s : List Char) : Option (Nat × List Char) :=
  number? width (Text.trimStart s)

def year? (s : List Char) : Option (Int × List Char) :=
  match Text.trimStart s with
  | '-' :: rest => (number? rest.length rest).map fun (n, more) => (-(n : Int), more)
  | '+' :: rest => (number? rest.length rest).map fun (n, more) => ((n : Int), more)
  | rest => (number? 4 rest).map fun (n, more) => ((n : Int), more)

def mark? (c : Char) (s : List Char) : Option (List Char) :=
  match Text.trimStart s with
  | d :: rest => if d = c then some rest else none
  | [] => none

/-- The digits after the point, nine of which count. -/
def fraction? (s : List Char) : Option (Nat × List Char) :=
  match s with
  | '.' :: rest => do
      let (n, more) ← number? 9 rest
      let length := rest.length - more.length
      pure (n * Nat.pow 10 (9 - length), more.dropWhile Char.isDigit)
  | _ => some (0, s)

def twoDigits? (s : List Char) : Option (Nat × List Char) :=
  match s with
  | a :: b :: rest => (Text.Numeral.value? [a, b]).map (·, rest)
  | _ => none

def utcName : List Char := ['u', 't', 'c']

def offset? (s : List Char) : Option (Int × List Char) :=
  let s := Text.trimStart s
  if (s.take 3).map Char.toLower = utcName then
    some (0, s.drop 3)
  else
    match s with
    | [] => none
    | c :: rest =>
        if c = 'Z' ∨ c = 'z' then
          some (0, rest)
        else if c = '+' ∨ c = '-' ∨ c = '\u2212' then do
          let (hours, rest) ← twoDigits? rest
          let rest := rest.dropWhile fun d => d = ':' || Text.isBlank d
          let (minutes, rest) ← twoDigits? rest
          if minutes ≤ 59 ∧ hours ≤ 23 then
            let total : Int := (60 * hours + minutes : Nat)
            pure (if c = '+' then total else -total, rest)
          else
            none
        else
          none

def parse? (s : String) : Option Timestamp := do
  let (year, s) ← year? s.toList
  let (month, s) ← mark? '-' s >>= field? 2
  let (day, s) ← mark? '-' s >>= field? 2
  let s ← match s with
    | c :: rest => if c = 'T' ∨ c = 't' ∨ c = ' ' then some rest else none
    | [] => none
  let (hour, s) ← field? 2 s
  let (minute, s) ← mark? ':' s >>= field? 2
  let (second, s) ← mark? ':' s >>= field? 2
  let (nanosecond, s) ← fraction? s
  let (minutes, s) ← offset? s
  let local' : Timestamp := ⟨year, month, day, hour, minute, second, nanosecond⟩
  let universal := local'.withoutOffset minutes
  if Text.trimStart s = [] ∧ local'.InRange ∧ universal.InRange then some universal else none

def padded (width n : Nat) : List Char :=
  let digits := Text.Numeral.print n
  List.replicate (width - digits.length) '0' ++ digits

def yearText (year : Int) : List Char :=
  if 0 ≤ year ∧ year ≤ 9999 then padded 4 year.toNat
  else (if year < 0 then '-' else '+') :: padded 4 year.natAbs

def fractionText (nanosecond : Nat) : List Char :=
  if nanosecond = 0 then []
  else if nanosecond % 1000000 = 0 then '.' :: padded 3 (nanosecond / 1000000)
  else if nanosecond % 1000 = 0 then '.' :: padded 6 (nanosecond / 1000)
  else '.' :: padded 9 nanosecond

def text (t : Timestamp) : String :=
  String.ofList (yearText t.year ++ '-' :: padded 2 t.month ++ '-' :: padded 2 t.day ++
    'T' :: padded 2 t.hour ++ ':' :: padded 2 t.minute ++ ':' :: padded 2 t.second ++
    fractionText t.nanosecond ++ ['Z'])

end Timestamp

end PluginHost
