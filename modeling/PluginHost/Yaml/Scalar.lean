import PluginHost.Decimal.Shortest
import PluginHost.Text.Numeral
import PluginHost.Text.Quoted
import PluginHost.Yaml.Token

/-!
What a scalar means: nothing, a truth value, an integer, a floating-point number or a text. Integers
may have a radix mark; digits after a leading zero are text.
-/

namespace PluginHost.Yaml

inductive Scalar where
  | null
  | bool (value : Bool)
  | integer (value : Int)
  | float (value : Decimal.Value)
  | text (value : List Char)

namespace Scalar

def isNull (s : List Char) : Bool :=
  s == "null".toList || s == "Null".toList || s == "NULL".toList || s == ['~']

def bool? (s : List Char) : Option Bool :=
  if s = "true".toList ∨ s = "True".toList ∨ s = "TRUE".toList then some true
  else if s = "false".toList ∨ s = "False".toList ∨ s = "FALSE".toList then some false
  else none

def digit? (radix : Nat) (c : Char) : Option Nat :=
  let n := c.toNat
  let value :=
    if 0x30 ≤ n ∧ n ≤ 0x39 then n - 0x30
    else if 0x61 ≤ n ∧ n ≤ 0x66 then n - 0x61 + 10
    else if 0x41 ≤ n ∧ n ≤ 0x46 then n - 0x41 + 10
    else radix
  if value < radix then some value else none

def numeral? (radix : Nat) (s : List Char) : Option Nat :=
  if s = [] then none
  else (s.mapM (digit? radix)).map fun digits => digits.foldl (fun n d => radix * n + d) 0

def dropSign (sign : Char) (s : List Char) : List Char :=
  if s.head? = some sign then s.tail else s

def isPadded (s : List Char) : Bool :=
  let s := dropSign '+' (if s.head? = some '-' then '+' :: s.tail else s)
  s.head? == some '0' && 1 < s.length && s.all Char.isDigit

def magnitude? : List Char → Option Nat
  | '0' :: 'x' :: rest => numeral? 16 rest
  | '0' :: 'o' :: rest => numeral? 8 rest
  | '0' :: 'b' :: rest => numeral? 2 rest
  | s => if isPadded s then none else numeral? 10 s

def natural? (s : List Char) : Option Nat :=
  magnitude? (dropSign '+' s)

/-- Integers of at most 128 bits, with or without a sign. -/
def integer? (s : List Char) : Option Int :=
  match s with
  | '-' :: rest =>
      (magnitude? rest).bind fun (n : Nat) => if n ≤ Nat.pow 2 127 then some (-(n : Int)) else none
  | s => (natural? s).bind fun (n : Nat) => if n < Nat.pow 2 128 then some (n : Int) else none

def digits (s : List Char) : List Char × List Char :=
  (s.takeWhile Char.isDigit, s.dropWhile Char.isDigit)

def exponent? : List Char → Option Int
  | [] => some 0
  | c :: rest =>
      if c = 'e' ∨ c = 'E' then
        match rest with
        | '-' :: rest => (Text.Numeral.value? rest).map fun (n : Nat) => -(n : Int)
        | rest => (Text.Numeral.value? (dropSign '+' rest)).map fun (n : Nat) => (n : Int)
      else none

def decimal? (negative : Bool) (s : List Char) : Option Decimal.Value :=
  let (whole, rest) := digits s
  let (fraction, rest) := if rest.head? = some '.' then digits rest.tail else ([], rest)
  if whole ++ fraction = [] then none
  else
    (exponent? rest).map fun e =>
      Decimal.ofDecimal negative (Nat.ofDigitChars 10 (whole ++ fraction) 0) (e - fraction.length)

def finite? : Decimal.Value → Option Decimal.Value
  | .finite b => some (.finite b)
  | _ => none

def isInfinity (s : List Char) : Bool :=
  s == ".inf".toList || s == ".Inf".toList || s == ".INF".toList

def isUndefined (s : List Char) : Bool :=
  s == ".nan".toList || s == ".NaN".toList || s == ".NAN".toList

def float? (s : List Char) : Option Decimal.Value :=
  if isUndefined s then some .undefined
  else
    let (negative, rest) :=
      match s with
      | '-' :: rest => (true, rest)
      | '+' :: rest => (false, rest)
      | rest => (false, rest)
    if isInfinity rest then some (.infinite negative)
    else (decimal? negative rest).bind finite?

/-- The meaning of a scalar that has no tag and no quotes. -/
def ofPlain (s : List Char) : Scalar :=
  if s = [] ∨ isNull s then .null
  else
    match bool? s with
    | some b => .bool b
    | none =>
        match integer? s with
        | some n => .integer n
        | none =>
            match (if isPadded s then none else float? s) with
            | some value => .float value
            | none => .text s

def ticked (s : String) : String :=
  "`" ++ s ++ "`"

def quoted (s : List Char) : String :=
  "string " ++ Text.Quoted.text (String.ofList s)

/-- How messages name an integer; those beyond 64 bits are named with their width. -/
def integerKind (n : Int) : String :=
  "integer " ++ ticked (toString n) ++
    (if UInt64.size ≤ n then " as u128" else if n < -(Nat.pow 2 63 : Nat) then " as i128" else "")

def kind : Scalar → String
  | .null => "unit value"
  | .bool b => "boolean " ++ ticked (toString b)
  | .integer n => integerKind n
  | .float value => "floating point " ++ ticked (Decimal.plain.text value)
  | .text s => quoted s

def coreTag (name : String) : Octets :=
  Text.Hex.octetsOf ("tag:yaml.org,2002:" ++ name).toList

/-- A tag that starts with an exclamation mark. -/
def isLocal (tag : Octets) : Bool :=
  tag.head? == some 0x21

/-- Reads a scalar by its tag and style; where the text does not suit a tag of the core schema, the
error says what would. -/
def ofNode (text : List Char) (style : Style) (tag : Option Octets) :
    Except String Scalar :=
  let byStyle := if style = .plain then ofPlain text else .text text
  match tag with
  | none => .ok byStyle
  | some tag =>
      if tag = coreTag "bool" then ((bool? text).map bool).elim (.error "a boolean") .ok
      else if tag = coreTag "int" then ((integer? text).map integer).elim (.error "an integer") .ok
      else if tag = coreTag "float" then ((float? text).map float).elim (.error "a float") .ok
      else if tag = coreTag "null" then if isNull text then .ok .null else .error "null"
      else if isLocal tag then .ok byStyle
      else .ok (.text text)

end Scalar

end PluginHost.Yaml
