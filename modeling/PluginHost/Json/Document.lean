/-!
JSON documents as far as their text could be read. Where the text stops being JSON, the document
has a `broken` leaf or a container that was cut short, so that whoever reads it from left to right
meets a wrong value before the fault exactly if it stands before the fault. Strings and numerals
keep what only a strict reader minds: unpaired surrogates, and the numeral as it was written.
-/

namespace PluginHost.Json

structure Numeral where
  negative : Bool
  whole : List Char
  fraction : List Char
  /-- Whether the exponent is negative, and its digits. -/
  exponent : Option (Bool × List Char)
  floating : Bool
  deriving DecidableEq, Repr

structure Str where
  value : String
  /-- Every surrogate escape is one of a pair. -/
  paired : Bool
  deriving DecidableEq, Repr

inductive Ending where
  | closed
  | cut
  deriving DecidableEq, Repr

inductive Document where
  | null
  | bool (value : Bool)
  | number (numeral : Numeral)
  | string (text : Str)
  | array (items : List Document) (ending : Ending)
  | object (members : List (Str × Document)) (ending : Ending)
  | broken

def Str.of (value : String) : Str :=
  ⟨value, true⟩

namespace Document

def ofString (value : String) : Document :=
  .string (Str.of value)

def ofNat (n : Nat) : Document :=
  .number ⟨false, Nat.toDigits 10 n, [], none, false⟩

def ofOption (write : α → Document) : Option α → Document
  | none => .null
  | some value => write value

def ofList (items : List Document) : Document :=
  .array items .closed

def ofMembers (members : List (String × Document)) : Document :=
  .object (members.map fun member => (Str.of member.1, member.2)) .closed

end Document

end PluginHost.Json
