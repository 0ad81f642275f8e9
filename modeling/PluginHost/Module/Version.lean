import PluginHost.Failure
import PluginHost.Text.Blank
import PluginHost.Text.Numeral
import PluginHost.Text.Split

/-!
Module versions: major, minor, build and revision, compared in this order. A text may leave out
fields at the end, which are then zero.
-/

namespace PluginHost

structure Version where
  major : UInt32
  minor : UInt32
  build : UInt32
  revision : UInt32
  deriving DecidableEq, Repr

namespace Version

def zero : Version := ⟨0, 0, 0, 0⟩

def fields (v : Version) : List UInt32 :=
  [v.major, v.minor, v.build, v.revision]

instance : Ord Version := ⟨compareOn fields⟩

/-- The index of the first field in which two versions differ. -/
def firstDifference (a b : Version) : Option Nat :=
  (a.fields.zip b.fields).findIdx? fun pair => pair.1 ≠ pair.2

def text (v : Version) : String :=
  String.ofList (['.'].intercalate (v.fields.map fun n => Text.Numeral.print n.toNat))

inductive Fault where
  | fieldCount
  | notANumber
  deriving DecidableEq, Repr

def Fault.message : Fault → String
  | .fieldCount => "a version has one to four fields"
  | .notANumber => "version fields must be unsigned integers"

/-- A field: digits, after at most one plus sign, that make a number of 32 bits. -/
def field? (s : List Char) : Option UInt32 :=
  let digits := if s.head? = some '+' then s.tail else s
  (Text.Numeral.value? digits).bind fun n => if n < UInt32.size then some (UInt32.ofNat n) else none

def ofFields : List UInt32 → Version
  | major :: minor :: build :: revision :: _ => ⟨major, minor, build, revision⟩
  | [major, minor, build] => ⟨major, minor, build, 0⟩
  | [major, minor] => ⟨major, minor, 0, 0⟩
  | [major] => ⟨major, 0, 0, 0⟩
  | [] => zero

def read (s : List Char) : Except Fault Version :=
  let parts := Text.fields '.' (Text.trim s)
  if 4 < parts.length then .error .fieldCount
  else
    match parts.mapM field? with
    | some fields => .ok (ofFields fields)
    | none => .error .notANumber

def parse (s : String) : Except Failure Version :=
  (read s.toList).mapError fun fault => .invalidIdentity s fault.message

end Version

end PluginHost
