import PluginHost.Text.Quoted

/-!
Octets written as pairs of hexadecimal digits. Writing uses lower case; reading takes either case
and reports the first fault: an odd number of digits before any character that is no digit.
-/

namespace PluginHost

abbrev Octets := List UInt8

namespace Text.Hex

inductive Fault where
  | oddLength
  /-- The octet `octet` at position `position` of the text is no digit. -/
  | badDigit (octet : UInt8) (position : Nat)
  deriving DecidableEq, Repr

def Fault.message : Fault → String
  | .oddLength => "Odd number of digits"
  | .badDigit octet position =>
      "Invalid character " ++ Quoted.character (Char.ofNat octet.toNat) ++ " at position " ++
        toString position

def digit (n : Nat) : Char :=
  (Nat.digitChar n).toLower

def value? (octet : UInt8) : Option Nat :=
  let n := octet.toNat
  if 0x30 ≤ n ∧ n ≤ 0x39 then some (n - 0x30)
  else if 0x61 ≤ n ∧ n ≤ 0x66 then some (n - 0x61 + 10)
  else if 0x41 ≤ n ∧ n ≤ 0x46 then some (n - 0x41 + 10)
  else none

def encode (octets : Octets) : List Char :=
  octets.flatMap fun b => [digit (b.toNat / 16), digit (b.toNat % 16)]

def octetsOf (s : List Char) : Octets :=
  s.flatMap String.utf8EncodeChar

def decodePairs (position : Nat) : Octets → Except Fault Octets
  | [] => .ok []
  | [_] => .error .oddLength
  | high :: low :: rest =>
      match value? high, value? low with
      | none, _ => .error (.badDigit high position)
      | some _, none => .error (.badDigit low (position + 1))
      | some h, some l =>
          (decodePairs (position + 2) rest).map (UInt8.ofNat (16 * h + l) :: ·)

def decode (s : List Char) : Except Fault Octets :=
  let octets := octetsOf s
  if octets.length % 2 = 1 then .error .oddLength else decodePairs 0 octets

end Text.Hex

end PluginHost
