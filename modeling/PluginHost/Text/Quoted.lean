import PluginHost.Text.Visible

/-!
Quoted texts, as messages show them: the quote and the backslash are escaped, and so is every
character that would not be visible.
-/

namespace PluginHost.Text.Quoted

def hexNumeral (n : Nat) : List Char :=
  (Nat.toDigits 16 n).map Char.toLower

def escapeCode (c : Char) : List Char :=
  ['\\', 'u', '\x7b'] ++ hexNumeral c.toNat ++ ['\x7d']

def escape (quote c : Char) : List Char :=
  if c = '\x00' then ['\\', '0']
  else if c = '\t' then ['\\', 't']
  else if c = '\r' then ['\\', 'r']
  else if c = '\n' then ['\\', 'n']
  else if c = '\\' ∨ c = quote then ['\\', c]
  else if isVisible c then [c]
  else escapeCode c

def text (s : String) : String :=
  String.ofList ('"' :: s.toList.flatMap (escape '"') ++ ['"'])

def character (c : Char) : String :=
  String.ofList ('\'' :: escape '\'' c ++ ['\''])

end PluginHost.Text.Quoted
