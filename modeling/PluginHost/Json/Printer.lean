import PluginHost.Json.Document
import PluginHost.Text.Hex

/-!
Documents as text: two blanks for each level, one entry a line, empty containers in two characters.
-/

namespace PluginHost.Json

def escapeChar (c : Char) : List Char :=
  if c = '"' then ['\\', '"']
  else if c = '\\' then ['\\', '\\']
  else if c = '\x08' then ['\\', 'b']
  else if c = '\x0c' then ['\\', 'f']
  else if c = '\n' then ['\\', 'n']
  else if c = '\r' then ['\\', 'r']
  else if c = '\t' then ['\\', 't']
  else if c.toNat < 0x20 then
    ['\\', 'u', '0', '0', Text.Hex.digit (c.toNat / 16), Text.Hex.digit (c.toNat % 16)]
  else [c]

def quote (s : String) : List Char :=
  '"' :: s.toList.flatMap escapeChar ++ ['"']

def Numeral.print (n : Numeral) : List Char :=
  let sign := if n.negative then ['-'] else []
  let fraction := if n.fraction = [] then [] else '.' :: n.fraction
  let exponent :=
    match n.exponent with
    | none => []
    | some (negative, digits) => 'e' :: (if negative then ['-'] else []) ++ digits
  sign ++ n.whole ++ fraction ++ exponent

def newline (level : Nat) : List Char :=
  '\n' :: List.replicate (2 * level) ' '

/-- The entries of a container between its brackets. -/
def enclose (level : Nat) (opening closing : Char) : List (List Char) → List Char
  | [] => [opening, closing]
  | first :: more =>
      opening :: newline (level + 1) ++ first ++
        more.flatMap (fun entry => ',' :: newline (level + 1) ++ entry) ++
        newline level ++ [closing]

mutual

/-- A document that was cut short is printed as far as it goes. -/
def Document.print (level : Nat) : Document → List Char
  | .null => ['n', 'u', 'l', 'l']
  | .bool b => if b then ['t', 'r', 'u', 'e'] else ['f', 'a', 'l', 's', 'e']
  | .number n => n.print
  | .string s => quote s.value
  | .array items _ => enclose level '[' ']' (printItems (level + 1) items)
  | .object members _ => enclose level '\x7b' '\x7d' (printMembers (level + 1) members)
  | .broken => []

def printItems (level : Nat) : List Document → List (List Char)
  | [] => []
  | item :: rest => item.print level :: printItems level rest

def printMembers (level : Nat) : List (Str × Document) → List (List Char)
  | [] => []
  | (key, value) :: rest =>
      (quote key.value ++ ':' :: ' ' :: value.print level) :: printMembers level rest

end

def Document.text (document : Document) : String :=
  String.ofList (document.print 0)

end PluginHost.Json
