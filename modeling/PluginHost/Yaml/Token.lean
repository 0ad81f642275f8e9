import PluginHost.Text.Hex

/-!
The tokens of YAML text, and a cursor that walks over the text by line and column.
-/

namespace PluginHost.Yaml

inductive Style where
  | plain
  | singleQuoted
  | doubleQuoted
  | literal
  | folded
  deriving DecidableEq, Repr

inductive Token where
  | version (major minor : Nat)
  | tagHandle (handle : List Char) (meaning : Octets)
  | documentStart
  | documentEnd
  | blockSequence
  | blockMapping
  | blockEnd
  | flowSequence
  | flowSequenceEnd
  | flowMapping
  | flowMappingEnd
  | blockEntry
  | flowEntry
  | key
  | value
  | alias (name : List Char)
  | anchor (name : List Char)
  /-- A tag in two parts; its octets need not be a text. -/
  | tag (handle : List Char) (rest : Octets)
  | scalar (text : List Char) (style : Style)
  | streamEnd
  deriving DecidableEq, Repr

structure Cursor where
  rest : List Char
  index : Nat
  line : Nat
  column : Nat

def isTab (c : Char) : Bool := c == '\t'

def isBlank (c : Char) : Bool := c == ' ' || c == '\t'

def isBreak (c : Char) : Bool :=
  c == '\n' || c == '\r' || c == '\u0085' || c == '\u2028' || c == '\u2029'

/-- A character of a name: a letter, a digit, an underscore or a hyphen, all ASCII. -/
def isWord (c : Char) : Bool := c.isAlphanum || c == '_' || c == '-'

def isAllowed (c : Char) : Bool :=
  let n := c.toNat
  n == 0x09 || n == 0x0A || n == 0x0D || (0x20 ≤ n && n ≤ 0x7E) || n == 0x85 ||
    (0xA0 ≤ n && n ≤ 0xD7FF) || (0xE000 ≤ n && n ≤ 0xFFFD) || 0x10000 ≤ n

namespace Cursor

def start (s : List Char) : Cursor := ⟨s, 0, 0, 0⟩

def peek? (c : Cursor) : Option Char := c.rest.head?

def peekAt? (c : Cursor) (n : Nat) : Option Char := c.rest[n]?

def sees (c : Cursor) (d : Char) : Bool := c.peek? == some d

/-- The character at distance `n` satisfies `p`; the end of the text does not. -/
def holds (c : Cursor) (n : Nat) (p : Char → Bool) : Bool := (c.peekAt? n).any p

/-- A blank, a line break or the end of the text stands at distance `n`. -/
def blankOrEnd (c : Cursor) (n : Nat) : Bool :=
  (c.peekAt? n).all fun d => isBlank d || isBreak d

def breakOrEnd (c : Cursor) : Bool := c.peek?.all isBreak

def blankOrBreak (c : Cursor) : Bool := c.holds 0 fun d => isBlank d || isBreak d

def atEnd (c : Cursor) : Bool := c.rest.isEmpty

def skip (c : Cursor) : Cursor :=
  { c with rest := c.rest.tail, index := c.index + 1, column := c.column + 1 }

def advance (c : Cursor) (n : Nat) : Cursor :=
  { c with rest := c.rest.drop n, index := c.index + n, column := c.column + n }

def passBreak (c : Cursor) : List Char × Cursor :=
  let next (n : Nat) : Cursor := ⟨c.rest.drop n, c.index + n, c.line + 1, 0⟩
  match c.rest with
  | '\r' :: '\n' :: _ => (['\n'], next 2)
  | d :: _ =>
      if d = '\u2028' ∨ d = '\u2029' then ([d], next 1)
      else if isBreak d then (['\n'], next 1)
      else ([], c)
  | [] => ([], c)

/-- The start of the next line, if something stands in this one. -/
def endLine (c : Cursor) : Cursor :=
  if c.column = 0 then c else { c with line := c.line + 1, column := 0 }

def passWhile (p : Char → Bool) (c : Cursor) : List Char × Cursor :=
  let taken := c.rest.takeWhile p
  (taken, c.advance taken.length)

def passBlanks (c : Cursor) : Cursor := (c.passWhile isBlank).2

def passComment (c : Cursor) : Cursor :=
  if c.sees '#' then (c.passWhile fun d => !isBreak d).2 else c

/-- Three dashes or three dots alone at the start of a line. -/
def atDocumentMark (c : Cursor) (d : Char) : Bool :=
  c.column == 0 && c.rest.take 3 == [d, d, d] && c.blankOrEnd 3

def atAnyDocumentMark (c : Cursor) : Bool :=
  c.atDocumentMark '-' || c.atDocumentMark '.'

end Cursor

end PluginHost.Yaml
