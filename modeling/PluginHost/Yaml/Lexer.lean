import PluginHost.Yaml.ScalarText

/-!
From text to tokens. Indentation opens and closes block collections, and a text turns out to be a
key only when its colon is found on the same line, so a token is settled once no key can be
inserted before it any more. If the text is faulty, the tokens settled before the fault was met are
kept.
-/

namespace PluginHost.Yaml

/-- A place where a key without its own mark may have started. -/
structure KeyPlace where
  possible : Bool
  required : Bool
  token : Nat
  index : Nat
  line : Nat
  column : Nat

def KeyPlace.none : KeyPlace := ⟨false, false, 0, 0, 0, 0⟩

structure Lexer where
  cursor : Cursor
  flow : Nat
  indent : Int
  indents : List Int
  keyAllowed : Bool
  /-- One place for each level of flow collections, the innermost first. -/
  keys : List KeyPlace
  tokens : Array Token

namespace Lexer

def start (s : List Char) : Lexer :=
  { cursor := .start s, flow := 0, indent := -1, indents := [], keyAllowed := true,
    keys := [.none], tokens := #[] }

def emit (l : Lexer) (t : Token) : Lexer :=
  { l with tokens := l.tokens.push t }

def move (l : Lexer) (c : Cursor) : Lexer :=
  { l with cursor := c }

def allowKey (l : Lexer) (allowed : Bool) : Lexer :=
  { l with keyAllowed := allowed }

def inFlow (l : Lexer) : Bool := l.flow != 0

def removeKey (l : Lexer) : Option Lexer :=
  match l.keys with
  | [] => some l
  | key :: rest =>
      if key.possible && key.required then none
      else some { l with keys := { key with possible := false } :: rest }

def saveKey (l : Lexer) : Option Lexer :=
  if l.keyAllowed then do
    let l ← l.removeKey
    let c := l.cursor
    let key : KeyPlace :=
      ⟨true, !l.inFlow && l.indent == c.column, l.tokens.size, c.index, c.line, c.column⟩
    pure { l with keys := key :: l.keys.tail }
  else
    some l

def isStale (c : Cursor) (key : KeyPlace) : Bool :=
  key.possible && (key.line < c.line || key.index + 1024 < c.index)

/-- Gives up keys that are too long or whose line is over. -/
def dropStale (l : Lexer) : Option Lexer :=
  let settle (key : KeyPlace) : KeyPlace :=
    { key with possible := key.possible && !isStale l.cursor key }
  if l.keys.any fun key => isStale l.cursor key && key.required then none
  else some { l with keys := l.keys.map settle }

def insertToken (tokens : Array Token) (position : Nat) (t : Token) : Array Token :=
  (tokens.toList.take position ++ t :: tokens.toList.drop position).toArray

/-- Opens a block collection at `column` if that is deeper than the current block. -/
def indentTo (l : Lexer) (column : Nat) (position : Nat) (t : Token) : Lexer :=
  if !l.inFlow && l.indent < column then
    { l with
      indents := l.indent :: l.indents
      indent := column
      tokens := insertToken l.tokens position t }
  else l

/-- Closes the blocks deeper than `column`. -/
def closeBlocks (column : Int) : List Int → Int → Array Token → List Int × Int × Array Token
  | [], indent, tokens => ([], indent, tokens)
  | outer :: rest, indent, tokens =>
      if indent > column then closeBlocks column rest outer (tokens.push .blockEnd)
      else (outer :: rest, indent, tokens)

def unindent (l : Lexer) (column : Int) : Lexer :=
  if l.inFlow then l
  else
    let (indents, indent, tokens) := closeBlocks column l.indents l.indent l.tokens
    { l with indents := indents, indent := indent, tokens := tokens }

/-- Passes blanks, comments, line breaks, and a byte order mark at the start of a line. Tabs are
not indentation. -/
def toNextToken : Nat → Lexer → Lexer
  | 0, l => l
  | fuel + 1, l =>
      let c := if l.cursor.column = 0 ∧ l.cursor.sees '\ufeff' then l.cursor.skip else l.cursor
      let (_, c) := c.passWhile fun d => d == ' ' || ((l.inFlow || !l.keyAllowed) && d == '\t')
      let c := c.passComment
      if c.holds 0 isBreak then
        toNextToken fuel ((l.move c.passBreak.2).allowKey (l.keyAllowed || !l.inFlow))
      else l.move c

def skipOne (l : Lexer) : Lexer := l.move l.cursor.skip

def openFlow (t : Token) (l : Lexer) : Option Lexer := do
  let l ← l.saveKey
  let l := { l with keys := .none :: l.keys, flow := l.flow + 1 }
  pure ((l.allowKey true).skipOne.emit t)

def closeFlow (t : Token) (l : Lexer) : Option Lexer := do
  let l ← l.removeKey
  let l := if l.inFlow then { l with keys := l.keys.tail, flow := l.flow - 1 } else l
  pure ((l.allowKey false).skipOne.emit t)

def flowEntry (l : Lexer) : Option Lexer := do
  let l ← l.removeKey
  pure ((l.allowKey true).skipOne.emit .flowEntry)

def blockEntry (l : Lexer) : Option Lexer :=
  if !l.inFlow && !l.keyAllowed then none
  else do
    let l := l.indentTo l.cursor.column l.tokens.size .blockSequence
    let l ← l.removeKey
    pure ((l.allowKey true).skipOne.emit .blockEntry)

def explicitKey (l : Lexer) : Option Lexer :=
  if !l.inFlow && !l.keyAllowed then none
  else do
    let l := l.indentTo l.cursor.column l.tokens.size .blockMapping
    let l ← l.removeKey
    pure ((l.allowKey (!l.inFlow)).skipOne.emit .key)

def value (l : Lexer) : Option Lexer :=
  let key := l.keys.headD .none
  if key.possible then
    let l := { l with tokens := insertToken l.tokens key.token .key }
    let l := l.indentTo key.column key.token .blockMapping
    let l := { l with keys := { key with possible := false } :: l.keys.tail }
    some ((l.allowKey false).skipOne.emit .value)
  else if !l.inFlow && !l.keyAllowed then none
  else
    let l := l.indentTo l.cursor.column l.tokens.size .blockMapping
    some ((l.allowKey (!l.inFlow)).skipOne.emit .value)

def nameEnds (c : Cursor) : Bool :=
  c.blankOrEnd 0 || c.holds 0 fun d => ['?', ':', ',', ']', '\x7d', '%', '@', '\x60'].contains d

def named (t : List Char → Token) (l : Lexer) : Option Lexer := do
  let l ← l.saveKey
  let (name, c) := l.cursor.skip.passWhile isWord
  if name = [] || !nameEnds c then none
  else pure (((l.allowKey false).move c).emit (t name))

def uriMarks : List Char :=
  [';', '/', '?', ':', '@', '&', '=', '+', '$', '.', '!', '~', '*', '\'', '(', ')']

def isUri (verbatim : Bool) (d : Char) : Bool :=
  isWord d || uriMarks.contains d || (verbatim && (d == ',' || d == '[' || d == ']'))

def escapedOctet? (c : Cursor) : Option (UInt8 × Cursor) :=
  match c.rest with
  | '%' :: high :: low :: _ =>
      (hexNumber? [high, low]).map fun octet => (UInt8.ofNat octet, c.advance 3)
  | _ => none

/-- How many octets a character takes, by the first of them; none if no character starts so. -/
def octetCount (first : Nat) : Nat :=
  if first < 0x80 then 1 else if first / 32 = 6 then 2 else if first / 16 = 14 then 3
  else if first / 8 = 30 then 4 else 0

def escapedRest : Nat → Cursor → Option (Octets × Cursor)
  | 0, c => some ([], c)
  | n + 1, c => do
      let (octet, c) ← escapedOctet? c
      if octet.toNat / 64 ≠ 2 then none
      else do
        let (more, c) ← escapedRest n c
        pure (octet :: more, c)

/-- A character given as percent escapes. Only the leading bits of its octets are checked. -/
def escapedChar? (c : Cursor) : Option (Octets × Cursor) := do
  let (first, c) ← escapedOctet? c
  let count := octetCount first.toNat
  if count = 0 then none
  else do
    let (more, c) ← escapedRest (count - 1) c
    pure (first :: more, c)

def uri (verbatim : Bool) : Nat → Cursor → Option (Octets × Cursor)
  | 0, c => some ([], c)
  | fuel + 1, c =>
      match c.peek? with
      | none => some ([], c)
      | some d =>
          if d = '%' then do
            let (octets, c) ← escapedChar? c
            let (more, c) ← uri verbatim fuel c
            pure (octets ++ more, c)
          else if isUri verbatim d then do
            let (more, c) ← uri verbatim fuel c.skip
            pure (Text.Hex.octetsOf [d] ++ more, c)
          else some ([], c)

def untilZero (octets : Octets) : Octets :=
  octets.takeWhile (· ≠ 0)

/-- A handle: an exclamation mark, letters, and perhaps a second mark. -/
def handle? (c : Cursor) : Option (List Char × Cursor) :=
  if c.sees '!' then
    let (name, next) := c.skip.passWhile isWord
    if next.sees '!' then some ('!' :: name ++ ['!'], next.skip) else some ('!' :: name, next)
  else none

def tagEnds (l : Lexer) (c : Cursor) : Bool :=
  c.blankOrEnd 0 || (l.inFlow && c.sees ',')

def tag (l : Lexer) : Option Lexer := do
  let l ← l.saveKey
  let l := l.allowKey false
  let fuel := l.cursor.rest.length + 1
  let (t, c) ←
    if l.cursor.peekAt? 1 == some '<' then do
      let (name, c) ← uri true fuel (l.cursor.advance 2)
      if name = [] || !c.sees '>' then none else pure (Token.tag [] (untilZero name), c.skip)
    else do
      let (head, c) ← handle? l.cursor
      let (name, c) ← uri false fuel c
      if 1 < head.length ∧ head.getLast? = some '!' then
        if name = [] then none else pure (Token.tag head (untilZero name), c)
      else
        let name := Text.Hex.octetsOf head.tail ++ untilZero name
        if name = [] then pure (Token.tag [] (Text.Hex.octetsOf ['!']), c)
        else pure (Token.tag ['!'] name, c)
  if tagEnds l c then pure ((l.move c).emit t) else none

def styled (style : Style) (l : Lexer) (text : List Char) (c : Cursor) : Lexer :=
  (l.move c).emit (.scalar text style)

def block (style : Style) (l : Lexer) : Option Lexer := do
  let l ← l.removeKey
  let (text, c) ← blockText (style == .literal) l.indent l.cursor.skip
  pure (styled style (l.allowKey true) text c)

def quoted (style : Style) (l : Lexer) : Option Lexer := do
  let l ← l.saveKey
  let fuel := l.cursor.rest.length + 1
  let (text, c) ← quotedText (style == .doubleQuoted) fuel l.cursor.skip
  pure (styled style (l.allowKey false) text c)

def plain (l : Lexer) : Option Lexer := do
  let l ← l.saveKey
  let fuel := l.cursor.rest.length + 1
  let (text, c, broken) ← plainText l.inFlow (l.indent + 1) fuel .none l.cursor
  pure (styled .plain (l.allowKey broken) text c)

def versionNumber? (c : Cursor) : Option (Nat × Cursor) :=
  let (digits, next) := c.passWhile Char.isDigit
  if digits = [] ∨ digits.length > 9 then none
  else some (Nat.ofDigitChars 10 digits 0, next)

def directiveEnd? (c : Cursor) : Option Cursor :=
  let c := c.passBlanks.passComment
  if c.breakOrEnd then some c.passBreak.2 else none

def directive (l : Lexer) : Option Lexer := do
  let l ← (l.unindent (-1)).removeKey
  let l := l.allowKey false
  let (name, c) := l.cursor.skip.passWhile isWord
  if name = [] || !c.blankOrEnd 0 then
    none
  else if name = "YAML".toList then do
    let (major, c) ← versionNumber? c.passBlanks
    if !c.sees '.' then none
    else do
      let (minor, c) ← versionNumber? c.skip
      let c ← directiveEnd? c
      pure ((l.move c).emit (.version major minor))
  else if name = "TAG".toList then do
    let (head, c) ← handle? c.passBlanks
    if !(head = ['!'] || (1 < head.length && head.getLast? == some '!')) || !c.holds 0 isBlank then
      none
    else do
      let c := c.passBlanks
      let (meaning, c) ← uri true (c.rest.length + 1) c
      if meaning = [] || !c.blankOrEnd 0 then none
      else do
        let c ← directiveEnd? c
        pure ((l.move c).emit (.tagHandle head (untilZero meaning)))
  else
    none

def documentMark (t : Token) (l : Lexer) : Option Lexer := do
  let l ← (l.unindent (-1)).removeKey
  pure (((l.allowKey false).move (l.cursor.advance 3)).emit t)

def streamEnd (l : Lexer) : Option Lexer := do
  let l ← ((l.move l.cursor.endLine).unindent (-1)).removeKey
  pure ((l.allowKey false).emit .streamEnd)

def plainMarks : List Char :=
  ['-', '?', ':', ',', '[', ']', '\x7b', '\x7d', '#', '&', '*', '!', '|', '>', '\'', '"', '%', '@',
    '\x60']

def startsPlain (l : Lexer) : Bool :=
  let c := l.cursor
  (!c.blankOrEnd 0 && !c.holds 0 plainMarks.contains) ||
    (c.sees '-' && !c.holds 1 isBlank) ||
    (!l.inFlow && (c.sees '?' || c.sees ':') && !c.blankOrEnd 1)

/-- Adds the next token, with the block ends before it. -/
def next (l : Lexer) : Option Lexer := do
  let l ← (toNextToken (l.cursor.rest.length + 1) l).dropStale
  let l := l.unindent l.cursor.column
  let c := l.cursor
  let d := c.peek?
  if c.atEnd then l.streamEnd
  else if c.column = 0 && c.sees '%' then l.directive
  else if c.atDocumentMark '-' then l.documentMark .documentStart
  else if c.atDocumentMark '.' then l.documentMark .documentEnd
  else if d = some '[' then l.openFlow .flowSequence
  else if d = some '\x7b' then l.openFlow .flowMapping
  else if d = some ']' then l.closeFlow .flowSequenceEnd
  else if d = some '\x7d' then l.closeFlow .flowMappingEnd
  else if d = some ',' then l.flowEntry
  else if d = some '-' ∧ c.blankOrEnd 1 then l.blockEntry
  else if d = some '?' ∧ (l.inFlow || c.blankOrEnd 1) then l.explicitKey
  else if d = some ':' ∧ (l.inFlow || c.blankOrEnd 1) then l.value
  else if d = some '*' then l.named .alias
  else if d = some '&' then l.named .anchor
  else if d = some '!' then l.tag
  else if d = some '|' ∧ !l.inFlow then l.block .literal
  else if d = some '>' ∧ !l.inFlow then l.block .folded
  else if d = some '\'' then l.quoted .singleQuoted
  else if d = some '"' then l.quoted .doubleQuoted
  else if l.startsPlain then l.plain
  else none

/-- The tokens before which no key can be inserted any more. -/
def settled (l : Lexer) : List Token :=
  let bound := l.keys.foldl (fun n key => if key.possible then min n key.token else n) l.tokens.size
  l.tokens.toList.take bound

/-- Adds tokens up to the end of the text. A step after which a key that is needed has become stale
is a faulty one. -/
def run : Nat → Lexer → List Token
  | 0, l => l.settled
  | fuel + 1, l =>
      match l.next.bind dropStale with
      | none => l.settled
      | some l => if l.tokens.back? = some .streamEnd then l.tokens.toList else run fuel l

end Lexer

def tokens (s : String) : List Token :=
  let chars := s.toList
  if chars.all isAllowed then (Lexer.start chars).run (chars.length + 2) else []

end PluginHost.Yaml
