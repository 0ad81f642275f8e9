import PluginHost.Yaml.Token

/-!
The texts of scalars: plain, quoted and block scalars with line folding and escapes. Each reader
starts behind the mark that opens the scalar and gives the text and the cursor behind it, or
nothing if the scalar is faulty.
-/

namespace PluginHost.Yaml

/-- Blanks and line breaks between two words of a scalar. -/
structure Gap where
  blanks : List Char
  firstBreak : List Char
  moreBreaks : List Char
  broken : Bool

namespace Gap

def none : Gap := ⟨[], [], [], false⟩

/-- What the gap counts as: one line break is folded to a space, of more the first is dropped. -/
def text (gap : Gap) : List Char :=
  if gap.broken then
    if gap.firstBreak.head? = some '\n' then
      if gap.moreBreaks = [] then [' '] else gap.moreBreaks
    else gap.firstBreak ++ gap.moreBreaks
  else gap.blanks

/-- Passes blanks and line breaks. A tab left of `indent` on a fresh line is a fault. -/
def pass (indent : Option Int) : Nat → Gap → Cursor → Option (Gap × Cursor)
  | 0, gap, c => some (gap, c)
  | fuel + 1, gap, c =>
      match c.peek? with
      | Option.none => some (gap, c)
      | some d =>
          if isBlank d then
            if gap.broken ∧ isTab d ∧ indent.any (fun i => (c.column : Int) < i) then
              Option.none
            else if gap.broken then pass indent fuel gap c.skip
            else pass indent fuel { gap with blanks := gap.blanks ++ [d] } c.skip
          else if isBreak d then
            let (text, next) := c.passBreak
            if gap.broken then
              pass indent fuel { gap with moreBreaks := gap.moreBreaks ++ text } next
            else pass indent fuel { gap with blanks := [], firstBreak := text, broken := true } next
          else some (gap, c)

end Gap

def flowMarks : List Char := [',', '[', ']', '\x7b', '\x7d']

/-- The characters of a plain scalar up to a blank, a line break or an indicator. -/
def plainWord (flow : Bool) : Nat → Cursor → Option (List Char × Cursor)
  | 0, c => some ([], c)
  | fuel + 1, c =>
      match c.peek? with
      | none => some ([], c)
      | some d =>
          if isBlank d || isBreak d then some ([], c)
          else if flow && d == ':' && c.holds 1 (fun e => e == '?' || flowMarks.contains e) then none
          else if (d == ':' && c.blankOrEnd 1) || (flow && flowMarks.contains d) then some ([], c)
          else (plainWord flow fuel c.skip).map fun (word, next) => (d :: word, next)

/-- A plain scalar, and whether it ended behind a line break. -/
def plainText (flow : Bool) (indent : Int) :
    Nat → Gap → Cursor → Option (List Char × Cursor × Bool)
  | 0, gap, c => some ([], c, gap.broken)
  | fuel + 1, gap, c =>
      if c.atAnyDocumentMark || c.sees '#' then
        some ([], c, gap.broken)
      else do
        let (word, next) ← plainWord flow (c.rest.length + 1) c
        let before := if word = [] then [] else gap.text ++ word
        let broken := gap.broken && word.isEmpty
        if !next.blankOrBreak then
          pure (before, next, broken)
        else do
          let held := if word = [] then gap else Gap.none
          let (gap, next) ← held.pass (some indent) (next.rest.length + 1) next
          if !flow && (next.column : Int) < indent then
            pure (before, next, gap.broken)
          else do
            let (more, next, broken) ← plainText flow indent fuel gap next
            pure (before ++ more, next, broken)

def hexDigit? (c : Char) : Option Nat :=
  if c.isDigit then some (c.toNat - '0'.toNat)
  else if 'a' ≤ c ∧ c ≤ 'f' then some (c.toNat - 'a'.toNat + 10)
  else if 'A' ≤ c ∧ c ≤ 'F' then some (c.toNat - 'A'.toNat + 10)
  else none

def hexNumber? (s : List Char) : Option Nat :=
  (s.mapM hexDigit?).map fun values => values.foldl (fun n v => 16 * n + v) 0

def namedEscape? (c : Char) : Option Char :=
  match c with
  | '0' => some '\x00'
  | 'a' => some '\x07'
  | 'b' => some '\x08'
  | 't' => some '\t'
  | '\t' => some '\t'
  | 'n' => some '\n'
  | 'v' => some '\x0b'
  | 'f' => some '\x0c'
  | 'r' => some '\r'
  | 'e' => some '\x1b'
  | ' ' => some ' '
  | '"' => some '"'
  | '/' => some '/'
  | '\\' => some '\\'
  | 'N' => some '\u0085'
  | '_' => some '\u00a0'
  | 'L' => some '\u2028'
  | 'P' => some '\u2029'
  | _ => none

def escapeLength (c : Char) : Nat :=
  if c = 'x' then 2 else if c = 'u' then 4 else if c = 'U' then 8 else 0

def escape? (c : Cursor) : Option (Char × Cursor) := do
  let d ← c.peek?
  let length := escapeLength d
  if length = 0 then
    pure (← namedEscape? d, c.skip)
  else
    let digits := c.skip.rest.take length
    let n ← hexNumber? digits
    if digits.length = length ∧ n.isValidChar then
      pure (Char.ofNat n, c.advance (length + 1))
    else
      none

/-- The characters of a quoted scalar up to a blank, a line break or the closing quote, and
whether they ended with an escaped line break. -/
def quotedWord (double : Bool) : Nat → Cursor → Option (List Char × Cursor × Bool)
  | 0, c => some ([], c, false)
  | fuel + 1, c =>
      match c.peek? with
      | none => some ([], c, false)
      | some d =>
          let more (e : Char) (next : Cursor) :=
            (quotedWord double fuel next).map fun (word, next, escaped) => (e :: word, next, escaped)
          if isBlank d || isBreak d then some ([], c, false)
          else if !double && d == '\'' && c.peekAt? 1 == some '\'' then more '\'' (c.advance 2)
          else if d == (if double then '"' else '\'') then some ([], c, false)
          else if double && d == '\\' then
            if c.holds 1 isBreak then some ([], c.skip.passBreak.2, true)
            else
              match escape? c.skip with
              | none => none
              | some (e, next) => more e next
          else more d c.skip

def quotedText (double : Bool) : Nat → Cursor → Option (List Char × Cursor)
  | 0, _ => none
  | fuel + 1, c =>
      if c.atAnyDocumentMark || c.atEnd then
        none
      else do
        let (word, next, escaped) ← quotedWord double (c.rest.length + 1) c
        if next.sees (if double then '"' else '\'') then
          pure (word, next.skip)
        else do
          let start : Gap := { Gap.none with broken := escaped }
          let (gap, next) ← start.pass none (next.rest.length + 1) next
          let (more, next) ← quotedText double fuel next
          pure (word ++ gap.text ++ more, next)

inductive Chomp where
  | strip
  | clip
  | keep
  deriving DecidableEq

/-- The indicators behind the mark of a block scalar: chomping and extra indentation. -/
def blockHeader? (c : Cursor) : Option (Chomp × Option Nat × Cursor) :=
  let chomp? (c : Cursor) : Option Chomp :=
    if c.sees '+' then some .keep else if c.sees '-' then some .strip else none
  let digit? (c : Cursor) : Option (Option Nat × Cursor) :=
    match c.peek? with
    | some d =>
        if d.isDigit then
          if d = '0' then none else some (some (d.toNat - '0'.toNat), c.skip)
        else some (none, c)
    | none => some (none, c)
  match chomp? c with
  | some chomp => (digit? c.skip).map fun (digit, next) => (chomp, digit, next)
  | none =>
      match digit? c with
      | none => none
      | some (none, next) => some (.clip, none, next)
      | some (some digit, next) =>
          match chomp? next with
          | some chomp => some (chomp, some digit, next.skip)
          | none => some (.clip, some digit, next)

/-- Passes empty lines and the indentation of the next one. With no indentation known yet the
deepest of these lines is measured. -/
def blockBreaks (indent : Nat) : Nat → Nat → List Char → Cursor → Option (List Char × Nat × Cursor)
  | 0, deepest, breaks, c => some (breaks, deepest, c)
  | fuel + 1, deepest, breaks, c =>
      let spaces := c.rest.takeWhile (· == ' ')
      let count := if indent = 0 then spaces.length else min spaces.length (indent - c.column)
      let c := c.advance count
      let deepest := max deepest c.column
      if (indent = 0 ∨ c.column < indent) ∧ c.holds 0 isTab then none
      else if c.holds 0 isBreak then
        let (text, next) := c.passBreak
        blockBreaks indent fuel deepest (breaks ++ text) next
      else some (breaks, deepest, c)

/-- The lines of a block scalar: its text, the break of the last line, and the empty lines that
follow. -/
def blockLines (literal : Bool) (indent : Nat) :
    Nat → List Char → List Char → Bool → Cursor → Option (List Char × List Char × List Char × Cursor)
  | 0, lead, trail, _, c => some ([], lead, trail, c)
  | fuel + 1, lead, trail, leadingBlank, c =>
      if c.column ≠ indent ∨ c.atEnd then
        some ([], lead, trail, c)
      else
        let blank := c.holds 0 isBlank
        let joint :=
          if !literal && lead.head? == some '\n' && !leadingBlank && !blank then
            (if trail = [] then [' '] else []) ++ trail
          else lead ++ trail
        let (line, next) := c.passWhile fun d => !isBreak d
        let (lead, next) := next.passBreak
        match blockBreaks indent (next.rest.length + 1) 0 [] next with
        | none => none
        | some (trail, _, next) =>
            (blockLines literal indent fuel lead trail blank next).map
              fun (more, rest) => (joint ++ line ++ more, rest)

/-- A block scalar behind its mark; `parent` is the indentation of what holds it. -/
def blockText (literal : Bool) (parent : Int) (c : Cursor) : Option (List Char × Cursor) := do
  let (chomp, extra, c) ← blockHeader? c
  let c := c.passBlanks.passComment
  if !c.breakOrEnd then
    none
  else
    let (_, c) := c.passBreak
    let given : Nat := extra.elim 0 fun n => (max parent 0).toNat + n
    let (trail, deepest, c) ← blockBreaks given (c.rest.length + 1) 0 [] c
    let indent := if given = 0 then max deepest (max (parent + 1).toNat 1) else given
    let (text, lead, trail, c) ← blockLines literal indent (c.rest.length + 1) [] trail false c
    let ending :=
      match chomp with
      | .strip => []
      | .clip => lead
      | .keep => lead ++ trail
    pure (text ++ ending, c)

end PluginHost.Yaml
