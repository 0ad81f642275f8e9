import PluginHost.Json.Document

/-!
Reading JSON text into a document, once from left to right. A step returns what is left of the
text, or nothing if the text broke off.
-/

namespace PluginHost.Json

def isSpace (c : Char) : Bool :=
  c == ' ' || c == '\n' || c == '\t' || c == '\r'

def skipSpace (s : List Char) : List Char :=
  s.dropWhile isSpace

/-- A character of a string, or a code unit given by its number. -/
inductive Piece where
  | char (c : Char)
  | unit (n : Nat)

def hexValue? (c : Char) : Option Nat :=
  if '0' ≤ c ∧ c ≤ '9' then some (c.toNat - 0x30)
  else if 'a' ≤ c ∧ c ≤ 'f' then some (c.toNat - 0x61 + 10)
  else if 'A' ≤ c ∧ c ≤ 'F' then some (c.toNat - 0x41 + 10)
  else none

def unit? (a b c d : Char) : Option Nat := do
  pure (4096 * (← hexValue? a) + 256 * (← hexValue? b) + 16 * (← hexValue? c) + (← hexValue? d))

def escaped? (c : Char) : Option Char :=
  match c with
  | '"' => some '"'
  | '\\' => some '\\'
  | '/' => some '/'
  | 'b' => some '\x08'
  | 'f' => some '\x0c'
  | 'n' => some '\n'
  | 'r' => some '\r'
  | 't' => some '\t'
  | _ => none

/-- The pieces up to the closing quote, and what follows it. -/
def pieces? : List Char → Option (List Piece × List Char)
  | [] => none
  | '"' :: rest => some ([], rest)
  | '\\' :: 'u' :: a :: b :: c :: d :: rest => do
      let n ← unit? a b c d
      let (more, rest) ← pieces? rest
      pure (.unit n :: more, rest)
  | '\\' :: c :: rest => do
      let c ← escaped? c
      let (more, rest) ← pieces? rest
      pure (.char c :: more, rest)
  | c :: rest =>
      if c.toNat < 0x20 ∨ c = '\\' then
        none
      else do
        let (more, rest) ← pieces? rest
        pure (.char c :: more, rest)

def isHigh (n : Nat) : Bool :=
  0xD800 ≤ n && n ≤ 0xDBFF

def isLow (n : Nat) : Bool :=
  0xDC00 ≤ n && n ≤ 0xDFFF

/-- Joins surrogates; an unpaired one leaves no character and is recorded. -/
def joinPieces : List Piece → List Char × Bool
  | [] => ([], true)
  | .char c :: rest =>
      let (chars, paired) := joinPieces rest
      (c :: chars, paired)
  | .unit high :: .unit low :: rest =>
      if isHigh high ∧ isLow low then
        let (chars, paired) := joinPieces rest
        (Char.ofNat (0x10000 + 1024 * (high - 0xD800) + (low - 0xDC00)) :: chars, paired)
      else
        let (chars, paired) := joinPieces (.unit low :: rest)
        if isHigh high ∨ isLow high then (chars, false)
        else (Char.ofNat high :: chars, paired)
  | .unit n :: rest =>
      let (chars, paired) := joinPieces rest
      if isHigh n ∨ isLow n then (chars, false) else (Char.ofNat n :: chars, paired)

def string? (s : List Char) : Option (Str × List Char) :=
  (pieces? s).map fun (pieces, rest) =>
    let (chars, paired) := joinPieces pieces
    (⟨String.ofList chars, paired⟩, rest)

def digits (s : List Char) : List Char × List Char :=
  (s.takeWhile Char.isDigit, s.dropWhile Char.isDigit)

def exponent? (s : List Char) : Option (Option (Bool × List Char) × List Char) :=
  match s with
  | c :: rest =>
      if c = 'e' ∨ c = 'E' then
        let (negative, rest) : Bool × List Char :=
          match rest with
          | '-' :: rest => (true, rest)
          | '+' :: rest => (false, rest)
          | rest => (false, rest)
        let (power, rest) := digits rest
        if power = [] then none else some (some (negative, power), rest)
      else
        some (none, s)
  | [] => some (none, s)

def fraction? (s : List Char) : Option (List Char × List Char) :=
  match s with
  | '.' :: rest =>
      let (places, rest) := digits rest
      if places = [] then none else some (places, rest)
  | _ => some ([], s)

def numeral? (negative : Bool) (s : List Char) : Option (Numeral × List Char) := do
  let (whole, rest) := digits s
  if whole = [] ∨ (whole.head? = some '0' ∧ whole ≠ ['0']) then
    none
  else do
    let (places, rest) ← fraction? rest
    let (power, rest) ← exponent? rest
    pure (⟨negative, whole, places, power, places ≠ [] ∨ power ≠ none⟩, rest)

/-- What follows `word`, if the text starts with it. -/
def after? (word s : List Char) : Option (List Char) :=
  if word.isPrefixOf s then some (s.drop word.length) else none

def scalar? (s : List Char) : Option (Document × List Char) :=
  match s with
  | '"' :: rest => (string? rest).map fun (text, rest) => (.string text, rest)
  | '-' :: rest => (numeral? true rest).map fun (n, rest) => (.number n, rest)
  | 'n' :: rest => (after? ['u', 'l', 'l'] rest).map fun rest => (.null, rest)
  | 't' :: rest => (after? ['r', 'u', 'e'] rest).map fun rest => (.bool true, rest)
  | 'f' :: rest => (after? ['a', 'l', 's', 'e'] rest).map fun rest => (.bool false, rest)
  | _ => (numeral? false s).map fun (n, rest) => (.number n, rest)

mutual

/-- One value. The depth of the recursion is at most the length of the text. -/
def readValue : Nat → List Char → Document × Option (List Char)
  | 0, _ => (.broken, none)
  | fuel + 1, s =>
      match skipSpace s with
      | '[' :: rest =>
          match readItems fuel true rest with
          | (items, ending, left) => (.array items ending, left)
      | '\x7b' :: rest =>
          match readMembers fuel true rest with
          | (members, ending, left) => (.object members ending, left)
      | s =>
          match scalar? s with
          | some (document, rest) => (document, some rest)
          | none => (.broken, none)

def readItems : Nat → Bool → List Char →
    List Document × Ending × Option (List Char)
  | 0, _, _ => ([], .cut, none)
  | fuel + 1, first, s =>
      match first, skipSpace s with
      | _, ']' :: rest => ([], .closed, some rest)
      | true, s => readItem fuel s
      | false, ',' :: rest =>
          match skipSpace rest with
          | ']' :: _ => ([], .cut, none)
          | rest => readItem fuel rest
      | false, _ => ([], .cut, none)

def readItem : Nat → List Char → List Document × Ending × Option (List Char)
  | 0, _ => ([], .cut, none)
  | fuel + 1, s =>
      match readValue fuel s with
      | (item, none) => ([item], .cut, none)
      | (item, some rest) =>
          match readItems fuel false rest with
          | (items, ending, left) => (item :: items, ending, left)

def readMembers : Nat → Bool → List Char →
    List (Str × Document) × Ending × Option (List Char)
  | 0, _, _ => ([], .cut, none)
  | fuel + 1, first, s =>
      match first, skipSpace s with
      | _, '\x7d' :: rest => ([], .closed, some rest)
      | true, s => readMember fuel s
      | false, ',' :: rest => readMember fuel (skipSpace rest)
      | false, _ => ([], .cut, none)

def readMember : Nat → List Char →
    List (Str × Document) × Ending × Option (List Char)
  | 0, _ => ([], .cut, none)
  | fuel + 1, s =>
      match s with
      | '"' :: rest =>
          match string? rest with
          | none => ([], .cut, none)
          | some (key, rest) =>
              match skipSpace rest with
              | ':' :: rest =>
                  match readValue fuel rest with
                  | (value, none) => ([(key, value)], .cut, none)
                  | (value, some rest) =>
                      match readMembers fuel false rest with
                      | (members, ending, left) => ((key, value) :: members, ending, left)
              | _ => ([(key, .broken)], .cut, none)
      | _ => ([], .cut, none)

end

/-- A whole text: its document, and whether nothing but space follows it. -/
structure Source where
  document : Document
  complete : Bool

def Source.ofString (s : String) : Source :=
  let chars := s.toList
  match readValue (4 * chars.length + 4) chars with
  | (document, none) => ⟨document, false⟩
  | (document, some rest) => ⟨document, skipSpace rest = []⟩

end PluginHost.Json
