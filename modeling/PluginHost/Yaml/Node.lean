import PluginHost.Collection.Table
import PluginHost.Yaml.Lexer

/-!
The nodes of a YAML document, composed from tokens as far as the text can be read. Where it stops
being YAML the tree ends in a `broken` leaf, so that whoever reads it from left to right meets a
wrong value before the fault exactly if it stands before the fault.
-/

namespace PluginHost.Yaml

inductive Node where
  | scalar (text : List Char) (style : Style) (tag : Option Octets)
  | sequence (tag : Option Octets) (items : List Node)
  | mapping (tag : Option Octets) (entries : List (Node × Node))
  /-- Stands for what was anchored last under `number`. -/
  | alias (number : Nat)
  | broken

namespace Node

def empty : Node := .scalar [] .plain none

mutual

def intact : Node → Bool
  | .sequence _ items => intactItems items
  | .mapping _ entries => intactEntries entries
  | .broken => false
  | _ => true

def intactItems : List Node → Bool
  | [] => true
  | node :: rest => node.intact && intactItems rest

def intactEntries : List (Node × Node) → Bool
  | [] => true
  | (key, value) :: rest => key.intact && value.intact && intactEntries rest

end

end Node

/-- What is left to read of a document: no tokens after a fault. An anchor's number counts the names
before it, and a node is recorded under its number as soon as it opens, as yet without its
contents. -/
structure Composer where
  tokens : List Token
  handles : List (List Char × Octets)
  numbers : Table (List Char) Nat
  anchored : Table Nat Node

/-- A part of the tree and the way on. -/
abbrev Composed (α : Type) := α × Composer

namespace Composer

def withTokens (c : Composer) (tokens : List Token) : Composer :=
  { c with tokens }

def fault (c : Composer) : Composed Node :=
  (.broken, c.withTokens [])

def anchor (c : Composer) (name : Option (List Char)) (opening : Node) : Composer :=
  match name with
  | none => c
  | some name =>
      let number := c.numbers.size
      { c with
        numbers := c.numbers.put name number
        anchored := c.anchored.put number opening }

def fullTag? (c : Composer) : Option (List Char × Octets) → Option (Option Octets)
  | none => some none
  | some ([], rest) => some (some rest)
  | some (handle, rest) =>
      (c.handles.find? (·.1 = handle)).map fun (_, meaning) => some (meaning ++ rest)

/-- An anchor and a tag, in either order, each at most once. -/
def properties (tokens : List Token) :
    Option (List Char) × Option (List Char × Octets) × List Token :=
  match tokens with
  | .anchor name :: .tag handle rest :: more => (some name, some (handle, rest), more)
  | .tag handle rest :: .anchor name :: more => (some name, some (handle, rest), more)
  | .anchor name :: more => (some name, none, more)
  | .tag handle rest :: more => (none, some (handle, rest), more)
  | _ => (none, none, tokens)

def endsBlockItem (t : Token) : Bool :=
  t == .blockEntry || t == .blockEnd

def endsBlockSide (t : Token) : Bool :=
  t == .key || t == .value || t == .blockEnd

def endsInlineItem (t : Token) : Bool :=
  t == .blockEntry || endsBlockSide t

def endsFlowPair (t : Token) : Bool :=
  t == .flowEntry || t == .flowSequenceEnd

def endsFlowSide (t : Token) : Bool :=
  t == .flowEntry || t == .flowMappingEnd

def pair (key : Composed Node) (value : Composer → Composed Node) : Composed (Node × Node) :=
  let (key, c) := key
  let (value, c) := value c
  ((key, value), c)

def more (first : Composed α) (rest : Composer → Composed (List α)) : Composed (List α) :=
  let (item, c) := first
  let (items, c) := rest c
  (item :: items, c)

/-- The value of a key that stands alone; something has to follow even here. -/
def bareSide (c : Composer) : Composed Node :=
  if c.tokens.isEmpty then c.fault else (.empty, c)

def noItem (c : Composer) : Composed (List Node) :=
  ([.broken], c.withTokens [])

def noEntry (c : Composer) : Composed (List (Node × Node)) :=
  ([(.broken, .broken)], c.withTokens [])

mutual

/-- A node; `block` admits block collections, and `inline` a sequence at the indentation of its
key. -/
def node : Nat → Bool → Bool → Composer → Composed Node
  | 0, _, _, c => c.fault
  | fuel + 1, block, inline, c =>
      match c.tokens with
      | .alias name :: rest =>
          match c.numbers.get? name with
          | some number => (.alias number, c.withTokens rest)
          | none => c.fault
      | tokens =>
          let (name, tag, tokens) := properties tokens
          match c.fullTag? tag with
          | none => c.fault
          | some tag => content fuel block inline name tag (c.withTokens tokens)

def content : Nat → Bool → Bool → Option (List Char) → Option Octets → Composer → Composed Node
  | 0, _, _, _, _, c => c.fault
  | fuel + 1, block, inline, name, tag, c =>
      let openSequence := c.anchor name (.sequence tag [])
      let openMapping := c.anchor name (.mapping tag [])
      match c.tokens with
      | [] => c.fault
      | .scalar text style :: rest =>
          let scalar := Node.scalar text style tag
          (scalar, (c.anchor name scalar).withTokens rest)
      | .flowSequence :: rest =>
          let (items, c) := flowItems fuel true (openSequence.withTokens rest)
          (.sequence tag items, c)
      | .flowMapping :: rest =>
          let (entries, c) := flowEntries fuel true (openMapping.withTokens rest)
          (.mapping tag entries, c)
      | first :: rest =>
          if inline && first == .blockEntry then
            let (items, c) := inlineItems fuel openSequence
            (.sequence tag items, c)
          else if block && first == .blockSequence then
            let (items, c) := blockItems fuel (openSequence.withTokens rest)
            (.sequence tag items, c)
          else if block && first == .blockMapping then
            let (entries, c) := blockEntries fuel (openMapping.withTokens rest)
            (.mapping tag entries, c)
          else if name.isSome || tag.isSome then
            let scalar := Node.scalar [] .plain tag
            (scalar, c.anchor name scalar)
          else
            c.fault

/-- A node, or nothing where a token that `ends` accepts follows at once. -/
def slot : Nat → Bool → Bool → (Token → Bool) → Composer → Composed Node
  | 0, _, _, _, c => c.fault
  | fuel + 1, block, inline, ends, c =>
      match c.tokens with
      | [] => c.fault
      | first :: _ => if ends first then (.empty, c) else node fuel block inline c

/-- What follows a colon; nothing if no colon is there. -/
def valueSlot : Nat → Bool → (Token → Bool) → Composer → Composed Node
  | 0, _, _, c => c.fault
  | fuel + 1, block, ends, c =>
      match c.tokens with
      | [] => c.fault
      | .value :: rest => slot fuel block block ends (c.withTokens rest)
      | _ => (.empty, c)

def blockItems : Nat → Composer → Composed (List Node)
  | 0, c => noItem c
  | fuel + 1, c =>
      match c.tokens with
      | .blockEntry :: rest =>
          more (slot fuel true false endsBlockItem (c.withTokens rest)) fun c => blockItems fuel c
      | .blockEnd :: rest => ([], c.withTokens rest)
      | _ => noItem c

def inlineItems : Nat → Composer → Composed (List Node)
  | 0, c => noItem c
  | fuel + 1, c =>
      match c.tokens with
      | [] => noItem c
      | .blockEntry :: rest =>
          more (slot fuel true false endsInlineItem (c.withTokens rest)) fun c =>
            inlineItems fuel c
      | _ => ([], c)

def blockEntries : Nat → Composer → Composed (List (Node × Node))
  | 0, c => noEntry c
  | fuel + 1, c =>
      match c.tokens with
      | .key :: rest =>
          let entry := pair (slot fuel true true endsBlockSide (c.withTokens rest)) fun c =>
            valueSlot fuel true endsBlockSide c
          more entry fun c => blockEntries fuel c
      | .blockEnd :: rest => ([], c.withTokens rest)
      | _ => noEntry c

def flowItems : Nat → Bool → Composer → Composed (List Node)
  | 0, _, c => noItem c
  | fuel + 1, first, c =>
      match c.tokens with
      | .flowSequenceEnd :: rest => ([], c.withTokens rest)
      | .flowEntry :: rest =>
          if first then flowItem fuel c else flowItem fuel (c.withTokens rest)
      | _ => if first then flowItem fuel c else noItem c

/-- An item of a flow sequence; a lone pair counts as a mapping. -/
def flowItem : Nat → Composer → Composed (List Node)
  | 0, c => noItem c
  | fuel + 1, c =>
      match c.tokens with
      | [] => noItem c
      | .flowSequenceEnd :: rest => ([], c.withTokens rest)
      | .key :: rest =>
          let (entry, next) := pair (flowPairKey fuel (c.withTokens rest)) fun c =>
            valueSlot fuel false endsFlowPair c
          more (.mapping none [entry], next) fun c => flowItems fuel false c
      | _ => more (node fuel false false c) fun c => flowItems fuel false c

/-- The key of a lone pair. One that is left out takes the token after it along. -/
def flowPairKey : Nat → Composer → Composed Node
  | 0, c => c.fault
  | fuel + 1, c =>
      match c.tokens with
      | [] => c.fault
      | first :: rest =>
          if first == .value || endsFlowPair first then (.empty, c.withTokens rest)
          else node fuel false false c

def flowEntries : Nat → Bool → Composer → Composed (List (Node × Node))
  | 0, _, c => noEntry c
  | fuel + 1, first, c =>
      match c.tokens with
      | .flowMappingEnd :: rest => ([], c.withTokens rest)
      | .flowEntry :: rest =>
          if first then flowSides fuel c else flowSides fuel (c.withTokens rest)
      | _ => if first then flowSides fuel c else noEntry c

/-- An entry of a flow mapping; a key without a colon has no value. -/
def flowSides : Nat → Composer → Composed (List (Node × Node))
  | 0, c => noEntry c
  | fuel + 1, c =>
      match c.tokens with
      | [] => noEntry c
      | .flowMappingEnd :: rest => ([], c.withTokens rest)
      | .key :: rest =>
          let key := slot fuel false false (fun t => t == .value || endsFlowSide t)
            (c.withTokens rest)
          let entry := pair key fun c => valueSlot fuel false endsFlowSide c
          more entry fun c => flowEntries fuel false c
      | _ =>
          let entry := pair (node fuel false false c) bareSide
          more entry fun c => flowEntries fuel false c

end

end Composer

structure Document where
  root : Option Node
  anchored : Table Nat Node
  /-- The text ends after the document, without a fault. -/
  complete : Bool

namespace Document

def defaultHandles : List (List Char × Octets) :=
  [(['!'], Text.Hex.octetsOf ['!']),
    (['!', '!'], Text.Hex.octetsOf "tag:yaml.org,2002:".toList)]

/-- The tag handles that the directives at the head of a document define. -/
def directives (versioned : Bool) (handles : List (List Char × Octets)) :
    List Token → Option (List (List Char × Octets) × List Token)
  | .version major minor :: rest =>
      if versioned ∨ major ≠ 1 ∨ (minor ≠ 1 ∧ minor ≠ 2) then none
      else directives true handles rest
  | .tagHandle handle meaning :: rest =>
      if handles.any (·.1 = handle) then none
      else directives versioned (handles ++ [(handle, meaning)]) rest
  | tokens => some (handles ++ defaultHandles, tokens)

def startsDocument : Token → Bool
  | .version _ _ => true
  | .tagHandle _ _ => true
  | .documentStart => true
  | _ => false

def endsContent (t : Token) : Bool :=
  startsDocument t || t == .documentEnd || t == .streamEnd

/-- Nothing but document ends stands before the end of the text. -/
def finishes (tokens : List Token) : Bool :=
  (tokens.dropWhile (· == .documentEnd)).head? == some .streamEnd

def ofComposed : Composed Node → Document
  | (root, c) => ⟨some root, c.anchored, finishes c.tokens⟩

def unreadable : Document := ⟨some .broken, .empty, false⟩

def ofTokens (tokens : List Token) : Document :=
  let composer (handles) (tokens) : Composer := ⟨tokens, handles, .empty, .empty⟩
  let fuel := 4 * tokens.length + 8
  match tokens with
  | [] => unreadable
  | .streamEnd :: _ => ⟨none, .empty, true⟩
  | first :: _ =>
      if startsDocument first then
        match directives false [] tokens with
        | some (handles, .documentStart :: rest) =>
            ofComposed (Composer.slot fuel true false endsContent (composer handles rest))
        | _ => unreadable
      else
        ofComposed (Composer.node fuel true false (composer defaultHandles tokens))

def ofString (s : String) : Document :=
  ofTokens (tokens s)

def follow (document : Document) : Node → Node
  | .alias number => (document.anchored.get? number).getD .broken
  | node => node

end Document

end PluginHost.Yaml
