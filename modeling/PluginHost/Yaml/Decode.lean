import PluginHost.Yaml.Node
import PluginHost.Yaml.Scalar

/-!
Reading a record off a YAML document. The document is taken from left to right, so of a wrong value
and a fault in the text the earlier one is reported. Keys that the record does not know are skipped
with their values, and a record of which nothing is written has its starting values.
-/

namespace PluginHost.Yaml

inductive DecodeError where
  /-- The text is not one YAML document. -/
  | malformed
  | data (text : String)
  /-- A tag that names nothing known, told without its place. -/
  | unplaced (text : String)
  deriving DecidableEq, Repr

namespace DecodeError

def message : DecodeError → String
  | .malformed => "<yaml>"
  | .data text => text
  | .unplaced text => text

/-- The error as met under the key `place`. -/
def under (place : String) : DecodeError → DecodeError
  | .data text => .data (place ++ ": " ++ text)
  | error => error

/-- The error as met by way of an alias, which has a place of its own. -/
def byAlias : DecodeError → DecodeError
  | .unplaced text => .data text
  | error => error

end DecodeError

abbrev Decoder (α : Type) := Node → Except DecodeError α

def wrongType (kind expected : String) : DecodeError :=
  .data ("invalid type: " ++ kind ++ ", expected " ++ expected)

def wrongValue (kind expected : String) : DecodeError :=
  .data ("invalid value: " ++ kind ++ ", expected " ++ expected)

def mismatch (expected : String) : Node → DecodeError
  | .scalar text style tag =>
      match Scalar.ofNode text style tag with
      | .ok scalar => wrongType scalar.kind expected
      | .error suited => wrongValue (Scalar.quoted text) suited
  | .sequence _ _ => wrongType "sequence" expected
  | .mapping _ _ => wrongType "map" expected
  | _ => .malformed

def text (expected : String) : Decoder String
  | .scalar text _ _ => .ok (String.ofList text)
  | node => .error (mismatch expected node)

def readsAsInteger (style : Style) (tag : Option Octets) : Bool :=
  style == .plain || (style == .literal && tag == some (Scalar.coreTag "int"))

def natural (bits : Nat) : Decoder Nat := fun node =>
  let expected := "u" ++ toString bits
  match node with
  | .scalar text style tag =>
      match (if readsAsInteger style tag then Scalar.natural? text else none) with
      | none => .error (mismatch expected node)
      | some n =>
          if n < Nat.pow 2 bits then .ok n
          else if n < UInt64.size then .error (wrongValue (Scalar.integerKind n) expected)
          else .error (mismatch expected node)
  | node => .error (mismatch expected node)

def unknownVariant (names : List (String × α)) (name : String) : String :=
  "unknown variant " ++ Scalar.ticked name ++ ", expected " ++
    " or ".intercalate (names.map fun (name, _) => Scalar.ticked name)

def variantOf? (names : List (String × α)) (name : String) : Option α :=
  (names.find? (·.1 = name)).map (·.2)

/-- The name that a local tag spells, if it spells a text. -/
def localName? (tag : Octets) : Option String :=
  if Scalar.isLocal tag then
    let name := if tag.length = 1 then tag else tag.tail
    String.fromUTF8? (ByteArray.mk name.toArray)
  else none

/-- A null or an empty text, whatever its tag. -/
def nothing : Decoder Unit
  | .scalar text style _ =>
      if style = .plain ∧ (text = [] ∨ Scalar.isNull text) then .ok ()
      else .error (wrongValue (Scalar.quoted text) "null")
  | node => .error (mismatch "unit" node)

def Node.tag : Node → Option Octets
  | .scalar _ _ tag => tag
  | .sequence tag _ => tag
  | .mapping tag _ => tag
  | _ => none

/-- One of some names, as a scalar or as a tag on nothing. -/
def variant (names : List (String × α)) : Decoder α := fun node =>
  match node.tag.bind localName? with
  | some name =>
      match variantOf? names name with
      | some value => (nothing node).map fun _ => value
      | none => .error (.unplaced (unknownVariant names name))
  | none =>
      match node with
      | .scalar text _ _ =>
          let name := String.ofList text
          ((variantOf? names name).map .ok).getD (.error (.data (unknownVariant names name)))
      | node => .error (mismatch "a YAML tag starting with '!'" node)

/-- A field of a record that starts with a value for each of its fields. -/
structure Field (σ : Type) where
  name : String
  fill : σ → Decoder σ

/-- Decodes the node that `node` stands for. -/
def Document.reach (document : Document) (decode : Decoder α) (node : Node) :
    Except DecodeError α :=
  match node with
  | .alias _ => (decode (document.follow node)).mapError DecodeError.byAlias
  | node => decode node

structure Shape (σ : Type) where
  name : String
  fields : List (Field σ)
  start : σ

namespace Shape

/-- How errors name the place of a value: by its key, unless the key stands for another node. -/
def place : Node → String
  | .scalar text _ _ => String.ofList text
  | _ => "?"

def fillEntries (shape : Shape σ) (document : Document) (seen : List String) (state : σ) :
    List (Node × Node) → Except DecodeError σ
  | [] => .ok state
  | (key, value) :: rest => do
      let name ← text "field identifier" (document.follow key)
      match shape.fields.find? (·.name = name) with
      | none =>
          if value.intact then shape.fillEntries document seen state rest else .error .malformed
      | some field =>
          if name ∈ seen then .error (.data ("duplicate field " ++ Scalar.ticked name))
          else
            let state ← (document.reach (field.fill state) value).mapError (·.under (place key))
            shape.fillEntries document (name :: seen) state rest

def ofRoot (shape : Shape σ) (document : Document) : Except DecodeError σ :=
  match document.root with
  | none => .ok shape.start
  | some (.mapping _ entries) => shape.fillEntries document [] shape.start entries
  | some (.scalar [] .plain _) => .ok shape.start
  | some node => .error (mismatch ("struct " ++ shape.name) node)

def decodeText (shape : Shape σ) (s : String) : Except DecodeError σ := do
  let document := Document.ofString s
  let state ← shape.ofRoot document
  if document.complete then pure state else .error .malformed

end Shape

end PluginHost.Yaml
