import PluginHost.Collection.SortedMap
import PluginHost.Json.Number
import PluginHost.Json.Reader
import PluginHost.Text.Quoted
import PluginHost.Timestamp
import PluginHost.Uuid

/-!
Reading typed values off a document. A decoder takes the document from left to right, so of a wrong
value and a fault in the text the earlier one is reported. Members that a record does not know are
skipped; a record may also be written as an array of its fields in order.
-/

namespace PluginHost.Json

inductive DecodeError where
  /-- The text is not JSON from here on. -/
  | malformed
  | data (text : String)
  deriving DecidableEq, Repr

def DecodeError.message : DecodeError → String
  | .malformed => "<json syntax>"
  | .data text => text

abbrev Decoder (α : Type) := Document → Except DecodeError α

def ticked (s : String) : String :=
  "`" ++ s ++ "`"

def Number.kind : Number → String
  | .natural n => "integer " ++ ticked (toString n)
  | .negative n => "integer " ++ ticked ("-" ++ toString n)
  | .floating value => "floating point " ++ ticked (Decimal.compact.text value)

/-- How messages name what was found; `none` when the value itself cannot be read. -/
def Document.kind? : Document → Option String
  | .null => some "null"
  | .bool b => some ("boolean " ++ ticked (toString b))
  | .number n => n.read?.map Number.kind
  | .string s => if s.paired then some ("string " ++ Text.Quoted.text s.value) else none
  | .array _ _ => some "sequence"
  | .object _ _ => some "map"
  | .broken => none

def mismatch (document : Document) (expected : String) : DecodeError :=
  match document.kind? with
  | some kind => .data ("invalid type: " ++ kind ++ ", expected " ++ expected)
  | none => .malformed

def Str.get (s : Str) : Except DecodeError String :=
  if s.paired then .ok s.value else .error .malformed

def textAs (expected : String) : Decoder String
  | .string s => s.get
  | document => .error (mismatch document expected)

def text : Decoder String :=
  textAs "a string"

def pathText : Decoder String :=
  textAs "path string"

/-- A text that `read` takes further. -/
def textVia (expected : String) (read : String → Except DecodeError α) : Decoder α :=
  fun document => (textAs expected document).bind read

def uuidOf (s : String) : Except DecodeError Uuid :=
  match Uuid.parse? s with
  | some id => .ok id
  | none => .error (.data "UUID parsing failed")

def uuid : Decoder Uuid :=
  textVia "a formatted UUID string" uuidOf

def timestampOf (s : String) : Except DecodeError Timestamp :=
  match Timestamp.parse? s with
  | some time => .ok time
  | none => .error (.data "<time>")

def timestamp : Decoder Timestamp :=
  textVia "an RFC 3339 formatted date and time string" timestampOf

def nat32 : Decoder Nat
  | .number n =>
      match n.read? with
      | some (.natural value) =>
          if value < UInt32.size then .ok value
          else .error (.data ("invalid value: " ++ (Number.natural value).kind ++ ", expected u32"))
      | some (.negative value) =>
          .error (.data ("invalid value: " ++ (Number.negative value).kind ++ ", expected u32"))
      | some (.floating _) => .error (mismatch (.number n) "u32")
      | none => .error .malformed
  | document => .error (mismatch document "u32")

def optional (decode : Decoder α) : Decoder (Option α)
  | .null => .ok none
  | document => (decode document).map some

def Ending.close (ending : Ending) (value : α) : Except DecodeError α :=
  match ending with
  | .closed => .ok value
  | _ => .error .malformed

def list (decode : Decoder α) : Decoder (List α)
  | .array items ending => (items.mapM decode).bind ending.close
  | document => .error (mismatch document "a sequence")

def decodeMembers [Ord κ] [Std.TransOrd κ] (key : String → Except DecodeError κ)
    (value : Decoder υ) : SortedMap κ υ → List (Str × Document) →
      Except DecodeError (SortedMap κ υ)
  | map, [] => .ok map
  | map, (name, document) :: rest => do
      let k ← key (← name.get)
      let v ← value document
      decodeMembers key value (map.insert k v) rest

/-- A map; of entries with one key the last counts. -/
def map [Ord κ] [Std.TransOrd κ] (key : String → Except DecodeError κ) (value : Decoder υ) :
    Decoder (SortedMap κ υ)
  | .object members ending => (decodeMembers key value .empty members).bind ending.close
  | document => .error (mismatch document "a map")

def set [Ord κ] [Std.TransOrd κ] (decode : Decoder κ) : Decoder (SortedSet κ) :=
  fun document => (list decode document).map SortedSet.ofList

/-- A field of a record that is being filled in. -/
structure Field (σ : Type) where
  name : String
  required : Bool
  isSet : σ → Bool
  fill : σ → Document → Except DecodeError σ

/-- The field that `get` and `set` reach. -/
def Field.of (name : String) (required : Bool) (decode : Decoder β) (get : σ → Option β)
    (set : σ → β → σ) : Field σ where
  name := name
  required := required
  isSet state := (get state).isSome
  fill state document := (decode document).map (set state)

structure Shape (σ : Type) where
  name : String
  fields : List (Field σ)
  start : σ

namespace Shape

def expected (shape : Shape σ) : String :=
  "struct " ++ shape.name

def fillMembers (shape : Shape σ) : σ → List (Str × Document) → Except DecodeError σ
  | state, [] => .ok state
  | state, (name, document) :: rest => do
      let name ← name.get
      match shape.fields.find? (·.name = name) with
      | none => shape.fillMembers state rest
      | some field =>
          if field.isSet state then
            .error (.data ("duplicate field " ++ ticked name))
          else
            shape.fillMembers (← field.fill state document) rest

def requireFields (shape : Shape σ) (state : σ) : Except DecodeError σ :=
  match shape.fields.find? fun field => field.required && !field.isSet state with
  | some field => .error (.data ("missing field " ++ ticked field.name))
  | none => .ok state

def lengthError (shape : Shape σ) (position : Nat) : DecodeError :=
  .data ("invalid length " ++ toString position ++ ", expected " ++ shape.expected ++ " with " ++
    toString shape.fields.length ++ " elements")

/-- Fills the fields from items in field order; `position` counts the fields already passed. -/
def fillItems (shape : Shape σ) (ending : Ending) :
    Nat → List (Field σ) → List Document → σ → Except DecodeError σ
  | _, [], [], state => ending.close state
  | _, [], _ :: _, _ => .error .malformed
  | position, field :: fields, [], state => do
      ending.close ()
      if field.required then
        .error (shape.lengthError position)
      else
        shape.fillItems ending (position + 1) fields [] state
  | position, field :: fields, item :: items, state => do
      shape.fillItems ending (position + 1) fields items (← field.fill state item)

def decode (shape : Shape σ) : Decoder σ
  | .object members ending => do
      let state ← shape.fillMembers shape.start members
      ending.close ()
      shape.requireFields state
  | .array items ending => shape.fillItems ending 0 shape.fields items shape.start
  | document => .error (mismatch document shape.expected)

end Shape

def unit : Decoder Unit
  | .null => .ok ()
  | document => .error (mismatch document "unit")

def variantOf (names : List (String × α)) (name : String) : Except DecodeError α :=
  match names.find? (·.1 = name) with
  | some (_, value) => .ok value
  | none =>
      .error (.data ("unknown variant " ++ ticked name ++ ", expected " ++
        " or ".intercalate (names.map fun (name, _) => ticked name)))

/-- One of some names, alone or as the only key of an object whose value is null. -/
def variant (names : List (String × α)) : Decoder α
  | .string s => s.get.bind (variantOf names)
  | .object ((name, document) :: more) ending => do
      let value ← variantOf names (← name.get)
      unit document
      if more.isEmpty then ending.close value else .error .malformed
  | _ => .error .malformed

def decodeText (decode : Decoder α) (s : String) : Except DecodeError α := do
  let source := Source.ofString s
  let value ← decode source.document
  if source.complete then pure value else .error .malformed

end PluginHost.Json
