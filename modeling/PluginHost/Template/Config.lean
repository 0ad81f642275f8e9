import PluginHost.Json.Decode

/-!
What a template's configuration file says of the template.
-/

namespace PluginHost

structure TemplateConfig where
  identity : String
  name : String
  shortNames : List String
  groupIdentity : Option String
  tags : SortedMap String String
  deriving DecidableEq

namespace TemplateConfig

def decodeShortNames : Json.Decoder (List String)
  | .null => .ok []
  | .string s => s.get.map ([·])
  | document => Json.list Json.text document

/-- A configuration of which only some fields have been read. -/
structure Draft where
  identity : Option String
  name : Option String
  shortNames : Option (List String)
  groupIdentity : Option (Option String)
  tags : Option (SortedMap String String)

def shape : Json.Shape Draft where
  name := "TemplateConfig"
  fields := [
    .of "identity" true Json.text Draft.identity fun d v => { d with identity := some v },
    .of "name" true Json.text Draft.name fun d v => { d with name := some v },
    .of "shortName" false decodeShortNames Draft.shortNames fun d v => { d with shortNames := some v },
    .of "groupIdentity" false (Json.optional Json.text) Draft.groupIdentity
      fun d v => { d with groupIdentity := some v },
    .of "tags" false (Json.map Except.ok Json.text) Draft.tags fun d v => { d with tags := some v }]
  start := ⟨none, none, none, none, none⟩

def ofDraft (d : Draft) : TemplateConfig where
  identity := d.identity.getD ""
  name := d.name.getD ""
  shortNames := d.shortNames.getD []
  groupIdentity := d.groupIdentity.getD none
  tags := d.tags.getD .empty

def decode : Json.Decoder TemplateConfig :=
  fun document => (shape.decode document).map ofDraft

end TemplateConfig

end PluginHost
