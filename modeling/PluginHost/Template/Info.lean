import PluginHost.Json.Decode
import PluginHost.Path

/-!
Templates and localization files as generators find them, and their form in JSON.
-/

namespace PluginHost

structure TemplateInfo where
  identity : String
  name : String
  shortNames : List String
  groupIdentity : Option String
  tags : SortedMap String String
  generatorId : Uuid
  mountUri : String
  configPath : Path
  deriving DecidableEq

structure Localization where
  locale : String
  identity : String
  mountUri : String
  configPath : Path
  deriving DecidableEq

def textMap (map : SortedMap String String) : Json.Document :=
  .ofMembers (map.entries.map fun entry => (entry.1, .ofString entry.2))

namespace TemplateInfo

def document (t : TemplateInfo) : Json.Document :=
  .ofMembers [
    ("identity", .ofString t.identity),
    ("name", .ofString t.name),
    ("short_names", .ofList (t.shortNames.map .ofString)),
    ("group_identity", .ofOption .ofString t.groupIdentity),
    ("tags", textMap t.tags),
    ("generator_id", .ofString t.generatorId.text),
    ("mount_point_uri", .ofString t.mountUri),
    ("config_path", .ofString t.configPath.text)]

/-- A template of which only some fields have been read. -/
structure Draft where
  identity : Option String
  name : Option String
  shortNames : Option (List String)
  groupIdentity : Option (Option String)
  tags : Option (SortedMap String String)
  generatorId : Option Uuid
  mountUri : Option String
  configPath : Option String

def shape : Json.Shape Draft where
  name := "TemplateInfo"
  fields := [
    .of "identity" true Json.text Draft.identity fun d v => { d with identity := some v },
    .of "name" true Json.text Draft.name fun d v => { d with name := some v },
    .of "short_names" false (Json.list Json.text) Draft.shortNames
      fun d v => { d with shortNames := some v },
    .of "group_identity" false (Json.optional Json.text) Draft.groupIdentity
      fun d v => { d with groupIdentity := some v },
    .of "tags" false (Json.map Except.ok Json.text) Draft.tags fun d v => { d with tags := some v },
    .of "generator_id" true Json.uuid Draft.generatorId
      fun d v => { d with generatorId := some v },
    .of "mount_point_uri" true Json.text Draft.mountUri fun d v => { d with mountUri := some v },
    .of "config_path" true Json.pathText Draft.configPath
      fun d v => { d with configPath := some v }]
  start := ⟨none, none, none, none, none, none, none, none⟩

def ofDraft (d : Draft) : TemplateInfo where
  identity := d.identity.getD ""
  name := d.name.getD ""
  shortNames := d.shortNames.getD []
  groupIdentity := d.groupIdentity.getD none
  tags := d.tags.getD .empty
  generatorId := d.generatorId.getD (.ofNat 0)
  mountUri := d.mountUri.getD ""
  configPath := ⟨d.configPath.getD ""⟩

def decode : Json.Decoder TemplateInfo :=
  fun document => (shape.decode document).map ofDraft

end TemplateInfo

namespace Localization

def document (l : Localization) : Json.Document :=
  .ofMembers [
    ("locale", .ofString l.locale),
    ("identity", .ofString l.identity),
    ("mount_point_uri", .ofString l.mountUri),
    ("config_path", .ofString l.configPath.text)]

/-- A localization file of which only some fields have been read. -/
structure Draft where
  locale : Option String
  identity : Option String
  mountUri : Option String
  configPath : Option String

def shape : Json.Shape Draft where
  name := "LocalizationLocator"
  fields := [
    .of "locale" true Json.text Draft.locale fun d v => { d with locale := some v },
    .of "identity" true Json.text Draft.identity fun d v => { d with identity := some v },
    .of "mount_point_uri" true Json.text Draft.mountUri fun d v => { d with mountUri := some v },
    .of "config_path" true Json.pathText Draft.configPath
      fun d v => { d with configPath := some v }]
  start := ⟨none, none, none, none⟩

def ofDraft (d : Draft) : Localization where
  locale := d.locale.getD ""
  identity := d.identity.getD ""
  mountUri := d.mountUri.getD ""
  configPath := ⟨d.configPath.getD ""⟩

def decode : Json.Decoder Localization :=
  fun document => (shape.decode document).map ofDraft

end Localization

structure Found where
  templates : List TemplateInfo
  localizations : List Localization

namespace Found

def nothing : Found := ⟨[], []⟩

def append (a b : Found) : Found :=
  ⟨a.templates ++ b.templates, a.localizations ++ b.localizations⟩

instance : Append Found := ⟨append⟩

end Found

end PluginHost
