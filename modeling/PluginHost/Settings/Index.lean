import PluginHost.Json.Decode
import PluginHost.Json.Printer
import PluginHost.Scan.Result

/-!
The component index: which components scans have found, under which capabilities, and where to probe
for their modules. It is kept in a file between runs.
-/

namespace PluginHost

structure ComponentIndex where
  version : Nat
  writtenAt : Option Timestamp
  typeReferences : SortedMap Uuid String
  /-- Mount points that contributed components. -/
  locations : SortedSet String
  capabilities : SortedMap Capability (SortedSet Uuid)
  deriving DecidableEq

namespace ComponentIndex

def currentVersion : Nat := 1

def empty : ComponentIndex :=
  ⟨currentVersion, none, .empty, .empty, .empty⟩

def enter (index : ComponentIndex) (uri : String) (pair : Capability × Component) :
    ComponentIndex :=
  let (capability, component) := pair
  let ids := (index.capabilities.get? capability).getD .empty
  { index with
    locations := SortedSet.add index.locations uri
    capabilities := index.capabilities.insert capability (SortedSet.add ids component.id)
    typeReferences := index.typeReferences.insert component.id component.typeReference.text }

def ofResults (results : List ScanResult) : ComponentIndex :=
  results.foldl (fun index result => result.components.foldl (·.enter result.mountUri) index) empty

def isEmpty (index : ComponentIndex) : Bool :=
  index.capabilities.values.all SortedMap.isEmpty

def idList (ids : SortedSet Uuid) : Json.Document :=
  .ofList ((SortedSet.toList ids).map fun id => .ofString id.text)

def document (index : ComponentIndex) : Json.Document :=
  .ofMembers [
    ("version", .ofNat index.version),
    ("written_at", .ofOption (fun time => .ofString time.text) index.writtenAt),
    ("component_type_references",
      .ofMembers (index.typeReferences.entries.map fun entry => (entry.1.text, .ofString entry.2))),
    ("probing_locations", .ofList ((SortedSet.toList index.locations).map .ofString)),
    ("components_by_capability",
      .ofMembers (index.capabilities.entries.map fun entry => (entry.1, idList entry.2)))]

def text (index : ComponentIndex) : String :=
  index.document.text

/-- An index of which only some fields have been read. -/
structure Draft where
  version : Option Nat
  writtenAt : Option (Option Timestamp)
  typeReferences : Option (SortedMap Uuid String)
  locations : Option (SortedSet String)
  capabilities : Option (SortedMap Capability (SortedSet Uuid))

def shape : Json.Shape Draft where
  name := "ComponentSettings"
  fields := [
    .of "version" false Json.nat32 Draft.version fun d v => { d with version := some v },
    .of "written_at" false (Json.optional Json.timestamp) Draft.writtenAt
      fun d v => { d with writtenAt := some v },
    .of "component_type_references" false (Json.map Json.uuidOf Json.text) Draft.typeReferences
      fun d v => { d with typeReferences := some v },
    .of "probing_locations" false (Json.set Json.text) Draft.locations
      fun d v => { d with locations := some v },
    .of "components_by_capability" false (Json.map Except.ok (Json.set Json.uuid))
      Draft.capabilities fun d v => { d with capabilities := some v }]
  start := ⟨none, none, none, none, none⟩

def ofDraft (d : Draft) : ComponentIndex where
  version := d.version.getD 0
  writtenAt := d.writtenAt.getD none
  typeReferences := d.typeReferences.getD .empty
  locations := d.locations.getD .empty
  capabilities := d.capabilities.getD .empty

def decode : Json.Decoder ComponentIndex :=
  fun document => (shape.decode document).map ofDraft

end ComponentIndex

end PluginHost
