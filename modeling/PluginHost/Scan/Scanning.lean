import PluginHost.Registry.Basic
import PluginHost.Template.Finding

/-!
Scanning a content source: the generators of a registry are asked for templates, then the module
files in the source are loaded and their components built. A generator or a module that fails is
reported and left out.
-/

namespace PluginHost.Scanning

def blankReason : String := "source location must not be empty"

def absentReason : String := "location is not supported or does not exist"

def generatorReport (id : Uuid) (mount : Mount) (failure : Failure) : String :=
  "Generator " ++ id.text ++ " failed on " ++ mount.uri ++ ": " ++ failure.message

def enumerationReport (mount : Mount) (fault : Storage.Fault) : String :=
  "Failed to enumerate modules in " ++ mount.uri ++ ": " ++ fault.message

def ask (mount : Mount) (component : Component) : HostM Found :=
  match component.generator? with
  | none => pure .nothing
  | some generator => do
      match ← generator.run component.id mount with
      | .ok found => pure found
      | .error failure => do
          Host.report (generatorReport component.id mount failure)
          pure .nothing

def findTemplates (mount : Mount) (r : Registry) : HostM (Found × Registry) := do
  let ids := r.knownIds Capability.generator
  let (found, r) ← Registry.collect Capability.generator (ask mount) r ids
  pure (found.foldl Found.append .nothing, r)

def loadAll (catalog : Catalog) : List Path → HostM (List (Capability × Component))
  | [] => pure []
  | path :: rest => do
      match ← catalog.load path with
      | .error failure => do
          Host.report failure.message
          loadAll catalog rest
      | .ok module => do
          let components ← module.instantiateAll
          let more ← loadAll catalog rest
          pure (components.flatMap Component.registrations ++ more)

def findComponents (catalog : Catalog) (suffix : String) (mount : Mount) :
    HostM (List (Capability × Component)) := do
  match ← Host.list mount.root suffix with
  | .error fault => do
      Host.report (enumerationReport mount fault)
      pure []
  | .ok files => loadAll catalog files

/-- Scans a source; module files are those whose names end with `suffix`. -/
def scan (catalog : Catalog) (suffix location : String) (r : Registry) :
    HostM (Except Failure ScanResult × Registry) := do
  if Text.allBlank location then
    pure (.error (.invalidSource location blankReason), r)
  else
    match (← get).mount? location with
    | none => pure (.error (.invalidSource location absentReason), r)
    | some mount => do
        let (found, r) ← findTemplates mount r
        let components ← findComponents catalog suffix mount
        pure (.ok ⟨mount.uri, found.templates, found.localizations, components⟩, r)

/-- Scans sources in turn, as far as the first that cannot be scanned. -/
def scanAll (catalog : Catalog) (suffix : String) :
    List String → Registry → HostM (Except Failure (List ScanResult) × Registry)
  | [], r => pure (.ok [], r)
  | location :: rest, r => do
      match ← scan catalog suffix location r with
      | (.error failure, r) => pure (.error failure, r)
      | (.ok result, r) => do
          let (results, r) ← scanAll catalog suffix rest r
          pure (results.map (result :: ·), r)

end PluginHost.Scanning
