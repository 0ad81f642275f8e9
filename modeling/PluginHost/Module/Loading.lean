import PluginHost.Module.Catalog
import PluginHost.Module.Manifest

/-!
Loading modules: a module file holds a manifest, whose entry point the catalog binds to factories.
Whatever goes wrong is a failure to load this file.
-/

namespace PluginHost

structure LoadedModule where
  identity : Identity
  path : Path
  references : List Identity
  factories : List Factory

namespace LoadedModule

def factory? (m : LoadedModule) (typeName : String) : Option Factory :=
  m.factories.find? (·.typeName = typeName)

def instantiate (m : LoadedModule) (f : Factory) : HostM Component := do
  pure ((← f.create).inModule m.identity.text)

def instantiateAll (m : LoadedModule) : HostM (List Component) :=
  m.factories.mapM m.instantiate

/-- A line for people who look into the program. -/
def description (m : LoadedModule) : String :=
  "LoadedModule \x7b identity: " ++ Text.Quoted.text m.identity.text ++ ", path: " ++
    Text.Quoted.text m.path.text ++ ", factories: " ++ toString m.factories.length ++ " \x7d"

end LoadedModule

namespace Manifest

/-- What a module file says, if it can be read. -/
def ofContents (path : Path) (contents : Except Storage.Fault String) : Except Failure Manifest :=
  match contents with
  | .error fault => .error (.moduleLoad path fault.message)
  | .ok text =>
      (Json.decodeText decode text).mapError fun error => .moduleLoad path error.message

def identityAt (path : Path) (m : Manifest) : Except Failure Identity :=
  m.identity.mapError fun failure => .moduleLoad path failure.message

def referencesAt (path : Path) (m : Manifest) : Except Failure (List Identity) :=
  m.referenceIdentities.mapError fun failure => .moduleLoad path failure.message

end Manifest

namespace Catalog

def missingEntry (path : Path) (entryPoint : String) : Failure :=
  .moduleLoad path ("entry point '" ++ entryPoint ++ "' is not registered")

/-- Reads only the identity of the module at `path`. -/
def identify (path : Path) : HostM (Except Failure Identity) := do
  let contents ← Host.read path
  pure ((Manifest.ofContents path contents).bind fun m => m.identityAt path)

def load (catalog : Catalog) (path : Path) : HostM (Except Failure LoadedModule) := do
  let contents ← Host.read path
  match Manifest.ofContents path contents with
  | .error failure => pure (.error failure)
  | .ok m =>
      match m.identityAt path, m.referencesAt path with
      | .error failure, _ => pure (.error failure)
      | .ok _, .error failure => pure (.error failure)
      | .ok identity, .ok references =>
          match ← catalog.enter m.entryPoint with
          | none => pure (.error (missingEntry path m.entryPoint))
          | some factories => pure (.ok ⟨identity, path, references, factories⟩)

end Catalog

end PluginHost
