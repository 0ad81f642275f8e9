import PluginHost.Resolution.Resolver

/-!
Activation builds a component from nothing but its type reference: the module is resolved, and its
factory for the type is run.
-/

namespace PluginHost

namespace Activation

def noModule (reference : TypeReference) : Failure :=
  .activation reference.text "type reference does not name a module"

def notExported (reference : TypeReference) (module : LoadedModule) : Failure :=
  .activation reference.text
    ("module " ++ module.identity.text ++ " does not export '" ++ reference.typeName ++ "'")

end Activation

/-- A new component of the type that `reference` names. -/
def Resolver.activate (r : Resolver) (reference : TypeReference) :
    HostM (Except Failure Component × Resolver) :=
  match reference.module with
  | none => pure (.error (Activation.noModule reference), r)
  | some module =>
      match Identity.parse module with
      | .error failure => pure (.error failure, r)
      | .ok identity => do
          let (found, r) ← r.resolve identity
          match found with
          | none => pure (.error (.resolutionNotFound identity.text), r)
          | some loaded =>
              match loaded.factory? reference.typeName with
              | none => pure (.error (Activation.notExported reference loaded), r)
              | some factory => do
                  let component ← loaded.instantiate factory
                  pure (.ok component, r)

end PluginHost
