import PluginHost.Collection.Table
import PluginHost.Component.Factory

/-!
The catalog of entry points: under each name, the factories of the components of a module.
-/

namespace PluginHost

abbrev Catalog := Table String (List Factory)

namespace Catalog

/-- The factories of an entry point, which is thereby entered. -/
def enter (catalog : Catalog) (entryPoint : String) : HostM (Option (List Factory)) :=
  match catalog.get? entryPoint with
  | none => pure none
  | some factories => do
      Host.note (.entered entryPoint)
      pure (some factories)

end Catalog

end PluginHost
