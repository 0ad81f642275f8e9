import PluginHost.Component.Basic
import PluginHost.Template.Info

/-!
What a scan of one content source has found.
-/

namespace PluginHost

structure ScanResult where
  mountUri : String
  templates : List TemplateInfo
  localizations : List Localization
  /-- Each component once for each capability that it implements. -/
  components : List (Capability × Component)

namespace ScanResult

def hasComponents (r : ScanResult) : Bool :=
  !r.components.isEmpty

end ScanResult

end PluginHost
