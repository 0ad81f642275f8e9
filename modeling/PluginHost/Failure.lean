import PluginHost.Path
import PluginHost.Storage.Fault

/-!
The failures of the engine, each with what its message tells.
-/

namespace PluginHost

inductive Failure where
  | invalidSource (location reason : String)
  /-- A component stands under a capability that it does not implement. -/
  | typeMismatch (component capability : String)
  | settingsParse (path : Path) (reason : String)
  | settingsRead (path : Path) (attempts : Nat) (fault : Storage.Fault)
  | moduleLoad (path : Path) (reason : String)
  | resolutionNotFound (identity : String)
  /-- A module identity or a type reference cannot be read. -/
  | invalidIdentity (value reason : String)
  | activation (typeReference reason : String)
  | configParse (path : Path) (reason : String)
  | io (fault : Storage.Fault)
  | json (reason : String)
  | other (text : String)
  deriving DecidableEq

namespace Failure

def message : Failure → String
  | .invalidSource location reason => "Invalid scan source '" ++ location ++ "': " ++ reason
  | .typeMismatch component capability =>
      "Component '" ++ component ++ "' does not implement capability '" ++ capability ++ "'"
  | .settingsParse path reason =>
      "Failed to parse settings file at " ++ path.text ++ ": " ++ reason
  | .settingsRead path attempts fault =>
      "Failed to read settings file at " ++ path.text ++ " after " ++ toString attempts ++
        " attempts: " ++ fault.message
  | .moduleLoad path reason => "Failed to load module " ++ path.text ++ ": " ++ reason
  | .resolutionNotFound identity => "No module satisfies '" ++ identity ++ "'"
  | .invalidIdentity value reason => "Invalid module identity '" ++ value ++ "': " ++ reason
  | .activation typeReference reason => "Failed to activate '" ++ typeReference ++ "': " ++ reason
  | .configParse path reason => "Failed to parse config at " ++ path.text ++ ": " ++ reason
  | .io fault => "IO error: " ++ fault.message
  | .json reason => "JSON error: " ++ reason
  | .other text => text

def cause : Failure → Option String
  | .settingsRead _ _ fault => some fault.message
  | .io fault => some fault.message
  | .json reason => some reason
  | _ => none

end Failure

end PluginHost
