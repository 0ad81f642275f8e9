import PluginHost.Failure
import PluginHost.Json.Decode
import PluginHost.Text.Blank
import PluginHost.Text.Split

/-!
Type references name a component type and, where it comes from a module, the module's identity:
`TypeName, ModuleName`.
-/

namespace PluginHost

structure TypeReference where
  typeName : String
  /-- Absent for types that are built into the host. -/
  module : Option String
  deriving DecidableEq, Repr

namespace TypeReference

def text (r : TypeReference) : String :=
  match r.module with
  | some module => r.typeName ++ ", " ++ module
  | none => r.typeName

def formReason : String :=
  "expected 'TypeName, ModuleName'"

/-- The module is all that follows the first comma. -/
def parse (s : String) : Except Failure TypeReference :=
  let (typeName, module) :=
    match Text.cut ',' s.toList with
    | some (before, after) => (Text.trim before, some (Text.trim after))
    | none => (Text.trim s.toList, none)
  if typeName = [] ∨ module = some [] then .error (.invalidIdentity s formReason)
  else .ok ⟨String.ofList typeName, module.map String.ofList⟩

def decode : Json.Decoder TypeReference :=
  Json.textVia "a string" fun s => (parse s).mapError fun failure => .data failure.message

end TypeReference

end PluginHost
