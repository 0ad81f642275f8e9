import PluginHost.Component.Kinds
import PluginHost.Component.TypeReference
import PluginHost.Text.Quoted

/-!
Components: a single thing with an identifier and one role for each capability that it implements.
A capability is known by its name alone, so that names nobody knows yet can be kept.
-/

namespace PluginHost

/-- What a component is under a capability. -/
inductive Role where
  | generator (generator : Generator)
  | installer (installer : Installer)
  | foreign (type : String)

def Role.kind : Role → Kind
  | .generator _ => .generator
  | .installer _ => .installer
  | .foreign type => .foreign type

structure Component where
  id : Uuid
  typeReference : TypeReference
  roles : SortedMap Capability Role
  /-- Which of the components that factories have built this one is; shipped ones have none. -/
  serial : Option Nat

/-- A component as it is handed to those who ask for one of some type. -/
structure View where
  component : Component
  role : Role

namespace Component

/-- A component of a type that belongs to no module. -/
def ofType (id : Uuid) (typeName : String) (roles : List (Capability × Role))
    (serial : Option Nat) : Component :=
  ⟨id, ⟨typeName, none⟩, .ofList roles, serial⟩

def implements (c : Component) (capability : Capability) : Bool :=
  c.roles.contains capability

def capabilities (c : Component) : List Capability :=
  c.roles.keys

def registrations (c : Component) : List (Capability × Component) :=
  c.capabilities.map fun capability => (capability, c)

/-- The same component, as a type of `module`. -/
def inModule (c : Component) (module : String) : Component :=
  { c with typeReference := { c.typeReference with module := some module } }

/-- What is there under the capability's name, if it is of the type that is asked for. -/
def view? (c : Component) (T : Interface) : Option View :=
  match c.roles.get? T.capability with
  | some role => if role.kind = T.kind then some ⟨c, role⟩ else none
  | none => none

def generator? (c : Component) : Option Generator :=
  match c.view? .generator with
  | some ⟨_, .generator g⟩ => some g
  | _ => none

def installer? (c : Component) : Option Installer :=
  match c.view? .installer with
  | some ⟨_, .installer i⟩ => some i
  | _ => none

/-- A line for people who look into the program. -/
def description (c : Component) : String :=
  let capability (name : Capability) := "CapabilityId(" ++ Text.Quoted.text name ++ ")"
  "ComponentInstance \x7b id: " ++ c.id.text ++ ", type_reference: " ++
    Text.Quoted.text c.typeReference.text ++ ", capabilities: [" ++
    ", ".intercalate (c.capabilities.map capability) ++ "] \x7d"

end Component

end PluginHost
