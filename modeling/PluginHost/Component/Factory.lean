import PluginHost.Component.Basic

/-!
Factories build components of one type. Each component that is built takes the next serial number
of the host.
-/

namespace PluginHost

structure Factory where
  typeName : String
  construct : Nat → Component

namespace Factory

def create (f : Factory) : HostM Component := do
  let serial ← modifyGet fun h => (h.births, { h with births := h.births + 1 })
  let component := f.construct serial
  Host.note (.constructed component.typeReference.typeName serial)
  pure component

/-- The factory always builds the same component, serial numbers aside. -/
def Steady (f : Factory) : Prop :=
  ∀ m n, (f.construct m).id = (f.construct n).id ∧
    (f.construct m).capabilities = (f.construct n).capabilities

def description (f : Factory) : String :=
  "ComponentFactory \x7b type_name: " ++ Text.Quoted.text f.typeName ++ " \x7d"

end Factory

namespace Generator

def fixedTemplate (id : Uuid) (mount : Mount) (name : String) : TemplateInfo where
  identity := name
  name := name
  shortNames := []
  groupIdentity := none
  tags := .empty
  generatorId := id
  mountUri := mount.uri
  configPath := mount.root

/-- The same templates everywhere, or always the same failure. -/
def fixed (failure : Option String) (templates : List String) : Generator where
  run id mount := pure <|
    match failure with
    | some failure => .error (.other failure)
    | none => .ok ⟨templates.map (fixedTemplate id mount), []⟩
  reading _ _ h := .refl h

end Generator

/-- Takes the locations that begin with the given mark. -/
def Installer.marked (name mark : String) : Installer where
  name := name
  canInstall _ location := mark.toList.isPrefixOf location.toList

/-- What a component is made of, given in full. -/
structure Blueprint where
  typeName : String
  id : Uuid
  capabilities : List Capability
  /-- The type name that the component bears, if it is another. -/
  instanceType : Option String
  failure : Option String
  templates : List String
  /-- As an installer, it takes the locations that begin so. -/
  installMark : String

namespace Blueprint

def bornType (b : Blueprint) : String :=
  b.instanceType.getD b.typeName

def role (b : Blueprint) (capability : Capability) : Role :=
  if capability = Capability.generator then .generator (.fixed b.failure b.templates)
  else if capability = Capability.installer then
    .installer (.marked b.bornType b.installMark)
  else .foreign capability

def roles (b : Blueprint) : List (Capability × Role) :=
  b.capabilities.map fun capability => (capability, b.role capability)

def factory (b : Blueprint) : Factory where
  typeName := b.typeName
  construct serial := .ofType b.id b.bornType b.roles (some serial)

theorem factory_steady (b : Blueprint) : b.factory.Steady := fun _ _ => ⟨rfl, rfl⟩

end Blueprint

end PluginHost
