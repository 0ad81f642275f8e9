import PluginHost.Failure
import PluginHost.Host
import PluginHost.Template.Info

/-!
What components can be: generators find templates in mounted content, installers recognize locations
that content can be installed from, and others may add types of their own.
-/

namespace PluginHost

abbrev Capability := String

namespace Capability

def generator : Capability := "scaffolder.generator"

/-- Recognizes sources that content can be installed from. -/
def installer : Capability := "scaffolder.installer-factory"

/-- Runs an action after a template has been used. -/
def postAction : Capability := "scaffolder.post-action"

end Capability

/-- The types that a component can be viewed as. -/
inductive Kind where
  | generator
  | installer
  /-- A type that the engine itself makes no use of. -/
  | foreign (type : String)
  deriving DecidableEq

/-- A type by which components are asked for, and the name of its capability. Nothing keeps another
type from having the same name. -/
structure Interface where
  capability : Capability
  kind : Kind
  deriving DecidableEq

namespace Interface

def generator : Interface := ⟨Capability.generator, .generator⟩

def installer : Interface := ⟨Capability.installer, .installer⟩

end Interface

/-- A generator is told its own identifier. It can read what is mounted, and writes nothing. -/
structure Generator where
  run : Uuid → Mount → HostM (Except Failure Found)
  reading : ∀ id mount (h : Host), h.Reading ((run id mount).after h)

structure Installer where
  name : String
  canInstall : Host → String → Bool

end PluginHost
