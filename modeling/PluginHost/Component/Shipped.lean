import PluginHost.Component.Basic
import PluginHost.Template.Finding

/-!
The components that come with the engine: a generator that goes by configuration files and an
installer for folders.
-/

namespace PluginHost

/-- Takes the locations that are folders. -/
def Installer.folders : Installer where
  name := "folder"
  canInstall h location := h.tree.isFolder ⟨location⟩

namespace Shipped

def folderInstallerId : Uuid := .ofNat 0x7d2e9a415b3c4f609e8d1a2b3c4d5e6f

def finder : Component :=
  .ofType Generator.finderId "ConfigFileGenerator" [(Capability.generator, .generator .finder)] none

def folderInstaller : Component :=
  .ofType folderInstallerId "FolderInstallerFactory" [(Capability.installer, .installer .folders)]
    none

def components : List (Capability × Component) :=
  finder.registrations ++ folderInstaller.registrations

end Shipped

end PluginHost
