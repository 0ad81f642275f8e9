import PluginHost.Engine.Config
import PluginHost.Registry.Seeding
import PluginHost.Scan.Scanning

/-!
An engine that is ready for use: its configuration and a registry, with the resolver and the
settings store in it.
-/

namespace PluginHost

structure Environment where
  config : EngineConfig
  registry : Registry

namespace Environment

def storeFor (config : EngineConfig) : SettingsStore :=
  (SettingsStore.new config.componentsPath).withAttempts config.loadAttempts

def resolverFor (config : EngineConfig) (catalog : Catalog) : Resolver :=
  .new config.moduleSuffix config.culturePolicy catalog

/-- A new environment, as far as the settings file can be read. -/
def start (builtIn : List (Capability × Component)) (config : EngineConfig) (catalog : Catalog) :
    HostM (Except Failure Environment) := do
  let registry ← Registry.seeded builtIn (resolverFor config catalog) (storeFor config)
  pure (registry.map fun registry => ⟨config, registry⟩)

def withRegistry (e : Environment) (registry : Registry) : Environment :=
  { e with registry }

/-- Scans all locations, registers what was found and saves its index. If some location cannot be
scanned, nothing is registered. -/
def scanAndUpdate (e : Environment) (locations : List String) :
    HostM (Except Failure (List ScanResult) × Environment) := do
  let catalog := e.registry.resolver.catalog
  match ← Scanning.scanAll catalog e.config.discoverySuffix locations e.registry with
  | (.error failure, registry) => pure (.error failure, e.withRegistry registry)
  | (.ok results, registry) => do
      let (updated, registry) ← registry.update results
      pure (updated.map fun _ => results, e.withRegistry registry)

end Environment

end PluginHost
