import PluginHost.Resolution.CulturePolicy
import PluginHost.Storage.Tree
import PluginHost.Yaml.Decode

/-!
The configuration of an engine: a YAML file that may say as little as it likes, and two environment
variables that go before it.
-/

namespace PluginHost

structure EngineConfig where
  settingsFolder : Path
  componentsFile : String
  /-- The suffix of module files that the resolver looks for. -/
  moduleSuffix : String
  /-- The suffix of module files that a scan takes up. -/
  discoverySuffix : String
  loadAttempts : Nat
  retryDelay : Nat
  culturePolicy : CulturePolicy
  deriving DecidableEq

namespace EngineConfig

def settingsVariable : String := "SCAFFOLDER_SETTINGS_DIR"

def policyVariable : String := "SCAFFOLDER_CULTURE_POLICY"

def defaultDiscoverySuffix : String := ".components.module.json"

/-- What holds for a user whose home is `home` as long as nothing else is said. -/
def default (home : Path) : EngineConfig where
  settingsFolder := home.join ".scaffolder"
  componentsFile := "components.json"
  moduleSuffix := ".module.json"
  discoverySuffix := defaultDiscoverySuffix
  loadAttempts := 20
  retryDelay := 2
  culturePolicy := .strict

def shape (home : Path) : Yaml.Shape EngineConfig where
  name := "EngineConfig"
  fields := [
    ⟨"settings_dir", fun c node => (Yaml.text "path string" node).map fun v =>
      { c with settingsFolder := ⟨v⟩ }⟩,
    ⟨"components_file", fun c node => (Yaml.text "a string" node).map fun v =>
      { c with componentsFile := v }⟩,
    ⟨"module_suffix", fun c node => (Yaml.text "a string" node).map fun v =>
      { c with moduleSuffix := v }⟩,
    ⟨"discovery_suffix", fun c node => (Yaml.text "a string" node).map fun v =>
      { c with discoverySuffix := v }⟩,
    ⟨"max_load_attempts", fun c node => (Yaml.natural 32 node).map fun v =>
      { c with loadAttempts := v }⟩,
    ⟨"retry_delay_ms", fun c node => (Yaml.natural 64 node).map fun v =>
      { c with retryDelay := v }⟩,
    ⟨"culture_policy", fun c node => (Yaml.variant CulturePolicy.names node).map fun v =>
      { c with culturePolicy := v }⟩]
  start := default home

/-- Reads a configuration; `path` is where it stands, for messages. -/
def parse (home : Path) (text : String) (path : Path) : Except Failure EngineConfig :=
  if Text.allBlank text then .ok (default home)
  else ((shape home).decodeText text).mapError fun error => .configParse path error.message

def load (home : Path) (tree : Storage.Tree) (path : Path) : Except Failure EngineConfig :=
  if tree.isThere path then
    match tree.read path with
    | .ok text => parse home text path
    | .error fault => .error (.io fault)
  else .ok (default home)

def setting? (lookUp : String → Option String) (name : String) : Option String :=
  (lookUp name).filter fun value => !Text.allBlank value

/-- Lets environment variables go before what the file says. -/
def withVariables (c : EngineConfig) (lookUp : String → Option String) :
    Except Failure EngineConfig :=
  let c :=
    match setting? lookUp settingsVariable with
    | some folder => { c with settingsFolder := ⟨folder⟩ }
    | none => c
  match setting? lookUp policyVariable with
  | none => .ok c
  | some text => (CulturePolicy.parse text).map fun policy => { c with culturePolicy := policy }

def componentsPath (c : EngineConfig) : Path :=
  c.settingsFolder.join c.componentsFile

end EngineConfig

end PluginHost
