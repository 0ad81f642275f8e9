import PluginHost.Host
import PluginHost.Settings.Index

/-!
The file that keeps the component index. Reading it is tried several times before giving up.
-/

namespace PluginHost

structure SettingsStore where
  path : Path
  attempts : Nat
  deriving DecidableEq

namespace SettingsStore

def defaultAttempts : Nat := 20

def new (path : Path) : SettingsStore :=
  ⟨path, defaultAttempts⟩

def withAttempts (store : SettingsStore) (attempts : Nat) : SettingsStore :=
  { store with attempts := max attempts 1 }

/-- Reads until it succeeds, or fails for the last time. -/
def readUntil (path : Path) (last : Storage.Fault) : Nat → HostM (Except Storage.Fault String)
  | 0 => pure (.error last)
  | attempts + 1 => do
      match ← Host.read path with
      | .ok text => pure (.ok text)
      | .error fault => readUntil path fault attempts

def notRead : Storage.Fault :=
  .other "no read attempted"

def interpret (store : SettingsStore) (text : String) : Except Failure ComponentIndex :=
  (Json.decodeText ComponentIndex.decode text).mapError fun error =>
    .settingsParse store.path error.message

/-- The index in the file, if the file exists. -/
def load (store : SettingsStore) : HostM (Except Failure (Option ComponentIndex)) := do
  if (← get).tree.isThere store.path then
    match ← readUntil store.path notRead store.attempts with
    | .error fault => pure (.error (.settingsRead store.path store.attempts fault))
    | .ok text => pure ((store.interpret text).map some)
  else
    pure (.ok none)

/-- Keeps the index of what scans have found; without components there is no file. Tells whether a
file was written. -/
def save (store : SettingsStore) (results : List ScanResult) : HostM (Except Failure Bool) := do
  let index := ComponentIndex.ofResults results
  let host ← get
  if index.isEmpty then
    if host.tree.isThere store.path then
      match ← Host.remove store.path with
      | .error fault => pure (.error (.io fault))
      | .ok () => pure (.ok false)
    else
      pure (.ok false)
  else
    match ← Host.write store.path { index with writtenAt := some host.now }.text with
    | .error fault => pure (.error (.io fault))
    | .ok () => pure (.ok true)

end SettingsStore

end PluginHost
