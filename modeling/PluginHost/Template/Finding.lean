import PluginHost.Component.Kinds
import PluginHost.Template.Config

/-!
What the generator that comes with the engine finds in mounted content. It looks for configuration
files of templates and, beside each, for localization files named after their locale.
-/

namespace PluginHost

namespace Generator

def finderId : Uuid := .ofNat 0x0c4f1b6e2d3a4e5f8a9b0c1d2e3f4a5b

def configFolder : String := ".template.config"

def configFile : String := "template.json"

def localizeFolder : String := "localize"

def jsonSuffix : String := ".json"

def stringsHead : String := "templatestrings."

def isConfig (path : Path) : Bool :=
  path.isNamed configFile && path.parent.any (·.isNamed configFolder)

def localeOf (path : Path) : Option String :=
  path.fileName.bind fun name =>
    let chars := name.toList
    let lowered := Text.lower chars
    if stringsHead.toList.isPrefixOf lowered ∧ jsonSuffix.toList.isSuffixOf lowered then
      let stop := chars.length - jsonSuffix.length
      let locale := (chars.take stop).drop stringsHead.length
      if locale = [] then none else some (String.ofList locale)
    else none

/-- The localization files among `files` of the template with configuration file `config`. -/
def localizationsOf (mount : Mount) (files : List Path) (config : Path) (identity : String) :
    List Localization :=
  match config.parent with
  | none => []
  | some folder =>
      let home := folder.join localizeFolder
      (files.filter fun file => file.parent.any (·.same home)).filterMap fun file =>
        (localeOf file).map fun locale => ⟨locale, identity, mount.uri, file⟩

def templateOf (mount : Mount) (path : Path) (config : TemplateConfig) : TemplateInfo where
  identity := config.identity
  name := config.name
  shortNames := config.shortNames
  groupIdentity := config.groupIdentity
  tags := config.tags
  generatorId := finderId
  mountUri := mount.uri
  configPath := path

/-- What the given configuration files describe; those that cannot be read are left out. -/
def findIn (mount : Mount) (files : List Path) : List Path → HostM Found
  | [] => pure .nothing
  | path :: rest => do
      match ← Host.read path with
      | .error _ => findIn mount files rest
      | .ok text =>
          match Json.decodeText TemplateConfig.decode text with
          | .error _ => findIn mount files rest
          | .ok config => do
              let found : Found :=
                ⟨[templateOf mount path config], localizationsOf mount files path config.identity⟩
              pure (found ++ (← findIn mount files rest))

/-- What the configuration files in the mounted content describe. -/
def find (mount : Mount) : HostM (Except Failure Found) := do
  match ← Host.list mount.root jsonSuffix with
  | .error fault => pure (.error (.io fault))
  | .ok files => do
      let found ← findIn mount files (files.filter isConfig)
      pure (.ok found)

theorem reading_findIn (mount : Mount) (files paths : List Path) (h : Host) :
    h.Reading ((findIn mount files paths).after h) := by
  induction paths generalizing h with
  | nil => exact .refl h
  | cons path rest ih =>
      have hread := Host.reading_read h path
      rw [findIn, HostM.after_bind]
      cases (Host.read path).result h with
      | error fault => exact hread.trans (ih _)
      | ok text =>
          dsimp only
          cases Json.decodeText TemplateConfig.decode text with
          | error error => exact hread.trans (ih _)
          | ok config => exact hread.trans (ih _)

theorem reading_find (mount : Mount) (h : Host) : h.Reading ((find mount).after h) := by
  have hlist := Host.reading_list h mount.root jsonSuffix
  rw [find, HostM.after_bind]
  cases (Host.list mount.root jsonSuffix).result h with
  | error fault => exact hlist
  | ok files => exact hlist.trans (reading_findIn mount files _ _)

/-- Goes by the configuration files in the source. -/
def finder : Generator where
  run _ mount := find mount
  reading _ mount h := reading_find mount h

end Generator

end PluginHost
