import PluginHost.Collection.Memo
import PluginHost.Module.Loading
import PluginHost.Resolution.Selection

/-!
The resolver finds modules for identities. The probing locations are searched in turn for files
named after the module; the best candidate that loads in the first location that has one is taken.
Every outcome is kept under the text of the identity, and with a module the modules that it refers
to are resolved as well.
-/

namespace PluginHost

structure Resolver where
  /-- The file of a module is its name and this. -/
  suffix : String
  policy : CulturePolicy
  catalog : Catalog
  /-- In the order of search, each one once. -/
  locations : List String
  memo : Memo String (Option LoadedModule)

namespace Resolver

def new (suffix : String) (policy : CulturePolicy) (catalog : Catalog) : Resolver :=
  ⟨suffix, policy, catalog, [], .empty⟩

def addLocation (r : Resolver) (location : String) : Resolver :=
  if location ∈ r.locations then r else { r with locations := r.locations ++ [location] }

def isMemoized (r : Resolver) (identity : Identity) : Bool :=
  r.memo.contains identity.text

def identifyAll : List Path → HostM (List Candidate)
  | [] => pure []
  | path :: rest => do
      match ← Catalog.identify path with
      | .ok identity => pure (⟨path, identity⟩ :: (← identifyAll rest))
      | .error failure => do
          Host.report failure.message
          identifyAll rest

/-- Loads the first file that can be loaded; failures are reported. -/
def loadFirst (catalog : Catalog) : List Path → HostM (Option LoadedModule)
  | [] => pure none
  | path :: rest => do
      match ← catalog.load path with
      | .ok module => pure (some module)
      | .error failure => do
          Host.report failure.message
          loadFirst catalog rest

def enumerationReport (location : String) (fault : Storage.Fault) : String :=
  "Failed to enumerate probing location " ++ location ++ ": " ++ fault.message

def probeLocation (r : Resolver) (requested : Identity) (location : String) :
    HostM (Option LoadedModule) := do
  match (← get).mount? location with
  | none => pure none
  | some mount =>
      match ← Host.list mount.root r.suffix with
      | .error fault => do
          Host.report (enumerationReport location fault)
          pure none
      | .ok files => do
          let tree := (← get).tree
          let named := files.filter fun path =>
            path.isNamed (requested.name ++ r.suffix) && tree.isThere path
          let candidates ← identifyAll named
          loadFirst r.catalog (Selection.select r.policy requested candidates).reverse

def probeLocations (r : Resolver) (requested : Identity) :
    List String → HostM (Option LoadedModule)
  | [] => pure none
  | location :: rest => do
      match ← r.probeLocation requested location with
      | some module => pure (some module)
      | none => r.probeLocations requested rest

def probe (r : Resolver) (requested : Identity) : HostM (Option LoadedModule) := do
  Host.note (.probed requested.text)
  r.probeLocations requested r.locations

/-- Finds and keeps the outcomes for identities in turn, each with those that it refers to. -/
def settle : Nat → Resolver → List Identity → HostM Resolver
  | 0, r, _ => pure r
  | fuel + 1, r, pending =>
      match pending.dropWhile r.isMemoized with
      | [] => pure r
      | requested :: rest => do
          let outcome ← r.memo.fetch requested.text (r.probe requested)
          let references := (outcome.value.map LoadedModule.references).getD []
          settle fuel { r with memo := outcome.memo } (references ++ rest)

/-- How many references a file declares, if it is a manifest. -/
def declaredIn : Storage.Entry → Nat
  | .file (.text s) =>
      match Json.decodeText Manifest.decode s with
      | .ok m => m.references.length
      | .error _ => 0
  | _ => 0

/-- No more identities than this are resolved at once: the one that is asked for and those that
some file refers to. -/
def settleBound (tree : Storage.Tree) : Nat :=
  tree.entries.entries.foldr (fun entry n => declaredIn entry.2 + n) 0 + 1

def resolve (r : Resolver) (requested : Identity) : HostM (Option LoadedModule × Resolver) := do
  let r ← if r.isMemoized requested then pure r
    else settle (settleBound (← get).tree) r [requested]
  pure ((r.memo.get? requested.text).join, r)

end Resolver

end PluginHost
