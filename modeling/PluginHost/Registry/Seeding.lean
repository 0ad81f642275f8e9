import PluginHost.Registry.Basic

/-!
A new registry holds the components that are built in and knows those of the saved index. What is
built in counts before what was saved.
-/

namespace PluginHost.Registry

def remembered (r : Registry) (capability : Capability) (ids : SortedSet Uuid) : Registry :=
  let before := (r.known.get? capability).getD .empty
  { r with known := r.known.insert capability ((SortedSet.toList ids).foldl SortedSet.add before) }

def ignoredReport (id : Uuid) (failure : Failure) : String :=
  "Ignoring persisted component " ++ id.text ++ ": " ++ failure.message

/-- Takes over saved type references for identifiers that have none. -/
def adoptReferences (r : Registry) : List (Uuid × String) → HostM Registry
  | [] => pure r
  | (id, text) :: rest =>
      match TypeReference.parse text with
      | .error failure => do
          Host.report (ignoredReport id failure)
          r.adoptReferences rest
      | .ok reference =>
          if r.references.contains id then r.adoptReferences rest
          else
            let r := { r with references := r.references.insert id reference }
            r.adoptReferences rest

def adopt (r : Registry) (index : ComponentIndex) : HostM Registry :=
  let r := (SortedSet.toList index.locations).foldl addLocation r
  let r := index.capabilities.entries.foldl (fun r entry => r.remembered entry.1 entry.2) r
  r.adoptReferences index.typeReferences.entries

/-- A registry with the built-in components and the saved index, if there is one. -/
def seeded (builtIn : List (Capability × Component)) (resolver : Resolver)
    (store : SettingsStore) : HostM (Except Failure Registry) :=
  match (new resolver store).addAll builtIn with
  | (.error failure, _) => pure (.error failure)
  | (.ok (), r) => do
      match ← store.load with
      | .error failure => pure (.error failure)
      | .ok none => pure (.ok r)
      | .ok (some index) => do
          let r ← r.adopt index
          pure (.ok r)

end PluginHost.Registry
