import PluginHost.Component.Activation
import PluginHost.Settings.Store

/-!
The registry maps each capability to the components that implement it. A component is present, or
known by its type reference alone and then built when it is first looked up.
-/

namespace PluginHost

structure Registry where
  /-- The components that are present. A slot without one has been looked up in vain. -/
  slots : Table (Capability × Uuid) (Option Component)
  known : SortedMap Capability (SortedSet Uuid)
  references : SortedMap Uuid TypeReference
  resolver : Resolver
  store : SettingsStore

namespace Registry

def new (resolver : Resolver) (store : SettingsStore) : Registry :=
  ⟨.empty, .empty, .empty, resolver, store⟩

def knownIds (r : Registry) (capability : Capability) : List Uuid :=
  ((r.known.get? capability).map SortedSet.toList).getD []

def typeReference (r : Registry) (id : Uuid) : Option TypeReference :=
  r.references.get? id

def present? (r : Registry) (capability : Capability) (id : Uuid) : Option Component :=
  (r.slots.get? (capability, id)).join

def isPresent (r : Registry) (capability : Capability) (id : Uuid) : Bool :=
  (r.present? capability id).isSome

def remember (r : Registry) (capability : Capability) (id : Uuid) : Registry :=
  let ids := (r.known.get? capability).getD .empty
  { r with known := r.known.insert capability (SortedSet.add ids id) }

/-- Registers a component in place of any other with its identifier. -/
def add (r : Registry) (capability : Capability) (component : Component) :
    Except Failure Registry :=
  if component.implements capability then
    let r := { r with
      references := r.references.insert component.id component.typeReference
      slots := r.slots.put (capability, component.id) (some component) }
    .ok (r.remember capability component.id)
  else
    .error (.typeMismatch component.typeReference.text capability)

/-- Lets go of a component. It remains known, so that a later look-up builds it again. -/
def remove (r : Registry) (capability : Capability) (component : Component) : Registry :=
  { r with slots := r.slots.erase (capability, component.id) }

/-- Adds as far as the first pair that is refused. -/
def addAll (r : Registry) : List (Capability × Component) → Except Failure Unit × Registry
  | [] => (.ok (), r)
  | (capability, component) :: rest =>
      match r.add capability component with
      | .ok r => r.addAll rest
      | .error failure => (.error failure, r)

def addLocation (r : Registry) (location : String) : Registry :=
  { r with resolver := r.resolver.addLocation location }

/-- Whether a component built for a look-up is the one that was looked up. -/
def check (reference : TypeReference) (capability : Capability) (id : Uuid)
    (component : Component) : Except Failure Component :=
  if component.id ≠ id then
    .error (.activation reference.text ("constructed component has id " ++ component.id.text))
  else if !component.implements capability then
    .error (.typeMismatch reference.text capability)
  else
    .ok component

def noReference (id : Uuid) : Failure :=
  .activation id.text "no type reference recorded"

def activate (r : Registry) (capability : Capability) (id : Uuid) :
    HostM (Except Failure Component × Registry) :=
  match r.typeReference id with
  | none => pure (.error (noReference id), r)
  | some reference => do
      let (built, resolver) ← r.resolver.activate reference
      pure (built.bind (check reference capability id), { r with resolver })

def activationReport (capability : Capability) (id : Uuid) (failure : Failure) : String :=
  "Failed to activate component " ++ id.text ++ " as " ++ capability ++ ": " ++ failure.message

/-- Fills a slot, which is left empty if the component cannot be built. -/
def fill (r : Registry) (capability : Capability) (id : Uuid) :
    HostM (Option Component × Registry) := do
  let r := { r with slots := r.slots.put (capability, id) none }
  match ← r.activate capability id with
  | (.ok component, r) =>
      let r := { r with slots := r.slots.put (capability, id) (some component) }
      pure (some component, r.remember capability id)
  | (.error failure, r) => do
      Host.report (activationReport capability id failure)
      pure (none, r)

/-- The component with the given identifier under a capability, built if it is only known.
Failures are reported. The capability stands for its name alone here; of which type the component is
under that name shows when it is viewed. -/
def lookUp (r : Registry) (capability : Capability) (id : Uuid) :
    HostM (Option Component × Registry) :=
  match r.slots.get? (capability, id) with
  | some (some component) => pure (some component, r.remember capability id)
  | some none => r.fill capability id
  | none =>
      if r.references.contains id then r.fill capability id else pure (none, r)

/-- Looks up a component and views it as what the caller has asked for. -/
def lookUpAs (r : Registry) (T : Interface) (id : Uuid) : HostM (Option View × Registry) := do
  let (found, r) ← r.lookUp T.capability id
  pure (found.bind (·.view? T), r)

/-- Looks up some identifiers in turn and hands over what is found. -/
def collect (capability : Capability) (use : Component → HostM α) :
    Registry → List Uuid → HostM (List α × Registry)
  | r, [] => pure ([], r)
  | r, id :: rest => do
      let (found, r) ← r.lookUp capability id
      match found with
      | none => collect capability use r rest
      | some component => do
          let value ← use component
          let (values, r) ← collect capability use r rest
          pure (value :: values, r)

def ofCapability (r : Registry) (capability : Capability) :
    HostM (List Component × Registry) :=
  collect capability pure r (r.knownIds capability)

def addResult (r : Registry) (result : ScanResult) : Except Failure Unit × Registry :=
  (if result.hasComponents then r.addLocation result.mountUri else r).addAll result.components

def addResults (r : Registry) : List ScanResult → Except Failure Unit × Registry
  | [] => (.ok (), r)
  | result :: rest =>
      match r.addResult result with
      | (.ok (), r) => r.addResults rest
      | (.error failure, r) => (.error failure, r)

/-- Registers what scans have found and saves its index. Tells whether a file was written. -/
def update (r : Registry) (results : List ScanResult) : HostM (Except Failure Bool × Registry) :=
  match r.addResults results with
  | (.error failure, r) => pure (.error failure, r)
  | (.ok (), r) => do
      let saved ← r.store.save results
      pure (saved, r)

end Registry

end PluginHost
