import PluginHost.Proofs.Registry.Step
import PluginHost.Proofs.Scan.Scanning
import PluginHost.Proofs.Settings.Contents

/-!
Runs of a registry: what its callers do with it, in any order and whether it succeeds or fails,
comes down to steps, and the changes among these are the ones that were asked for.
-/

namespace PluginHost

namespace Registry

open HostM

variable {I : Host → Prop} {Requests : Identity → Prop} {Searches : Resolver → Resolver → Prop}
  {Allowed : Change → Prop}

/-! Registering. -/

/-- The pairs that are registered before one is refused. -/
def accepted (pairs : List (Capability × Component)) : List (Capability × Component) :=
  pairs.takeWhile fun pair => pair.2.implements pair.1

def Change.ofPair (pair : Capability × Component) : Change :=
  .registered pair.1 pair.2.id

theorem accepted_append {first rest : List (Capability × Component)}
    (h : ∀ pair ∈ first, pair.2.implements pair.1 = true) :
    accepted (first ++ rest) = first ++ accepted rest :=
  List.takeWhile_append_of_pos h

theorem mem_accepted_append {first : List (Capability × Component)} {pair : Capability × Component}
    (h : pair ∈ accepted first) (rest : List (Capability × Component)) :
    pair ∈ accepted (first ++ rest) := by
  rw [accepted, List.takeWhile_append]
  split
  · exact List.mem_append_left _ ((List.takeWhile_sublist _).subset h)
  · exact h

theorem steps_addAll {pairs : List (Capability × Component)} {r : Registry}
    (hallowed : ∀ pair ∈ accepted pairs, Allowed (.ofPair pair)) :
    Steps Searches Allowed r (r.addAll pairs).2 := by
  induction pairs generalizing r with
  | nil => exact .refl
  | cons pair rest ih =>
      obtain ⟨capability, component⟩ := pair
      cases hadd : r.add capability component with
      | error failure => simpa only [addAll, hadd] using .refl
      | ok next =>
          obtain ⟨himplements, rfl⟩ := add_eq_ok.mp hadd
          simp only [accepted, List.takeWhile_cons, himplements, if_true, List.mem_cons,
            forall_eq_or_imp] at hallowed
          simp only [addAll, hadd]
          exact .head (.registered himplements hallowed.1) (ih hallowed.2)

theorem addAll_cons {capability : Capability} {component : Component}
    (himplements : component.implements capability = true) (r : Registry)
    (rest : List (Capability × Component)) :
    r.addAll ((capability, component) :: rest) = (r.registered capability component).addAll rest := by
  rw [addAll, add_eq_ok.mpr ⟨himplements, rfl⟩]

theorem addAll_cons_eq_ok {capability : Capability} {component : Component}
    {rest : List (Capability × Component)} {r r' : Registry} :
    r.addAll ((capability, component) :: rest) = (.ok (), r') ↔
      component.implements capability = true ∧
        (r.registered capability component).addAll rest = (.ok (), r') := by
  constructor
  · intro h
    cases hadd : r.add capability component with
    | error failure => simp [addAll, hadd] at h
    | ok next =>
        obtain ⟨himplements, -⟩ := add_eq_ok.mp hadd
        rw [addAll_cons himplements] at h
        exact ⟨himplements, h⟩
  · rintro ⟨himplements, h⟩
    rwa [addAll_cons himplements]

theorem implements_of_addAll {pairs : List (Capability × Component)} {r r' : Registry}
    (h : r.addAll pairs = (.ok (), r')) : ∀ pair ∈ pairs, pair.2.implements pair.1 = true := by
  induction pairs generalizing r with
  | nil => simp
  | cons pair rest ih =>
      obtain ⟨himplements, hrest⟩ := addAll_cons_eq_ok.mp h
      exact List.forall_mem_cons.mpr ⟨himplements, ih hrest⟩

theorem exists_addAll {pairs : List (Capability × Component)}
    (h : ∀ pair ∈ pairs, pair.2.implements pair.1 = true) (r : Registry) :
    ∃ r', r.addAll pairs = (.ok (), r') := by
  induction pairs generalizing r with
  | nil => exact ⟨r, rfl⟩
  | cons pair rest ih =>
      obtain ⟨hfirst, hrest⟩ := List.forall_mem_cons.mp h
      obtain ⟨r', hadded⟩ := ih hrest (r.registered pair.1 pair.2)
      exact ⟨r', addAll_cons_eq_ok.mpr ⟨hfirst, hadded⟩⟩

theorem steps_addLocation (hlawful : Lawful I Requests Searches) (r : Registry)
    (location : String) : Steps Searches Allowed r (r.addLocation location) :=
  .single (.searched (hlawful.locates r.resolver location))

theorem steps_addResult (hlawful : Lawful I Requests Searches) {r : Registry} {result : ScanResult}
    (hallowed : ∀ pair ∈ accepted result.components, Allowed (.ofPair pair)) :
    Steps Searches Allowed r (r.addResult result).2 := by
  rw [addResult]
  split
  · exact (steps_addLocation hlawful r result.mountUri).trans (steps_addAll hallowed)
  · exact steps_addAll hallowed

theorem steps_addResults (hlawful : Lawful I Requests Searches) {results : List ScanResult}
    {r : Registry} (hallowed : ∀ pair ∈ accepted (pairsOf results), Allowed (.ofPair pair)) :
    Steps Searches Allowed r (r.addResults results).2 := by
  induction results generalizing r with
  | nil => exact .refl
  | cons result rest ih =>
      rw [pairsOf_cons] at hallowed
      obtain ⟨added, next, hadd⟩ : ∃ added next, r.addResult result = (added, next) := ⟨_, _, rfl⟩
      have hfirst : Steps Searches Allowed r next := by
        have hsteps : Steps Searches Allowed r (r.addResult result).2 := steps_addResult hlawful
          fun pair hpair => hallowed pair (mem_accepted_append hpair _)
        rwa [hadd] at hsteps
      cases added with
      | error failure => simpa only [addResults, hadd] using hfirst
      | ok done =>
          rw [accepted_append (implements_of_addAll hadd)] at hallowed
          simp only [addResults, hadd]
          exact hfirst.trans (ih fun pair hpair => hallowed pair (List.mem_append_right _ hpair))

theorem result_update (r : Registry) (results : List ScanResult) (h : Host) :
    ((r.update results).result h).2 = (r.addResults results).2 := by
  rw [update]
  split
  · rename_i heq
    rw [heq]
    rfl
  · rename_i heq
    rw [heq]
    rfl

/-! Looking up. -/

/-- `P` outlasts looking up, under a capability, what has been known there. -/
def Outlasts (I : Host → Prop) (capability : Capability) (P : Registry → Prop) : Prop :=
  ∀ known r, P known → P r → ∀ id ∈ known.knownIds capability,
    Yields I (r.lookUp capability id) fun answer => P answer.2

section

variable {P : Registry → Prop} {capability : Capability} {r : Registry}

theorem outlasts_of_yields
    (h : ∀ r, P r → ∀ id, Yields I (r.lookUp capability id) fun answer => P answer.2) :
    Outlasts I capability P :=
  fun _ r _ hr id _ => h r hr id

theorem Outlasts.collect {α : Type} (h : Outlasts I capability P) {use : Component → HostM α}
    (huse : ∀ component, Yields I (use component) fun _ => True) {known : Registry}
    (hknown : P known) (hr : P r) {ids : List Uuid}
    (hids : ∀ id ∈ ids, id ∈ known.knownIds capability) :
    Yields I (collect capability use r ids) fun answer => P answer.2 := by
  induction ids generalizing r with
  | nil => exact Yields.pure hr
  | cons id rest ih =>
      obtain ⟨hfirst, hrest⟩ := List.forall_mem_cons.mp hids
      refine (h known r hknown hr id hfirst).bind fun answer hnext => ?_
      obtain ⟨found, next⟩ := answer
      cases found with
      | none => exact ih hnext hrest
      | some component =>
          refine (huse component).bind fun value _ => ?_
          exact (ih hnext hrest).bind fun answer hlast => Yields.pure hlast

theorem Outlasts.ofCapability (h : Outlasts I capability P) (hr : P r) :
    Yields I (r.ofCapability capability) fun answer => P answer.2 :=
  h.collect (fun _ => Yields.pure trivial) hr hr fun _ hid => hid

theorem yields_findComponents_any (hI : Host.Lasting I) (catalog : Catalog) (suffix : String)
    (mount : Mount) : Yields I (Scanning.findComponents catalog suffix mount) fun _ => True :=
  Host.yields_of_has fun tree => (Scanning.yields_findComponents (hI.and_has tree)
    (fun _ h => h.2) catalog suffix mount).any

variable (h : Outlasts I Capability.generator P) (hI : Host.Lasting I)
include h hI

theorem Outlasts.findTemplates (hr : P r) (mount : Mount) :
    Yields I (Scanning.findTemplates mount r) fun answer => P answer.2 :=
  (h.collect (Scanning.yields_ask hI mount) hr hr fun _ hid => hid).bind
    fun _ hnext => Yields.pure hnext

theorem Outlasts.scan (hr : P r) (catalog : Catalog) (suffix location : String) :
    Yields I (Scanning.scan catalog suffix location r) fun answer => P answer.2 := by
  rw [Scanning.scan]
  split
  · exact Yields.pure hr
  · refine Yields.get.bind fun host _ => ?_
    cases host.mount? location with
    | none => exact Yields.pure hr
    | some mount =>
        refine (h.findTemplates hI hr mount).bind fun answer hnext => ?_
        refine (yields_findComponents_any hI catalog suffix mount).bind ?_
        exact fun _ _ => Yields.pure hnext

theorem Outlasts.scanAll (hr : P r) (catalog : Catalog) (suffix : String)
    (locations : List String) :
    Yields I (Scanning.scanAll catalog suffix locations r) fun answer => P answer.2 := by
  induction locations generalizing r with
  | nil => exact Yields.pure hr
  | cons location rest ih =>
      refine (h.scan hI hr catalog suffix location).bind fun answer hnext => ?_
      obtain ⟨scanned, next⟩ := answer
      cases scanned with
      | error failure => exact Yields.pure hnext
      | ok result => exact (ih hnext).bind fun _ hlast => Yields.pure hlast

end

section

variable (Allowed)

theorem yields_lookUp_steps (hlawful : Lawful I Requests Searches) (r : Registry)
    (capability : Capability) (id : Uuid) : Yields I (r.lookUp capability id) fun answer =>
      Steps Searches Allowed r answer.2 :=
  (yields_lookUp hlawful r capability id).mono fun _ h => h.steps

theorem outlasts_steps (hlawful : Lawful I Requests Searches) (capability : Capability)
    (r : Registry) : Outlasts I capability (Steps Searches Allowed r) :=
  outlasts_of_yields fun next hsteps id =>
    (yields_lookUp_steps Allowed hlawful next capability id).mono fun _ => hsteps.trans

theorem yields_scan (hlawful : Lawful I Requests Searches) (catalog : Catalog)
    (suffix location : String) (r : Registry) : Yields I (Scanning.scan catalog suffix location r) fun answer =>
      Steps Searches Allowed r answer.2 :=
  (outlasts_steps Allowed hlawful _ r).scan hlawful.lasting .refl catalog suffix location

theorem yields_scanAll (hlawful : Lawful I Requests Searches) (catalog : Catalog) (suffix : String)
    (locations : List String) (r : Registry) :
    Yields I (Scanning.scanAll catalog suffix locations r) fun answer =>
      Steps Searches Allowed r answer.2 :=
  (outlasts_steps Allowed hlawful _ r).scanAll hlawful.lasting .refl catalog suffix locations

end

/-! What scans find. -/

theorem yields_scan_found (hlawful : Lawful I Requests Searches) {tree : Storage.Tree}
    (htree : ∀ h, I h → h.tree = tree) (catalog : Catalog) (suffix location : String)
    (r : Registry) : Yields I (Scanning.scan catalog suffix location r) fun answer =>
      ∀ result, answer.1 = .ok result → ∀ pair ∈ result.components,
        ∃ path, Scanning.FoundIn catalog tree path pair := by
  rw [Scanning.scan]
  split
  · exact Yields.pure fun _ h => (by cases h)
  · refine Yields.get.bind fun h _ => ?_
    cases h.mount? location with
    | none => exact Yields.pure fun _ h => (by cases h)
    | some mount =>
        have houtlasts : Outlasts I Capability.generator (Steps Searches (fun _ => True) r) :=
          outlasts_steps (fun _ => True) hlawful _ r
        refine (houtlasts.findTemplates hlawful.lasting .refl mount).bind fun answer _ => ?_
        refine (Scanning.yields_findComponents hlawful.lasting htree catalog suffix mount).bind ?_
        intro components hcomponents
        refine Yields.pure fun result hresult => ?_
        cases hresult
        exact hcomponents

theorem yields_scanAll_found (hlawful : Lawful I Requests Searches) {tree : Storage.Tree}
    (htree : ∀ h, I h → h.tree = tree) (catalog : Catalog) (suffix : String)
    (locations : List String) (r : Registry) :
    Yields I (Scanning.scanAll catalog suffix locations r) fun answer =>
      ∀ results, answer.1 = .ok results → ∀ pair ∈ pairsOf results,
        ∃ path, Scanning.FoundIn catalog tree path pair := by
  induction locations generalizing r with
  | nil =>
      refine Yields.pure fun results hresults pair hpair => ?_
      cases hresults
      cases hpair
  | cons location rest ih =>
      refine (yields_scan_found hlawful htree catalog suffix location r).bind ?_
      intro answer hfirst
      obtain ⟨scanned, next⟩ := answer
      cases scanned with
      | error failure => exact Yields.pure fun _ h => (by cases h)
      | ok result =>
          refine (ih next).bind fun answer hmore => Yields.pure ?_
          intro results hresults pair hpair
          obtain ⟨found, last⟩ := answer
          cases found with
          | error failure => cases hresults
          | ok others =>
              cases hresults
              rw [pairsOf_cons] at hpair
              rcases List.mem_append.mp hpair with hpair | hpair
              · exact hfirst result rfl pair hpair
              · exact hmore others rfl pair hpair

/-! Everything that callers can do. -/

inductive Action where
  | add (capability : Capability) (component : Component)
  | remove (capability : Capability) (component : Component)
  | lookUp (capability : Capability) (id : Uuid)
  | ofCapability (capability : Capability)
  | update (results : List ScanResult)
  | scan (suffix location : String)
  | scanAndUpdate (config : EngineConfig) (locations : List String)
  | addLocation (location : String)
  | resolve (requested : Identity)
  | outside (surroundings : Surroundings)

/-- What is left of a registry after an action, whether that succeeds or fails. -/
def perform (r : Registry) : Action → HostM Registry
  | .add capability component => pure ((r.add capability component).toOption.getD r)
  | .remove capability component => pure (r.remove capability component)
  | .lookUp capability id => Prod.snd <$> r.lookUp capability id
  | .ofCapability capability => Prod.snd <$> r.ofCapability capability
  | .update results => Prod.snd <$> r.update results
  | .scan suffix location => Prod.snd <$> Scanning.scan r.resolver.catalog suffix location r
  | .scanAndUpdate config locations =>
      (fun answer => answer.2.registry) <$> (Environment.mk config r).scanAndUpdate locations
  | .addLocation location => pure (r.addLocation location)
  | .resolve requested =>
      (fun answer => { r with resolver := answer.2 }) <$> r.resolver.resolve requested
  | .outside surroundings => do
      modify (·.among surroundings)
      pure r

def run (r : Registry) : List Action → HostM Registry
  | [] => pure r
  | action :: rest => do
      let r ← r.perform action
      r.run rest

/-- The changes among the steps of an action. -/
def Action.changes (r : Registry) (h : Host) : Action → List Change
  | .add capability component => (accepted [(capability, component)]).map .ofPair
  | .remove capability component => [.released capability component.id]
  | .update results => (accepted (pairsOf results)).map .ofPair
  | .scanAndUpdate config locations =>
      match ((Scanning.scanAll r.resolver.catalog config.discoverySuffix locations r).result h).1 with
      | .ok results => (accepted (pairsOf results)).map .ofPair
      | .error _ => []
  | _ => []

def Action.Asks (Requests : Identity → Prop) : Action → Prop
  | .resolve requested => Requests requested
  | _ => True

theorem steps_perform (hlawful : Lawful I Requests Searches) {r : Registry} {action : Action}
    (hasks : action.Asks Requests) {h : Host} (hI : I h)
    (hallowed : ∀ change ∈ action.changes r h, Allowed change) :
    Steps Searches Allowed r ((r.perform action).result h) := by
  cases action with
  | add capability component =>
      cases hadd : r.add capability component with
      | error failure => simpa [perform, hadd, Except.toOption] using .refl
      | ok next =>
          obtain ⟨himplements, rfl⟩ := add_eq_ok.mp hadd
          simp only [perform, hadd, Except.toOption, Option.getD_some, result_pure]
          refine .single (.registered himplements (hallowed _ ?_))
          simp [Action.changes, accepted, himplements, Change.ofPair]
  | remove capability component =>
      refine .single (.released (hallowed _ ?_))
      simp [Action.changes]
  | lookUp capability id => exact (yields_lookUp_steps Allowed hlawful r capability id h hI).1
  | ofCapability capability =>
      exact ((outlasts_steps Allowed hlawful capability r).ofCapability .refl h hI).1
  | scan suffix location =>
      exact (yields_scan Allowed hlawful r.resolver.catalog suffix location r h hI).1
  | addLocation location => exact steps_addLocation hlawful r location
  | resolve requested =>
      exact .single (.searched (hlawful.resolves r.resolver requested hasks h hI).1)
  | outside surroundings => exact .refl
  | update results =>
      simp only [perform, result_map, result_update]
      exact steps_addResults hlawful fun pair hpair => hallowed _ (List.mem_map_of_mem hpair)
  | scanAndUpdate config locations =>
      have hscan := (yields_scanAll Allowed hlawful r.resolver.catalog
        config.discoverySuffix locations r h hI).1
      simp only [Action.changes] at hallowed
      simp only [perform, result_map, Environment.scanAndUpdate, result_bind]
      generalize (Scanning.scanAll r.resolver.catalog config.discoverySuffix locations r).result h =
        answer at hscan hallowed
      obtain ⟨scanned, next⟩ := answer
      cases scanned with
      | error failure => exact hscan
      | ok results =>
          simp only [result_bind, result_pure, Environment.withRegistry, result_update]
          refine hscan.trans (steps_addResults hlawful fun pair hpair => ?_)
          exact hallowed _ (List.mem_map_of_mem hpair)

def Within (Allowed : Change → Prop) : Registry → Host → List Action → Prop
  | _, _, [] => True
  | r, h, action :: rest =>
      (∀ change ∈ action.changes r h, Allowed change) ∧
        Within Allowed ((r.perform action).result h) ((r.perform action).after h) rest

def Throughout (I : Host → Prop) : Registry → Host → List Action → Prop
  | _, h, [] => I h
  | r, h, action :: rest =>
      I h ∧ Throughout I ((r.perform action).result h) ((r.perform action).after h) rest

theorem Throughout.last {r : Registry} {h : Host} {actions : List Action}
    (hI : Throughout I r h actions) : I ((r.run actions).after h) := by
  induction actions generalizing r h with
  | nil => exact hI
  | cons action rest ih => exact ih hI.2

theorem throughout_all (hall : ∀ h, I h) (r : Registry) (h : Host) (actions : List Action) :
    Throughout I r h actions := by
  induction actions generalizing r h with
  | nil => exact hall h
  | cons action rest ih => exact ⟨hall h, ih _ _⟩

theorem steps_run (hlawful : Lawful I Requests Searches) {r : Registry} {h : Host}
    {actions : List Action} (hasks : ∀ action ∈ actions, action.Asks Requests)
    (hI : Throughout I r h actions) (hwithin : Within Allowed r h actions) :
    Steps Searches Allowed r ((r.run actions).result h) := by
  induction actions generalizing r h with
  | nil => exact .refl
  | cons action rest ih =>
      obtain ⟨hfirst, hrest⟩ := List.forall_mem_cons.mp hasks
      exact (steps_perform hlawful hfirst hI.1 hwithin.1).trans (ih hrest hI.2 hwithin.2)

theorem within_all (hall : ∀ change, Allowed change) (r : Registry) (h : Host)
    (actions : List Action) : Within Allowed r h actions := by
  induction actions generalizing r h with
  | nil => trivial
  | cons action rest ih => exact ⟨fun change _ => hall change, ih _ _⟩

theorem Action.asks_all (action : Action) : action.Asks fun _ => True := by
  cases action <;> trivial

theorem lawful_lasting (hI : Host.Lasting I) :
    Lawful I (fun _ => True) Resolver.Later := by
  have hresolves : ∀ (r : Resolver) requested, Yields I (r.resolve requested) fun _ => True :=
    fun _ requested => Resolver.yields_resolve_keeping (P := fun _ => True) hI
      (fun _ _ _ => id) trivial requested
  refine ⟨hI, Resolver.later_addLocation, fun r requested _ => ?_, fun r reference => ?_⟩
  · exact (hresolves r requested).answering fun h _ => (Resolver.resolve_keeps r requested h).1
  · exact (Resolver.yields_activate_searched (P := fun _ => True) hI trivial
      (fun identity _ => hresolves r identity) reference).answering
        fun h _ => Resolver.activate_settles r reference h

theorem lawful_later : Lawful (fun _ => True) (fun _ => True) Resolver.Later :=
  lawful_lasting fun _ _ _ _ => trivial

theorem steps_run_later {r : Registry} {h : Host} {actions : List Action}
    (hwithin : Within Allowed r h actions) :
    Steps Resolver.Later Allowed r ((r.run actions).result h) :=
  steps_run lawful_later (fun action _ => action.asks_all)
    (throughout_all (fun _ => trivial) r h actions) hwithin

end Registry

end PluginHost
