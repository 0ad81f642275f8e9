import PluginHost.Proofs.Registry.Holdings
import PluginHost.Proofs.Registry.Stability
import PluginHost.Proofs.Resolution.Visits

/-!
The three ways of a look-up. A component that is present is handed over, and one that nobody has a
type reference of is not found, both without further ado. Otherwise one activation is tried. If it
fails, this is reported last, and whoever asks the registry finds it as it was.
-/

namespace PluginHost

open HostM

def Event.constructed? : Event → Option (String × Nat)
  | .constructed typeName serial => some (typeName, serial)
  | _ => none

namespace Host

/-- The components that have been built, in turn, each by its type name and its serial number. -/
def constructions (h : Host) : List (String × Nat) :=
  h.trace.filterMap Event.constructed?

/-- Between `h` and `h'` one component has been built, which is this one. -/
structure Built (h h' : Host) (component : Component) : Prop where
  made : ∃ (factory : Factory) (module : String),
    component = (factory.construct h.births).inModule module
  births : h'.births = h.births + 1
  constructions : h'.constructions =
    h.constructions ++ [(component.typeReference.typeName, h.births)]

end Host

namespace Registry

/-- The message tells of a component that could not be activated. -/
def TellsOfActivation (message : String) : Prop :=
  ∃ capability id failure, message = activationReport capability id failure

/-- Between `h` and `h'` something may have been reported, but no failed activation. -/
def Calmly (h h' : Host) : Prop :=
  ∃ reports, h'.reports = h.reports ++ reports ∧ ∀ message ∈ reports, ¬ TellsOfActivation message

/-- Whoever asks finds no difference: the same is known, has a type reference, is present, and is
searched. -/
structure Same (r r' : Registry) : Prop where
  known : ∀ capability, r'.knownIds capability = r.knownIds capability
  references : ∀ id, r'.typeReference id = r.typeReference id
  present : ∀ capability id, r'.present? capability id = r.present? capability id
  locations : r'.resolver.locations = r.resolver.locations

end Registry

/-! Views. -/

/-- What the component is under the name of `T`, if anything, is a `T`. -/
def Component.Respects (c : Component) (T : Interface) : Prop :=
  ∀ role ∈ c.roles.get? T.capability, role.kind = T.kind

instance (c : Component) (T : Interface) : Decidable (c.Respects T) :=
  inferInstanceAs (Decidable (∀ role ∈ c.roles.get? T.capability, role.kind = T.kind))

theorem Component.view?_eq_some {c : Component} {T : Interface} {view : View} :
    c.view? T = some view ↔ view.component = c ∧ c.roles.get? T.capability = some view.role ∧
      view.role.kind = T.kind := by
  obtain ⟨component, role⟩ := view
  unfold view?
  cases hfound : c.roles.get? T.capability with
  | none => simp
  | some found =>
      simp only [Option.ite_none_right_eq_some, Option.some.injEq, View.mk.injEq]
      constructor
      · rintro ⟨hkind, rfl, rfl⟩
        exact ⟨rfl, rfl, hkind⟩
      · rintro ⟨rfl, rfl, hkind⟩
        exact ⟨hkind, rfl, rfl⟩

theorem Component.Respects.exists_view {c : Component} {T : Interface} (h : c.Respects T)
    (himplements : c.implements T.capability = true) : ∃ view, c.view? T = some view := by
  obtain ⟨role, hrole⟩ := Option.isSome_iff_exists.mp himplements
  exact ⟨⟨c, role⟩, view?_eq_some.mpr ⟨rfl, hrole, h role hrole⟩⟩

/-! What is noted on the way. -/

theorem Event.OfResolution.constructed?_eq {event : Event} (h : event.OfResolution) :
    event.constructed? = none := by
  rcases h with _ | hsearch
  · rfl
  · cases hsearch <;> rfl

theorem not_tellsOfActivation_enumerationReport (location : String) (fault : Storage.Fault) :
    ¬ Registry.TellsOfActivation (Resolver.enumerationReport location fault) := by
  rintro ⟨capability, id, failure, heq⟩
  unfold Resolver.enumerationReport Registry.activationReport at heq
  have hlist := congrArg String.toList heq
  simp at hlist

theorem not_tellsOfActivation_moduleLoad (path : Path) (reason : String) :
    ¬ Registry.TellsOfActivation (Failure.moduleLoad path reason).message := by
  rintro ⟨capability, id, failure, heq⟩
  unfold Failure.message Registry.activationReport at heq
  have hlist := congrArg String.toList heq
  simp at hlist

theorem Event.OfResolution.not_tellsOfActivation {event : Event} (h : event.OfResolution)
    {message : String} (hreported : event.reported? = some message) :
    ¬ Registry.TellsOfActivation message := by
  rcases h with _ | hsearch
  · cases hreported
  cases hsearch with
  | read => cases hreported
  | entered => cases hreported
  | unlisted location fault =>
      cases hreported
      exact not_tellsOfActivation_enumerationReport location fault
  | unloaded path reason =>
      cases hreported
      exact not_tellsOfActivation_moduleLoad path reason

theorem Host.Noted.constructions_eq {h h' : Host} (hnoted : h.Noted Event.OfResolution h') :
    h'.constructions = h.constructions := by
  obtain ⟨-, events, htrace, hevents⟩ := hnoted
  have hnone : events.filterMap Event.constructed? = [] :=
    List.filterMap_eq_nil_iff.mpr fun event hevent => (hevents event hevent).constructed?_eq
  rw [constructions, htrace, List.filterMap_append, hnone, List.append_nil]
  rfl

theorem Host.Noted.calmly {h h' : Host} (hnoted : h.Noted Event.OfResolution h') :
    Registry.Calmly h h' := by
  obtain ⟨-, events, htrace, hevents⟩ := hnoted
  refine ⟨events.filterMap Event.reported?, ?_, fun message hmessage => ?_⟩
  · rw [reports, htrace, List.filterMap_append]
    rfl
  · obtain ⟨event, hevent, hreported⟩ := List.mem_filterMap.mp hmessage
    exact (hevents event hevent).not_tellsOfActivation hreported

namespace Resolver

/-- How an activation can end, with what is then left of the host. -/
inductive Attempted (h : Host) : Except Failure Component → Host → Prop
  | failed {failure : Failure} {h' : Host} (hnoted : h.Noted Event.OfResolution h') :
      Attempted h (.error failure) h'
  | built {component : Component} {h' : Host} (hbuilt : h.Built h' component)
      (hcalmly : Registry.Calmly h h') : Attempted h (.ok component) h'

theorem built_instantiate {h between : Host} (hnoted : h.Noted Event.OfResolution between)
    (loaded : LoadedModule) (factory : Factory) :
    Attempted h (.ok ((loaded.instantiate factory).result between))
      ((loaded.instantiate factory).after between) := by
  refine .built ⟨⟨factory, loaded.identity.text, ?_⟩, ?_, ?_⟩ ?_
  · rw [result_instantiate, hnoted.births]
  · exact congrArg (· + 1) hnoted.births
  · change (between.trace ++ [_]).filterMap Event.constructed? = _
    rw [List.filterMap_append]
    refine congr (congrArg _ hnoted.constructions_eq) ?_
    rw [result_instantiate, hnoted.births]
    rfl
  · obtain ⟨reports, hreports, hcalm⟩ := hnoted.calmly
    refine ⟨reports, ?_, hcalm⟩
    rw [← hreports]
    change (between.trace ++ [_]).filterMap Event.reported? = _
    rw [List.filterMap_append]
    exact List.append_nil _

theorem attempted_activate (r : Resolver) (reference : TypeReference) (h : Host) :
    Attempted h ((r.activate reference).result h).1 ((r.activate reference).after h) := by
  rw [activate]
  cases reference.module with
  | none => exact .failed (.refl h)
  | some module =>
      dsimp only
      cases Identity.parse module with
      | error failure => exact .failed (.refl h)
      | ok identity =>
          have hnoted := noted_resolve r identity h
          dsimp only
          rw [result_bind, after_bind]
          cases ((r.resolve identity).result h).1 with
          | none => exact .failed hnoted
          | some loaded =>
              dsimp only
              cases loaded.factory? reference.typeName with
              | none => exact .failed hnoted
              | some factory => exact built_instantiate hnoted loaded factory

theorem locations_activate (r : Resolver) (reference : TypeReference) (h : Host) :
    ((r.activate reference).result h).2.locations = r.locations := by
  have hlasting : Host.Lasting fun _ => True := fun _ _ _ _ => trivial
  have hresolves : ∀ identity : Identity, identity.Readable →
      Yields (fun _ => True) (r.resolve identity) fun answer => answer.2.locations = r.locations :=
    fun identity _ => yields_resolve_keeping (P := fun other => other.locations = r.locations)
      hlasting (fun _ _ _ => id) rfl identity
  exact (yields_activate_searched (P := fun other => other.locations = r.locations) hlasting rfl
    hresolves reference h trivial).1

end Resolver

namespace Host

theorem reports_report (h : Host) (message : String) :
    ((report message).after h).reports = h.reports ++ [message] := by
  simp [report, note, reports, Event.reported?]

theorem constructions_report (h : Host) (message : String) :
    ((report message).after h).constructions = h.constructions := by
  simp [report, note, constructions, Event.constructed?]

theorem Built.report {h h' : Host} {component : Component} (hbuilt : h.Built h' component)
    (message : String) : h.Built ((report message).after h') component :=
  ⟨hbuilt.made, hbuilt.births, (constructions_report h' message).trans hbuilt.constructions⟩

end Host

namespace Registry

variable {r : Registry} {capability : Capability} {id : Uuid}

theorem lookUp_of_present {component : Component}
    (hpresent : r.present? capability id = some component)
    (hknown : id ∈ r.knownIds capability) :
    r.lookUp capability id = pure (some component, r) := by
  rw [present?, Option.join_eq_some_iff] at hpresent
  rw [lookUp, hpresent, remember_eq_self hknown]

theorem lookUp_of_unknown (hsound : r.Sound) (hreference : r.typeReference id = none)
    (capability : Capability) : r.lookUp capability id = pure (none, r) := by
  have hslot : r.slots.get? (capability, id) = none := by
    rw [← Option.not_isSome_iff_eq_none]
    intro hslot
    have hknown := hsound.referenced capability id hslot
    rw [hreference] at hknown
    cases hknown
  rw [lookUp, hslot, contains_references, hreference]
  rfl

theorem lookUp_of_absent {reference : TypeReference} (hpresent : r.present? capability id = none)
    (hreference : r.typeReference id = some reference) :
    r.lookUp capability id = r.fill capability id := by
  rw [present?, Option.join_eq_none_iff] at hpresent
  rcases hpresent with hslot | hslot
  · rw [lookUp, hslot, contains_references, hreference]
    rfl
  · rw [lookUp, hslot]

/-- The registry after one activation for a slot that stays empty. -/
def attempted (r : Registry) (capability : Capability) (id : Uuid) (reference : TypeReference)
    (h : Host) : Registry :=
  { r.settled capability id none with resolver := ((r.resolver.activate reference).result h).2 }

theorem activate_settled {reference : TypeReference}
    (hreference : r.typeReference id = some reference) (capability : Capability) (h : Host) :
    ((r.settled capability id none).activate capability id).result h =
        (((r.resolver.activate reference).result h).1.bind (check reference capability id),
          r.attempted capability id reference h) ∧
      ((r.settled capability id none).activate capability id).after h =
        (r.resolver.activate reference).after h := by
  rw [activate, typeReference_settled, hreference]
  exact ⟨rfl, rfl⟩

/-- What one activation comes to, for the caller, the registry and the host. -/
theorem lookUp_of_referenced {reference : TypeReference}
    (hpresent : r.present? capability id = none)
    (hreference : r.typeReference id = some reference) (h : Host) :
    ((r.lookUp capability id).result h, (r.lookUp capability id).after h) =
      let left := (r.resolver.activate reference).after h
      let attempted := r.attempted capability id reference h
      match ((r.resolver.activate reference).result h).1.bind (check reference capability id) with
      | .ok component =>
          ((some component, (attempted.settled capability id (some component)).remember
            capability id), left)
      | .error failure =>
          ((none, attempted), (Host.report (activationReport capability id failure)).after left) := by
  obtain ⟨hresult, hafter⟩ := activate_settled hreference capability h
  rw [lookUp_of_absent hpresent hreference]
  -- The slot is opened first; an activation does not look at slots.
  change (((r.settled capability id none).activate capability id >>= _).result h,
    ((r.settled capability id none).activate capability id >>= _).after h) = _
  rw [result_bind, after_bind, hresult, hafter]
  cases ((r.resolver.activate reference).result h).1.bind (check reference capability id) <;> rfl

theorem same_attempted (hpresent : r.present? capability id = none) (reference : TypeReference)
    (h : Host) : r.Same (r.attempted capability id reference h) := by
  refine ⟨fun _ => rfl, fun _ => rfl, fun other i => ?_, Resolver.locations_activate ..⟩
  change (r.settled capability id none).present? other i = _
  rw [present?_settled]
  split
  · rename_i heq
    cases heq
    exact hpresent.symm
  · rfl

/-- What is left of the host when an activation has come to nothing: at most one component has been
built, and the last report is the only one of a failed activation. -/
structure GaveUp (h h' : Host) (capability : Capability) (id : Uuid) (failure : Failure) : Prop where
  built : h'.constructions = h.constructions ∨ ∃ component, h.Built h' component
  reports : ∃ reports, h'.reports = h.reports ++ reports ++ [activationReport capability id failure] ∧
    ∀ message ∈ reports, ¬ TellsOfActivation message

theorem gaveUp_of_attempted {h h' : Host} {built : Except Failure Component}
    (hattempted : Resolver.Attempted h built h') (failure : Failure) :
    GaveUp h ((Host.report (activationReport capability id failure)).after h') capability id
      failure := by
  have hreports : ∀ {h'}, Calmly h h' → ∃ reports,
      ((Host.report (activationReport capability id failure)).after h').reports =
        h.reports ++ reports ++ [activationReport capability id failure] ∧
      ∀ message ∈ reports, ¬ TellsOfActivation message := by
    rintro h' ⟨reports, hreports, hcalm⟩
    exact ⟨reports, by rw [Host.reports_report, hreports], hcalm⟩
  cases hattempted with
  | failed hnoted =>
      refine ⟨.inl ?_, hreports hnoted.calmly⟩
      rw [Host.constructions_report, hnoted.constructions_eq]
  | built hbuilt hcalmly => exact ⟨.inr ⟨_, hbuilt.report _⟩, hreports hcalmly⟩

/-- The three ways of a look-up before the component is viewed. -/
theorem lookUp_cases (hreachable : r.Reachable) (capability : Capability) (id : Uuid) (h : Host) :
    let answer := (r.lookUp capability id).result h
    let after := (r.lookUp capability id).after h
    (∃ component, r.present? capability id = some component ∧
      (r.typeReference id).isSome = true ∧ component.id = id ∧
      component.implements capability = true ∧ answer = (some component, r) ∧ after = h) ∨
    (r.present? capability id = none ∧ r.typeReference id = none ∧
      answer = (none, r) ∧ after = h) ∨
    (r.present? capability id = none ∧ ∃ reference, r.typeReference id = some reference ∧
      let attempt := (r.resolver.activate reference).result h
      answer.2.resolver = attempt.2 ∧
      ((∃ component, attempt.1 = .ok component ∧ answer.1 = some component ∧
          component.id = id ∧ component.implements capability = true ∧
          h.Built after component ∧ Calmly h after ∧
          answer.2.present? capability id = some component ∧
          id ∈ answer.2.knownIds capability) ∨
        ∃ failure, attempt.1.bind (check reference capability id) = .error failure ∧
          answer.1 = none ∧ GaveUp h after capability id failure ∧ r.Same answer.2)) := by
  have hsound := hreachable.sound
  intro answer after
  cases hpresent : r.present? capability id with
  | some component =>
      obtain ⟨hid, himplements, hknown⟩ := hsound.present capability id component hpresent
      have hslot := Option.join_eq_some_iff.mp hpresent
      have hreference := hsound.referenced capability id (congrArg Option.isSome hslot)
      have hlookUp := lookUp_of_present hpresent hknown
      exact .inl ⟨component, rfl, hreference, hid, himplements,
        congrArg (result · h) hlookUp, congrArg (HostM.after · h) hlookUp⟩
  | none =>
      refine .inr ?_
      cases hreference : r.typeReference id with
      | none =>
          have hlookUp := lookUp_of_unknown hsound hreference capability
          exact .inl ⟨rfl, rfl, congrArg (result · h) hlookUp, congrArg (HostM.after · h) hlookUp⟩
      | some reference =>
          refine .inr ⟨rfl, reference, rfl, ?_⟩
          have hattempted := Resolver.attempted_activate r.resolver reference h
          have hlookUp := lookUp_of_referenced hpresent hreference h
          cases hchecked : ((r.resolver.activate reference).result h).1.bind
            (check reference capability id) with
          | ok component =>
              rw [hchecked] at hlookUp
              obtain ⟨hanswer, hafter⟩ := Prod.mk.inj hlookUp
              obtain ⟨built, hbuilt, hcheck⟩ := bind_eq_ok.mp hchecked
              obtain ⟨rfl, hid, himplements⟩ := check_eq_ok hcheck
              rw [hbuilt] at hattempted
              rw [show answer = _ from hanswer, show after = _ from hafter]
              cases hattempted with
              | built hnew hcalmly =>
                  refine ⟨rfl, .inl ⟨component, hbuilt, rfl, hid, himplements, hnew, hcalmly, ?_,
                    (mem_knownIds_remember ..).mpr (.inl ⟨rfl, rfl⟩)⟩⟩
                  exact (present?_settled ..).trans (if_pos rfl)
          | error failure =>
              rw [hchecked] at hlookUp
              obtain ⟨hanswer, hafter⟩ := Prod.mk.inj hlookUp
              rw [show answer = _ from hanswer, show after = _ from hafter]
              exact ⟨rfl, .inr ⟨failure, hchecked, rfl, gaveUp_of_attempted hattempted failure,
                same_attempted hpresent reference h⟩⟩

/-! Views. -/

variable {T : Interface}

/-- No other type has the name of `T`, as far as the components go that are present and those that
the factories of the catalog build. -/
structure Respects (r : Registry) (T : Interface) : Prop where
  present : ∀ id component, r.present? T.capability id = some component → component.Respects T
  built : ∀ entryPoint factories, r.resolver.catalog.get? entryPoint = some factories →
    ∀ factory ∈ factories, ∀ serial, (factory.construct serial).Respects T

theorem Respects.of_lookUp (hrespects : r.Respects T) (hreachable : r.Reachable) {h : Host}
    {component : Component}
    (hfound : ((r.lookUp T.capability id).result h).1 = some component) :
    component.Respects T := by
  have hlooked := (yields_lookUp lawful_later r T.capability id h trivial).1
  generalize (r.lookUp T.capability id).result h = answer at hlooked hfound
  cases hlooked with
  | present hslot =>
      cases hfound
      exact hrespects.present id component (by rw [present?, hslot]; rfl)
  | @built reference resolver loaded factory serial built hslot hreference hsearched hsettled hsource
      hbuilt hcheck =>
      cases hfound
      obtain ⟨hmem, key, hkept⟩ := mem_factories_of_source? hsource
      obtain ⟨entryPoint, hentry⟩ := hsearched.stocked hreachable.stocked key loaded hkept
      rw [hsearched.catalog] at hentry
      rw [hbuilt]
      exact hrespects.built entryPoint _ hentry factory hmem serial
  | unknown => cases hfound
  | stray => cases hfound
  | failed => cases hfound

/-- A registry that is made where an index is saved has no rival of `T` if none is built in and no
factory builds one. -/
theorem respects_seeded {pairs : List (Capability × Component)} {resolver : Resolver}
    {store : SettingsStore} {h : Host} {index : ComponentIndex}
    (hadded : ((new resolver store).addAll pairs).1 = .ok ())
    (hload : store.load.result h = .ok (some index)) (hpairs : ∀ pair ∈ pairs, pair.2.Respects T)
    (hbuilt : ∀ entryPoint factories, resolver.catalog.get? entryPoint = some factories →
      ∀ factory ∈ factories, ∀ serial, (factory.construct serial).Respects T)
    (hseeded : (seeded pairs resolver store).result h = .ok r) : r.Respects T := by
  obtain ⟨same, hsame, hextends⟩ := extends_seeded hadded hload
  obtain rfl := Except.ok.inj (hsame.symm.trans hseeded)
  refine ⟨fun id component hpresent => ?_, ?_⟩
  · rw [hextends.present] at hpresent
    obtain ⟨⟨under, hmem⟩, -⟩ := exists_mem_of_lastWith hpresent
    exact hpairs _ (List.mem_of_mem_filter hmem)
  · obtain ⟨locations, hfold, -⟩ := Resolver.foldl_addLocation
      (SortedSet.toList index.locations) resolver
    rw [hextends.resolver, hfold]
    exact hbuilt

theorem lookUpAs_eq (r : Registry) (T : Interface) (id : Uuid) (h : Host) :
    (r.lookUpAs T id).result h = (((r.lookUp T.capability id).result h).1.bind (·.view? T),
        ((r.lookUp T.capability id).result h).2) ∧
      (r.lookUpAs T id).after h = (r.lookUp T.capability id).after h :=
  ⟨rfl, rfl⟩

/-- A component that is present is not handed over to those who ask for another type of the same
name, and nobody is told. -/
theorem lookUpAs_of_rival (hreachable : r.Reachable) {component : Component} {role : Role}
    (hpresent : r.present? T.capability id = some component)
    (hrole : component.roles.get? T.capability = some role) (hkind : role.kind ≠ T.kind) (h : Host) :
    (r.lookUpAs T id).result h = (none, r) ∧ (r.lookUpAs T id).after h = h := by
  obtain ⟨-, -, hknown⟩ := hreachable.sound.present T.capability id component hpresent
  have hview : component.view? T = none := by
    rw [Component.view?, hrole]
    exact if_neg hkind
  rw [(lookUpAs_eq r T id h).1, (lookUpAs_eq r T id h).2, lookUp_of_present hpresent hknown]
  exact ⟨congrArg (·, r) hview, rfl⟩

/-- The three ways of a look-up, by what the registry has under the identifier, for a type that shares
its name with no other. A component that is present is handed over as it is, and for an identifier
without a type reference nothing is; neither touches the registry or the host. Otherwise one
activation is tried. Either it has just built the component, which is then present and known; or
nothing is handed over, the failure is reported last, and whoever asks the registry finds it as it
was. -/
theorem lookUp_trichotomy (hreachable : r.Reachable) (hrespects : r.Respects T) (id : Uuid)
    (h : Host) :
    let answer := (r.lookUpAs T id).result h
    let after := (r.lookUpAs T id).after h
    (∃ component view, r.present? T.capability id = some component ∧
      (r.typeReference id).isSome = true ∧ component.id = id ∧
      component.implements T.capability = true ∧ component.view? T = some view ∧
      answer = (some view, r) ∧ after = h) ∨
    (r.present? T.capability id = none ∧ r.typeReference id = none ∧
      answer = (none, r) ∧ after = h) ∨
    (r.present? T.capability id = none ∧ ∃ reference, r.typeReference id = some reference ∧
      let attempt := (r.resolver.activate reference).result h
      answer.2.resolver = attempt.2 ∧
      ((∃ component view, attempt.1 = .ok component ∧ component.view? T = some view ∧
          answer.1 = some view ∧ component.id = id ∧ component.implements T.capability = true ∧
          h.Built after component ∧ Calmly h after ∧
          answer.2.present? T.capability id = some component ∧
          id ∈ answer.2.knownIds T.capability) ∨
        ∃ failure, attempt.1.bind (check reference T.capability id) = .error failure ∧
          answer.1 = none ∧ GaveUp h after T.capability id failure ∧ r.Same answer.2)) := by
  have hview : ∀ {component}, ((r.lookUp T.capability id).result h).1 = some component →
      component.implements T.capability = true → ∃ view, component.view? T = some view :=
    fun hfound himplements => (hrespects.of_lookUp hreachable hfound).exists_view himplements
  simp only [(lookUpAs_eq r T id h).1, (lookUpAs_eq r T id h).2]
  rcases lookUp_cases hreachable T.capability id h with
    ⟨component, hpresent, hreference, hid, himplements, hanswer, hafter⟩ |
    ⟨habsent, hreference, hanswer, hafter⟩ | ⟨habsent, reference, hreference, hresolver, htried⟩
  · obtain ⟨view, hview⟩ := hview (congrArg Prod.fst hanswer) himplements
    refine .inl ⟨component, view, hpresent, hreference, hid, himplements, hview, ?_, hafter⟩
    rw [hanswer, Option.bind_some, hview]
  · refine .inr (.inl ⟨habsent, hreference, ?_, hafter⟩)
    rw [hanswer]
    rfl
  · refine .inr (.inr ⟨habsent, reference, hreference, hresolver, ?_⟩)
    rcases htried with ⟨component, hbuilt, hfound, hid, himplements, hrest⟩ |
      ⟨failure, hfailed, hnone, hrest⟩
    · obtain ⟨view, hview⟩ := hview hfound himplements
      refine .inl ⟨component, view, hbuilt, hview, ?_, hid, himplements, hrest⟩
      rw [hfound, Option.bind_some, hview]
    · refine .inr ⟨failure, hfailed, ?_, hrest⟩
      rw [hnone]
      rfl

/-- The drawer tells of a pen, and its module is there too. -/
def stocked : Host := { drawer with
  disk.tree.entries := ⟨⟨drawer.tree.entries.entries ++ [(["drawer", "Ink.module"],
    .file (.text "\x7b\"name\": \"Ink\", \"entry_point\": \"ink\"\x7d"))]⟩, .empty⟩ }

/-- A generator is there, nobody knows of a second one, the pen is built to draw, and it is built in
vain to write. -/
theorem lookUp_trichotomy_drawer :
    let pen : Blueprint := ⟨"Pen", .ofNat 1, ["draw"], none, none, [], ""⟩
    let catalog : Catalog := ⟨[("ink", [pen.factory])]⟩
    let resolver := (Resolver.new ".module" .strict catalog).addLocation "/drawer"
    ∃ first : Registry, (seeded Shipped.components resolver
        (.new ⟨"/drawer/components.json"⟩)).result stocked = .ok first ∧
      let found := first.lookUpAs .generator Generator.finderId
      let unknown := first.lookUpAs .generator (.ofNat 2)
      let built := first.lookUpAs ⟨"draw", .foreign "draw"⟩ (.ofNat 1)
      let failed := first.lookUpAs ⟨"write", .foreign "write"⟩ (.ofNat 1)
      (∃ view, found.result stocked = (some view, first) ∧
        view.component.id = Generator.finderId ∧ found.after stocked = stocked) ∧
      (unknown.result stocked = (none, first) ∧ unknown.after stocked = stocked) ∧
      (∃ view component, (built.result stocked).1 = some view ∧
        stocked.Built (built.after stocked) component ∧ view.component = component ∧
        (built.result stocked).2.present? "draw" (.ofNat 1) = some component) ∧
      ∃ failure, GaveUp stocked (failed.after stocked) "write" (.ofNat 1) failure ∧
        first.Same (failed.result stocked).2 := by
  intro pen catalog resolver
  let draw : Interface := ⟨"draw", .foreign "draw"⟩
  let write : Interface := ⟨"write", .foreign "write"⟩
  have hanswers : ((seeded Shipped.components resolver (.new ⟨"/drawer/components.json"⟩)).result
      stocked).toOption.map (fun first =>
        ((first.present? Capability.generator Generator.finderId).map Component.id,
          (first.typeReference (.ofNat 2)).isSome,
          ((first.lookUpAs draw (.ofNat 1)).result stocked).1.isSome,
          ((first.lookUpAs write (.ofNat 1)).result stocked).1.isSome,
          (first.present? "draw" (.ofNat 1)).isSome, (first.typeReference (.ofNat 1)).isSome)) =
      some (some Generator.finderId, false, true, false, false, true) := by
    decide +kernel
  obtain ⟨first, hseeded, hanswers⟩ := map_toOption_eq_some.mp hanswers
  simp only [Prod.mk.injEq] at hanswers
  obtain ⟨hfinder, hunknown, hdrawn, hwritten, habsent, hknown⟩ := hanswers
  have hfirst : Reachable first :=
    @Reachable.seeded _ _ _ [.addLocation "/drawer"] _ _ stocked _ _ hseeded
  have hloaded : ((SettingsStore.new ⟨"/drawer/components.json"⟩).load.result
      stocked).toOption.join.isSome = true := by
    decide +kernel
  obtain ⟨index, hindex⟩ := Option.isSome_iff_exists.mp hloaded
  have hload := toOption_eq_some.mp (Option.join_eq_some_iff.mp hindex)
  have hrespects : ∀ T, (∀ pair ∈ Shipped.components, pair.2.Respects T) →
      (pen.factory.construct 0).Respects T → first.Respects T := by
    intro T hshipped hpen
    refine respects_seeded (by decide +kernel) hload hshipped ?_ hseeded
    intro entryPoint factories hentry factory hfactory serial
    obtain rfl : factories = [pen.factory] := by
      have hmem := Table.mem_entries_of_get? hentry
      exact (Prod.mk.inj (List.mem_singleton.mp hmem)).2
    obtain rfl := List.mem_singleton.mp hfactory
    exact hpen
  have hgenerator := hrespects .generator (by decide +kernel) (by decide +kernel)
  have hdraw := hrespects draw (by decide +kernel) (by decide +kernel)
  have hwrite := hrespects write (by decide +kernel) (by decide +kernel)
  refine ⟨first, hseeded, ?_, ?_, ?_, ?_⟩
  · rcases lookUp_trichotomy hfirst hgenerator Generator.finderId stocked with
      ⟨component, view, -, -, hid, -, hview, hanswer, hafter⟩ | ⟨hnone, -⟩ | ⟨hnone, -⟩
    · obtain ⟨rfl, -⟩ := Component.view?_eq_some.mp hview
      exact ⟨view, hanswer, hid, hafter⟩
    all_goals
      rw [show first.present? Capability.generator Generator.finderId = none from hnone] at hfinder
      cases hfinder
  · rcases lookUp_trichotomy hfirst hgenerator (.ofNat 2) stocked with
      ⟨component, -, -, hreference, -⟩ | ⟨-, -, hanswer, hafter⟩ | ⟨-, reference, hreference, -⟩
    · rw [hunknown] at hreference
      cases hreference
    · exact ⟨hanswer, hafter⟩
    · rw [hreference] at hunknown
      cases hunknown
  · rcases lookUp_trichotomy hfirst hdraw (.ofNat 1) stocked with
      ⟨component, -, hpresent, -⟩ | ⟨-, hreference, -⟩ | ⟨-, reference, -, -, htried⟩
    · rw [show first.present? "draw" (.ofNat 1) = some component from hpresent] at habsent
      cases habsent
    · rw [hreference] at hknown
      cases hknown
    · rcases htried with ⟨component, view, -, hview, hfound, -, -, hbuilt, -, hpresent, -⟩ |
        ⟨failure, -, hnone, -⟩
      · exact ⟨view, component, hfound, hbuilt, (Component.view?_eq_some.mp hview).1, hpresent⟩
      · rw [hnone] at hdrawn
        cases hdrawn
  · rcases lookUp_trichotomy hfirst hwrite (.ofNat 1) stocked with
      ⟨component, view, -, -, -, -, -, hanswer, -⟩ | ⟨-, hreference, -⟩ | ⟨-, reference, -, -, htried⟩
    · rw [hanswer] at hwritten
      cases hwritten
    · rw [hreference] at hknown
      cases hknown
    · rcases htried with ⟨component, view, -, -, hfound, -⟩ | ⟨failure, -, -, hgaveUp, hsame⟩
      · rw [hfound] at hwritten
        cases hwritten
      · exact ⟨failure, hgaveUp, hsame⟩

end Registry

end PluginHost
