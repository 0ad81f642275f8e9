import PluginHost.Proofs.Registry.Reopening
import PluginHost.Proofs.Registry.Stability
import PluginHost.Proofs.Resolution.Faithful

/-!
Looking things up leaves the answers to all other look-ups as they were. While nothing changes the
resolver keeps what a search would find, so what a type reference leads to does not depend on what
has been resolved or looked up before, and a look-up touches no slot but its own.
-/

namespace PluginHost

/-- One component, or two that one factory has built for one module. -/
inductive Component.Twins : Component → Component → Prop
  | same (c : Component) : Twins c c
  | built (factory : Factory) (module : String) (m n : Nat) :
      Twins ((factory.construct m).inModule module) ((factory.construct n).inModule module)

theorem Resolver.Faithful.source?_eq {tree : Storage.Tree} {aliases : List (String × Path)}
    {first r s : Resolver} (hr : Faithful tree aliases first r)
    (hs : Faithful tree aliases first s) {h : Host} (hh : Host.Still tree aliases h)
    {reference : TypeReference} (hsettled : r.Settled reference) (hother : s.Settled reference) :
    s.source? reference = r.source? reference := by
  unfold source?
  cases hmodule : reference.module with
  | none => rfl
  | some module =>
      cases hparse : Identity.parse module with
      | error failure => simp [hparse, Except.toOption]
      | ok identity =>
          have hreadable : identity.Readable := ⟨module, hparse⟩
          obtain ⟨outcome, hkept⟩ := get?_of_isMemoized (hsettled module identity hmodule hparse)
          obtain ⟨again, hagain⟩ := get?_of_isMemoized (hother module identity hmodule hparse)
          have hsame : again = outcome :=
            (hs.kept identity hreadable again hagain h hh).symm.trans
              (hr.kept identity hreadable outcome hkept h hh)
          simp [hparse, Except.toOption, hkept, hagain, hsame]

namespace Registry

open HostM

/-! What outlasts resolutions outlasts look-ups. -/

/-- Identities are resolved and components looked up, nothing else. -/
def Action.Consults : Action → Prop
  | .resolve requested => requested.Readable
  | .lookUp _ _ => True
  | .ofCapability _ => True
  | _ => False

section

variable {I : Host → Prop} {P : Resolver → Prop} (hI : Host.Lasting I)
  (hresolves : ∀ resolver, P resolver → ∀ identity : Identity, identity.Readable →
    Yields I (resolver.resolve identity) fun answer => P answer.2)
include hI hresolves

theorem yields_fill_searched {r : Registry} (hr : P r.resolver) (capability : Capability)
    (id : Uuid) : Yields I (r.fill capability id) fun answer => P answer.2.resolver := by
  have hactivated : Yields I ((r.settled capability id none).activate capability id) fun answer =>
      P answer.2.resolver := by
    unfold activate
    cases (r.settled capability id none).typeReference id with
    | none => exact Yields.pure hr
    | some reference =>
        refine (Resolver.yields_activate_searched hI hr (hresolves _ hr) reference).bind ?_
        exact fun _ hanswer => Yields.pure hanswer
  refine hactivated.bind fun answer hanswer => ?_
  obtain ⟨built, next⟩ := answer
  cases built with
  | ok component => exact Yields.pure hanswer
  | error failure => exact (Host.yields_report hI _).bind fun _ _ => Yields.pure hanswer

theorem yields_lookUp_searched {r : Registry} (hr : P r.resolver) (capability : Capability)
    (id : Uuid) : Yields I (r.lookUp capability id) fun answer => P answer.2.resolver := by
  unfold lookUp
  split
  · exact Yields.pure hr
  · exact yields_fill_searched hI hresolves hr capability id
  · split
    · exact yields_fill_searched hI hresolves hr capability id
    · exact Yields.pure hr

theorem outlasts_searched (capability : Capability) :
    Outlasts I capability fun r => P r.resolver :=
  outlasts_of_yields fun _ hr id => yields_lookUp_searched hI hresolves hr capability id

theorem yields_perform_searched {r : Registry} (hr : P r.resolver) {action : Action}
    (haction : action.Consults) : Yields I (r.perform action) fun next => P next.resolver := by
  cases action with
  | lookUp capability id =>
      exact (yields_lookUp_searched hI hresolves hr capability id).bind fun _ h => Yields.pure h
  | ofCapability capability =>
      exact ((outlasts_searched hI hresolves capability).ofCapability hr).bind
        fun _ h => Yields.pure h
  | resolve requested =>
      exact (hresolves r.resolver hr requested haction).bind fun _ h => Yields.pure h
  | _ => exact haction.elim

theorem yields_run_searched {r : Registry} (hr : P r.resolver) {actions : List Action}
    (hactions : ∀ action ∈ actions, action.Consults) :
    Yields I (r.run actions) fun next => P next.resolver := by
  induction actions generalizing r with
  | nil => exact Yields.pure hr
  | cons action rest ih =>
      obtain ⟨hfirst, hrest⟩ := List.forall_mem_cons.mp hactions
      exact (yields_perform_searched hI hresolves hr hfirst).bind fun _ hnext => ih hnext hrest

end

/-! What a look-up answers. -/

/-- What comes of building a component from a type reference. -/
inductive Supplied (resolver : Resolver) (reference : TypeReference) (capability : Capability)
    (id : Uuid) : Option Component → Prop
  | built {loaded : LoadedModule} {factory : Factory} {serial : Nat} {component : Component}
      (hsource : resolver.source? reference = some (loaded, factory))
      (hbuilt : component = (factory.construct serial).inModule loaded.identity.text)
      (hcheck : check reference capability id component = .ok component) :
      Supplied resolver reference capability id (some component)
  | failed (hsource : ∀ loaded factory, resolver.source? reference = some (loaded, factory) →
      ∃ serial failure, check reference capability id
        ((factory.construct serial).inModule loaded.identity.text) = .error failure) :
      Supplied resolver reference capability id none

variable {Searches : Resolver → Resolver → Prop} {r : Registry} {capability : Capability}
  {id : Uuid} {answer : Option Component × Registry}

theorem LookedUp.of_present (h : LookedUp Searches r capability id answer) {component : Component}
    (hpresent : r.present? capability id = some component) : answer.1 = some component := by
  cases h with
  | present hslot => simpa [present?, hslot] using hpresent
  | unknown hslot _ => simp [present?, hslot] at hpresent
  | stray hslot _ => simp [present?, hslot] at hpresent
  | built hslot => simp [hslot] at hpresent
  | failed hslot => simp [hslot] at hpresent

theorem LookedUp.of_unknown (h : LookedUp Searches r capability id answer)
    (hpresent : r.present? capability id = none) (hreference : r.typeReference id = none) :
    answer.1 = none := by
  cases h with
  | present hslot => simp [present?, hslot] at hpresent
  | unknown _ _ => rfl
  | stray _ _ => rfl
  | built _ hsome => simp [hreference] at hsome
  | failed _ _ => rfl

theorem LookedUp.of_reference (h : LookedUp Searches r capability id answer)
    (hpresent : r.present? capability id = none) {reference : TypeReference}
    (hreference : r.typeReference id = some reference) :
    answer.2.resolver.Settled reference ∧
      Supplied answer.2.resolver reference capability id answer.1 := by
  cases h with
  | present hslot => simp [present?, hslot] at hpresent
  | unknown _ hnone => simp [hreference] at hnone
  | stray _ hnone => simp [hreference] at hnone
  | built _ hsome _ hsettled hsource hbuilt hcheck =>
      cases hreference.symm.trans hsome
      exact ⟨hsettled, .built hsource hbuilt hcheck⟩
  | failed _ hsome _ hsettled hsource =>
      cases hreference.symm.trans hsome
      exact ⟨hsettled, .failed hsource⟩

theorem LookedUp.spares (h : LookedUp Searches r capability id answer) {other : Capability}
    {i : Uuid} (hne : (other, i) ≠ (capability, id)) :
    answer.2.present? other i = r.present? other i ∧
      answer.2.typeReference i = r.typeReference i := by
  cases h with
  | present _ => exact ⟨rfl, rfl⟩
  | unknown _ _ => exact ⟨rfl, rfl⟩
  | stray _ _ => exact ⟨by rw [present?_settled, if_neg hne], rfl⟩
  | @built _ resolver _ _ _ component =>
      refine ⟨?_, rfl⟩
      change (({ r.settled capability id none with resolver } : Registry).settled capability id
        (some component)).present? other i = _
      rw [present?_settled, if_neg hne]
      change (r.settled capability id none).present? other i = _
      rw [present?_settled, if_neg hne]
  | failed =>
      refine ⟨?_, rfl⟩
      change (r.settled capability id none).present? other i = _
      rw [present?_settled, if_neg hne]

theorem Supplied.twins {resolver other : Resolver} {reference : TypeReference}
    {found again : Option Component} (hsame : other.source? reference = resolver.source? reference)
    (hsteady : ∀ loaded factory, resolver.source? reference = some (loaded, factory) →
      factory.Steady) (hfound : Supplied resolver reference capability id found)
    (hagain : Supplied other reference capability id again) :
    Option.Rel Component.Twins found again := by
  cases hfound with
  | built hsource hbuilt hcheck =>
      rw [hsource] at hsame
      cases hagain with
      | built hother hmore _ =>
          cases hsame.symm.trans hother
          rw [hbuilt, hmore]
          exact .some (.built _ _ _ _)
      | failed hnever =>
          obtain ⟨serial, failure, hfails⟩ := hnever _ _ hsame
          rw [hbuilt] at hcheck
          exact absurd hcheck (check_ne_ok_of_steady (hsteady _ _ hsource) hfails _ _)
  | failed hnever =>
      cases hagain with
      | built hother hmore hcheck =>
          rw [hsame] at hother
          obtain ⟨serial, failure, hfails⟩ := hnever _ _ hother
          rw [hmore] at hcheck
          exact absurd hcheck (check_ne_ok_of_steady (hsteady _ _ hother) hfails _ _)
      | failed _ => exact .none

section

variable {tree : Storage.Tree} {aliases : List (String × Path)} {first : Resolver} {s : Registry}
  {h host : Host}

theorem yields_lookUp_faithful (hr : Resolver.Faithful tree aliases first r.resolver)
    (capability : Capability) (id : Uuid) :
    Yields (Host.Still tree aliases) (r.lookUp capability id) fun answer =>
      Resolver.Faithful tree aliases first answer.2.resolver :=
  yields_lookUp_searched (Host.lasting_still tree aliases)
    (fun _ hresolver _ hreadable => hresolver.yields_resolve hreadable) hr capability id

/-- Two registries answer a look-up alike if they have the same present and the same type reference
for it and their resolvers have only searched. -/
theorem twins_lookUp (hstocked : first.Stocked) (hsteady : ∀ entryPoint factories,
      first.catalog.get? entryPoint = some factories → ∀ factory ∈ factories, factory.Steady)
    (hr : Resolver.Faithful tree aliases first r.resolver)
    (hs : Resolver.Faithful tree aliases first s.resolver)
    (hh : Host.Still tree aliases h) (hhost : Host.Still tree aliases host)
    (hpresent : s.present? capability id = r.present? capability id)
    (hreference : s.typeReference id = r.typeReference id) :
    Option.Rel Component.Twins ((r.lookUp capability id).result h).1
      ((s.lookUp capability id).result host).1 := by
  have hlooked := (yields_lookUp lawful_later r capability id h trivial).1
  have hagain := (yields_lookUp lawful_later s capability id host trivial).1
  cases hfound : r.present? capability id with
  | some component =>
      rw [hlooked.of_present hfound, hagain.of_present (hpresent.trans hfound)]
      exact .some (.same component)
  | none =>
      cases hknown : r.typeReference id with
      | none =>
          rw [hlooked.of_unknown hfound hknown,
            hagain.of_unknown (hpresent.trans hfound) (hreference.trans hknown)]
          exact .none
      | some reference =>
          obtain ⟨hsettled, hsupplied⟩ := hlooked.of_reference hfound hknown
          obtain ⟨hothers, hmore⟩ :=
            hagain.of_reference (hpresent.trans hfound) (hreference.trans hknown)
          have hfirst := (yields_lookUp_faithful hr capability id h hh).1
          have hsecond := (yields_lookUp_faithful hs capability id host hhost).1
          have hsame := hfirst.source?_eq hsecond hh hsettled hothers
          refine hsupplied.twins hsame (fun loaded factory hsource => ?_) hmore
          obtain ⟨hmem, key, hkept⟩ := mem_factories_of_source? hsource
          obtain ⟨entryPoint, hentry⟩ := hfirst.later.stocked hstocked key loaded hkept
          rw [hfirst.later.catalog] at hentry
          exact hsteady entryPoint _ hentry factory hmem

/-- Another look-up before this one makes no difference to it. -/
theorem twins_lookUp_later (hstocked : first.Stocked) (hsteady : ∀ entryPoint factories,
      first.catalog.get? entryPoint = some factories → ∀ factory ∈ factories, factory.Steady)
    (hr : Resolver.Faithful tree aliases first r.resolver) (hh : Host.Still tree aliases h)
    {other : Capability} {i : Uuid} (hne : (capability, id) ≠ (other, i)) :
    Option.Rel Component.Twins ((r.lookUp capability id).result h).1
      ((((r.lookUp other i).result h).2.lookUp capability id).result
        ((r.lookUp other i).after h)).1 := by
  obtain ⟨hbetween, hafter⟩ := yields_lookUp_faithful hr other i h hh
  have hspares := (yields_lookUp lawful_later r other i h trivial).1.spares hne
  exact twins_lookUp hstocked hsteady hr hbetween hh hafter hspares.1 hspares.2

end

/-- As long as the files stay as they are and can be read, a resolver that resolves identities and
serves look-ups answers each further resolution as a new one with the same locations would, so what
it has been used for before makes no difference. Nor does it matter which of two components is
looked up first. -/
theorem consults_transparent (suffix : String) (policy : CulturePolicy) (catalog : Catalog)
    (locations : List String) (r : Registry) (h : Host) (hcalm : h.Calm) (actions : List Action)
    (hactions : ∀ action ∈ actions, action.Consults) :
    let fresh := locations.foldl Resolver.addLocation (.new suffix policy catalog)
    let start : Registry := { r with resolver := fresh }
    let now := (start.run actions).result h
    let host := (start.run actions).after h
    (∀ requested : Identity, requested.Readable → ∀ other, Host.Still h.tree h.aliases other →
      ((now.resolver.resolve requested).result host).1 =
        ((fresh.resolve requested).result other).1) ∧
    (∀ others, (∀ action ∈ others, Action.Consults action) →
      ∀ requested : Identity, requested.Readable →
        ((((start.run others).result h).resolver.resolve requested).result
          ((start.run others).after h)).1 = ((now.resolver.resolve requested).result host).1) ∧
    ((∀ entryPoint factories, catalog.get? entryPoint = some factories →
        ∀ factory ∈ factories, factory.Steady) →
      ∀ (capability other : Capability) (id i : Uuid), (capability, id) ≠ (other, i) →
        Option.Rel Component.Twins ((now.lookUp capability id).result host).1
          ((((now.lookUp other i).result host).2.lookUp capability id).result
            ((now.lookUp other i).after host)).1 ∧
        Option.Rel Component.Twins ((now.lookUp other i).result host).1
          ((((now.lookUp capability id).result host).2.lookUp other i).result
            ((now.lookUp capability id).after host)).1) := by
  intro fresh start now host
  obtain ⟨_, hlocations, -⟩ := Resolver.foldl_addLocation locations (.new suffix policy catalog)
  have hempty : fresh.memo = .empty := congrArg Resolver.memo hlocations
  have hcatalog : fresh.catalog = catalog := congrArg Resolver.catalog hlocations
  have hfresh : Resolver.Faithful h.tree h.aliases fresh fresh :=
    Resolver.faithful_of_empty hempty
  have hstocked : fresh.Stocked := fun _ _ hkept => by
    rw [hempty] at hkept
    cases hkept
  have hstill : Host.Still h.tree h.aliases h := ⟨rfl, rfl, hcalm⟩
  have hrun : ∀ sequence, (∀ action ∈ sequence, Action.Consults action) →
      Resolver.Faithful h.tree h.aliases fresh ((start.run sequence).result h).resolver ∧
        Host.Still h.tree h.aliases ((start.run sequence).after h) := by
    intro sequence hsequence
    exact yields_run_searched (Host.lasting_still h.tree h.aliases)
      (fun _ hresolver _ hreadable => hresolver.yields_resolve hreadable) hfresh hsequence h hstill
  obtain ⟨hnow, hhost⟩ := hrun actions hactions
  have hsame : ∀ sequence, (∀ action ∈ sequence, Action.Consults action) →
      ∀ requested : Identity, requested.Readable → ∀ other, Host.Still h.tree h.aliases other →
        ((((start.run sequence).result h).resolver.resolve requested).result
          ((start.run sequence).after h)).1 = ((fresh.resolve requested).result other).1 := by
    intro sequence hsequence requested hrequested other hother
    obtain ⟨hfaithful, hlast⟩ := hrun sequence hsequence
    rw [hfaithful.result_resolve hrequested hlast hstill,
      hfresh.result_resolve hrequested hother hstill]
  refine ⟨hsame actions hactions, fun others hothers requested hrequested => ?_,
    fun hsteady capability other id i hne => ?_⟩
  · rw [hsame others hothers requested hrequested h hstill,
      hsame actions hactions requested hrequested h hstill]
  · rw [← hcatalog] at hsteady
    exact ⟨twins_lookUp_later hstocked hsteady hnow hhost hne,
      twins_lookUp_later hstocked hsteady hnow hhost hne.symm⟩

def stand : Host where
  disk.tree.limits := .usual
  disk.tree.entries := ⟨⟨[
    (["stand"], .folder),
    (["stand", "Ink.module"], .file (.text
      "\x7b\"name\": \"Ink\", \"entry_point\": \"ink\"\x7d"))]⟩, .empty⟩
  disk.tree.here := []
  disk.prospect := .clear
  aliases := []
  trace := []
  births := 0
  now := ⟨2024, 1, 1, 0, 0, 0, 0⟩

/-- Two components of one module, after the module has been resolved and all that draws has been
looked up. -/
theorem consults_transparent_stand :
    let pen : Blueprint := ⟨"Pen", .ofNat 1, ["draw"], none, none, [], ""⟩
    let pencil : Blueprint := ⟨"Pencil", .ofNat 2, ["draw"], none, none, [], ""⟩
    let catalog : Catalog := ⟨[("ink", [pen.factory, pencil.factory])]⟩
    let fresh := ["/stand"].foldl Resolver.addLocation (.new ".module" .strict catalog)
    let r : Registry := { Registry.new fresh (.new ⟨"/stand/components.json"⟩) with
      references := .ofList [(.ofNat 1, ⟨"Pen", some "Ink"⟩), (.ofNat 2, ⟨"Pencil", some "Ink"⟩)] }
    let actions : List Action := [.resolve (.named "Ink"), .ofCapability "draw"]
    let now := (r.run actions).result stand
    let host := (r.run actions).after stand
    stand.Calm ∧ (∀ action ∈ actions, action.Consults) ∧
      ((fresh.resolve (.named "Ink")).result stand).1.isSome = true ∧
      ((now.resolver.resolve (.named "Ink")).result host).1 =
        ((fresh.resolve (.named "Ink")).result stand).1 ∧
      ((now.lookUp "draw" (.ofNat 1)).result host).1.isSome = true ∧
      Option.Rel Component.Twins ((now.lookUp "draw" (.ofNat 1)).result host).1
        ((((now.lookUp "draw" (.ofNat 2)).result host).2.lookUp "draw" (.ofNat 1)).result
          ((now.lookUp "draw" (.ofNat 2)).after host)).1 := by
  intro pen pencil catalog fresh r actions now host
  have hcalm : stand.Calm := Host.calm_of_clear rfl
  have hink : (Identity.named "Ink").Readable :=
    Identity.readable_iff_plain.mpr ⟨by decide, by simp [Identity.named]⟩
  have hactions : ∀ action ∈ actions, action.Consults := by
    simp [actions, Action.Consults, hink]
  have hsteady : ∀ entryPoint factories, catalog.get? entryPoint = some factories →
      ∀ factory ∈ factories, factory.Steady := by
    intro entryPoint factories hentry factory hfactory
    simp only [catalog, Table.get?, Table.getList] at hentry
    split at hentry
    · cases hentry
      rcases List.mem_cons.mp hfactory with rfl | hfactory
      · exact pen.factory_steady
      · rw [List.mem_singleton.mp hfactory]
        exact pencil.factory_steady
    · cases hentry
  obtain ⟨hresolve, -, hlookUp⟩ := consults_transparent ".module" .strict catalog ["/stand"] r stand
    hcalm actions hactions
  refine ⟨hcalm, hactions, by decide +kernel, hresolve _ hink stand ⟨rfl, rfl, hcalm⟩,
    by decide +kernel, ?_⟩
  exact (hlookUp hsteady "draw" "draw" (.ofNat 1) (.ofNat 2) (by decide)).1

end Registry

end PluginHost
