import PluginHost.Proofs.Registry.Invariant

/-!
The answer of a look-up does not change. A component that has been found stays in its slot. One that
has not been found is not found later either: without a type reference nothing is built, and with
one the resolver has kept the module from which the component would come, or that there is none.
-/

namespace PluginHost

namespace Registry

open HostM

/-- A change to anything but the components with identifier `id`, or to the slots of these under
other capabilities. -/
def Change.Spares (capability : Capability) (id : Uuid) : Change → Prop
  | .registered _ other => other ≠ id
  | .released other i => (other, i) ≠ (capability, id)
  | .adopted other => other ≠ id

variable {Allowed : Change → Prop} {r r' : Registry} {capability : Capability} {id : Uuid}

theorem Step.later (h : Step Resolver.Later Allowed r r') : r.resolver.Later r'.resolver := by
  cases h with
  | searched hsearched => exact hsearched
  | _ => exact Resolver.Later.refl r.resolver

theorem Steps.later (h : Steps Resolver.Later Allowed r r') : r.resolver.Later r'.resolver := by
  induction h with
  | refl => exact Resolver.Later.refl r.resolver
  | tail _ hstep ih => exact ih.trans hstep.later

theorem Reachable.stocked (h : r.Reachable) : r.resolver.Stocked := by
  obtain ⟨suffix, policy, catalog, resolver, store, hlater, hsteps⟩ := h.steps
  exact hsteps.later.stocked (hlater.stocked (Resolver.stocked_new suffix policy catalog))

/-! What has been found. -/

theorem Step.keeps {component : Component}
    (h : Step Resolver.Later (Change.Spares capability id) r r')
    (hslot : r.slots.get? (capability, id) = some (some component)) :
    r'.slots.get? (capability, id) = some (some component) := by
  cases h with
  | @registered other found himplements hallowed =>
      refine (Table.get?_put_of_ne _ ?_ _).trans hslot
      exact fun heq => hallowed (Prod.mk.inj heq).2.symm
  | @released other found hallowed =>
      change (r.slots.erase (other, found.id)).get? (capability, id) = _
      rw [Table.get?_erase, if_neg (Ne.symm hallowed), hslot]
  | adopted hnew hallowed => exact hslot
  | learned hknown => exact hslot
  | searched hsearched => exact hslot
  | @opened other i hopen =>
      refine (Table.get?_put_of_ne _ ?_ _).trans hslot
      intro heq
      rw [← heq, hslot] at hopen
      simp at hopen
  | @filled other i reference loaded factory serial built hreference hsettled hsource hbuilt hcheck
      hopen =>
      refine (Table.get?_put_of_ne _ ?_ _).trans hslot
      intro heq
      rw [← heq, hslot] at hopen
      simp at hopen

theorem Steps.keeps {component : Component}
    (h : Steps Resolver.Later (Change.Spares capability id) r r')
    (hslot : r.slots.get? (capability, id) = some (some component)) :
    r'.slots.get? (capability, id) = some (some component) := by
  induction h with
  | refl => exact hslot
  | tail _ hstep ih => exact hstep.keeps ih

/-! What has not been found. -/

/-- No component can be had with this identifier under this capability: none is present, and there
is no type reference, or one from which nothing that will do is ever built. -/
structure Refused (r : Registry) (capability : Capability) (id : Uuid) : Prop where
  absent : r.present? capability id = none
  reference : ∀ reference, r.typeReference id = some reference →
    r.resolver.Settled reference ∧ ∀ loaded factory,
      r.resolver.source? reference = some (loaded, factory) → ∀ serial component,
        check reference capability id ((factory.construct serial).inModule loaded.identity.text) ≠
          .ok component

theorem Refused.step (hrefused : r.Refused capability id)
    (h : Step Resolver.Later (Change.Spares capability id) r r') : r'.Refused capability id := by
  cases h with
  | @registered other found himplements hallowed =>
      have hne : (capability, id) ≠ (other, found.id) := fun heq =>
        hallowed (Prod.mk.inj heq).2.symm
      refine ⟨?_, fun reference hreference => hrefused.reference reference ?_⟩
      · change (r.settled other found.id (some found)).present? capability id = none
        rw [present?_settled, if_neg hne]
        exact hrefused.absent
      · change ({ r with references := r.references.insert found.id found.typeReference }
          : Registry).typeReference id = _ at hreference
        rwa [typeReference_insert, if_neg fun heq => hallowed heq.symm] at hreference
  | @released other found hallowed =>
      refine ⟨?_, hrefused.reference⟩
      rw [present?_remove, if_neg (Ne.symm hallowed)]
      exact hrefused.absent
  | @adopted other reference hnew hallowed =>
      refine ⟨hrefused.absent, fun found hfound => hrefused.reference found ?_⟩
      rwa [typeReference_insert, if_neg (Ne.symm hallowed)] at hfound
  | learned hknown => exact ⟨hrefused.absent, hrefused.reference⟩
  | searched hsearched =>
      refine ⟨hrefused.absent, fun reference hreference => ?_⟩
      obtain ⟨hsettled, hnever⟩ := hrefused.reference reference hreference
      refine ⟨hsearched.settled hsettled, ?_⟩
      rw [hsearched.source?_eq hsettled]
      exact hnever
  | @opened other i hopen =>
      refine ⟨?_, hrefused.reference⟩
      rw [present?_settled]
      split
      · rfl
      · exact hrefused.absent
  | @filled other i reference loaded factory serial built hreference hsettled hsource hbuilt hcheck
      hopen =>
      refine ⟨?_, hrefused.reference⟩
      change (r.settled other i (some built)).present? capability id = none
      rw [present?_settled]
      split
      · rename_i heq
        cases heq
        have hnever := (hrefused.reference reference hreference).2 loaded factory hsource serial
        exact absurd (hbuilt ▸ hcheck) (hnever built)
      · exact hrefused.absent

theorem Refused.steps (hrefused : r.Refused capability id)
    (h : Steps Resolver.Later (Change.Spares capability id) r r') : r'.Refused capability id := by
  induction h with
  | refl => exact hrefused
  | tail _ hstep ih => exact ih.step hstep

theorem Refused.result_lookUp (hrefused : r.Refused capability id) (h : Host) :
    ((r.lookUp capability id).result h).1 = none := by
  have hlooked := (yields_lookUp lawful_later r capability id h trivial).1
  generalize (r.lookUp capability id).result h = answer at hlooked
  cases hlooked with
  | present hslot =>
      have habsent := hrefused.absent
      simp [present?, hslot] at habsent
  | built hslot hreference hsearched hsettled hsource hbuilt hcheck =>
      obtain ⟨hbefore, hnever⟩ := hrefused.reference _ hreference
      rw [hsearched.source?_eq hbefore] at hsource
      exact absurd (hbuilt ▸ hcheck) (hnever _ _ hsource _ _)
  | unknown hslot hreference => rfl
  | stray hslot hreference => rfl
  | failed hslot hreference hsearched hsettled hsource => rfl

theorem check_ne_ok_of_steady {reference : TypeReference} {factory : Factory}
    (hsteady : factory.Steady) {module : String} {first : Nat} {failure : Failure}
    (hfirst : check reference capability id ((factory.construct first).inModule module) =
      .error failure) (serial : Nat) (component : Component) :
    check reference capability id ((factory.construct serial).inModule module) ≠ .ok component := by
  intro hlater
  obtain ⟨-, hid, himplements⟩ := check_eq_ok hlater
  have hfirstId : ((factory.construct first).inModule module).id = id :=
    (hsteady first serial).1.trans hid
  rw [← hsteady.implements first serial module capability] at himplements
  simp [check, hfirstId, himplements] at hfirst

theorem mem_factories_of_source? {resolver : Resolver} {reference : TypeReference}
    {loaded : LoadedModule} {factory : Factory}
    (h : resolver.source? reference = some (loaded, factory)) :
    factory ∈ loaded.factories ∧ ∃ key, resolver.memo.get? key = some (some loaded) := by
  simp only [Resolver.source?, Option.bind_eq_some_iff, Option.map_eq_some_iff, Prod.mk.injEq,
    Option.join_eq_some_iff] at h
  obtain ⟨module, -, identity, -, found, hkept, chosen, hfactory, rfl, rfl⟩ := h
  exact ⟨List.mem_of_find?_eq_some hfactory, identity.text, hkept⟩

/-- A look-up leaves what it has found in the slot, or else nothing can be had any more. -/
theorem LookedUp.kept_or_refused {answer : Option Component × Registry}
    (hstocked : r.resolver.Stocked) (hsteady : ∀ entryPoint factories,
      r.resolver.catalog.get? entryPoint = some factories → ∀ factory ∈ factories, factory.Steady)
    (h : LookedUp Resolver.Later r capability id answer) :
    (∃ component, answer.1 = some component ∧
      answer.2.slots.get? (capability, id) = some (some component)) ∨
    answer.1 = none ∧ answer.2.Refused capability id := by
  cases h with
  | @present component hslot => exact .inl ⟨component, rfl, hslot⟩
  | unknown hslot hreference =>
      refine .inr ⟨rfl, by simp [present?, hslot], fun reference hfound => ?_⟩
      rw [hreference] at hfound
      cases hfound
  | stray hslot hreference =>
      refine .inr ⟨rfl, by simp [present?_settled], fun reference hfound => ?_⟩
      rw [typeReference_settled, hreference] at hfound
      cases hfound
  | @built reference resolver loaded factory serial component hslot hreference hsearched hsettled
      hsource hbuilt hcheck =>
      exact .inl ⟨component, rfl, Table.get?_put_self ..⟩
  | @failed reference resolver hslot hreference hsearched hsettled hsource =>
      refine .inr ⟨rfl, ?_, fun found hfound => ?_⟩
      · change (r.settled capability id none).present? capability id = none
        simp [present?_settled]
      · rw [show found = reference from Option.some.inj (hfound.symm.trans hreference)]
        refine ⟨hsettled, fun loaded factory hfactory serial component => ?_⟩
        obtain ⟨first, failure, hfirst⟩ := hsource loaded factory hfactory
        obtain ⟨hmem, key, hkept⟩ := mem_factories_of_source? hfactory
        obtain ⟨entryPoint, hentry⟩ := hsearched.stocked hstocked key loaded hkept
        rw [hsearched.catalog] at hentry
        exact check_ne_ok_of_steady (hsteady entryPoint _ hentry factory hmem) hfirst serial
          component

/-- Once a component has been looked up, every later look-up gives the same answer, whatever is done
and happens in between, as long as no component of the same identifier is registered and this one is
not removed. If it was found, a later look-up does nothing to the host. -/
theorem lookUp_stable (hreachable : r.Reachable) (hsteady : ∀ entryPoint factories,
      r.resolver.catalog.get? entryPoint = some factories → ∀ factory ∈ factories, factory.Steady)
    (capability : Capability) (id : Uuid) (h between : Host) (actions : List Action)
    (hspares : Within (Change.Spares capability id) ((r.lookUp capability id).result h).2 between
      actions) (last : Host) :
    let first := (r.lookUp capability id).result h
    let later := (first.2.run actions).result between
    ((later.lookUp capability id).result last).1 = first.1 ∧
      (first.1.isSome = true → (later.lookUp capability id).after last = last) := by
  intro first later
  have hsteps : Steps Resolver.Later (Change.Spares capability id) first.2 later :=
    steps_run_later hspares
  have hlooked := (yields_lookUp lawful_later r capability id h trivial).1
  rcases hlooked.kept_or_refused hreachable.stocked hsteady with
    ⟨component, hfound, hslot⟩ | ⟨hnone, hrefused⟩
  · have hkept : later.slots.get? (capability, id) = some (some component) := hsteps.keeps hslot
    have hlast : later.lookUp capability id =
        pure (some component, later.remember capability id) := by
      rw [lookUp, hkept]
    rw [hlast]
    exact ⟨hfound.symm, fun _ => rfl⟩
  · have hfirst : first.1 = none := hnone
    rw [hfirst]
    exact ⟨(hrefused.steps hsteps).result_lookUp last, fun hsome => by cases hsome⟩

/-- The module of the pen turns up only after the pen has been looked up in vain. A generator that has
been found stays. -/
theorem lookUp_stable_drawer :
    let pen : Blueprint := ⟨"Pen", .ofNat 1, ["draw"], none, none, [], ""⟩
    let pencil : Blueprint := ⟨"Pencil", .ofNat 2, ["draw"], none, none, [], ""⟩
    let resolver : Resolver := .new ".module" .strict ⟨[("ink", [pen.factory])]⟩
    let ink : Storage.Entry := .file (.text
      "\x7b\"name\": \"Ink\", \"entry_point\": \"ink\"\x7d")
    let full : Storage.Disk := ⟨⟨.usual,
      ⟨⟨[(["drawer"], .folder), (["drawer", "Ink.module"], ink)]⟩, .empty⟩, []⟩, .clear⟩
    let actions : List Action := [.outside ⟨full, [], drawer.now⟩, .addLocation "/drawer",
      .add "draw" (pencil.factory.construct 0), .resolve (.named "Ink")]
    ∃ r : Registry, (seeded Shipped.components resolver (.new ⟨"/drawer/components.json"⟩)).result
        drawer = .ok r ∧
      (let first := (r.lookUp "draw" (.ofNat 1)).result drawer
        let later := first.2.run actions
        Within (Change.Spares "draw" (.ofNat 1)) first.2 drawer actions ∧ first.1 = none ∧
          (((later.result drawer).lookUp "draw" (.ofNat 1)).result (later.after drawer)).1 =
            none) ∧
      let first := (r.lookUp Capability.generator Generator.finderId).result drawer
      let later := first.2.run actions
      Within (Change.Spares Capability.generator Generator.finderId) first.2 drawer actions ∧
        ∃ component, first.1 = some component ∧ component.id = Generator.finderId ∧
          (((later.result drawer).lookUp Capability.generator Generator.finderId).result
            (later.after drawer)).1 = some component := by
  intro pen pencil resolver ink full actions
  have hfacts : ((seeded Shipped.components resolver (.new ⟨"/drawer/components.json"⟩)).result
      drawer).toOption.map (fun r => (((r.lookUp "draw" (.ofNat 1)).result drawer).1.isSome,
        ((r.lookUp Capability.generator Generator.finderId).result drawer).1.map Component.id)) =
      some (false, some Generator.finderId) := by
    decide +kernel
  obtain ⟨r, hseeded, hfacts⟩ := map_toOption_eq_some.mp hfacts
  obtain ⟨hnone, hfound⟩ := Prod.mk.inj hfacts
  have hreachable : Reachable r := @Reachable.seeded _ _ _ [] _ _ drawer _ _ hseeded
  have hsteps : Steps Resolver.Later (fun _ => True) _ r :=
    (yields_seeded (fun _ => trivial) (fun _ _ => trivial) _ _ drawer trivial).1 r hseeded
  have hcatalog : r.resolver.catalog = ⟨[("ink", [pen.factory])]⟩ := hsteps.later.catalog
  have hsteady : ∀ entryPoint factories, r.resolver.catalog.get? entryPoint = some factories →
      ∀ factory ∈ factories, factory.Steady := by
    intro entryPoint factories hentry factory hfactory
    simp only [hcatalog, Table.get?, Table.getList] at hentry
    split at hentry
    · cases hentry
      rw [List.mem_singleton.mp hfactory]
      exact pen.factory_steady
    · cases hentry
  have hspares : ∀ capability id, id ≠ .ofNat 2 →
      Within (Change.Spares capability id) ((r.lookUp capability id).result drawer).2 drawer
        actions := by
    intro capability id hid
    refine ⟨by simp [Action.changes], by simp [Action.changes], fun change hchange => ?_,
      by simp [Action.changes], trivial⟩
    obtain ⟨pair, hpair, rfl⟩ := List.mem_map.mp hchange
    have honly : pair = ("draw", pencil.factory.construct 0) :=
      List.mem_singleton.mp ((List.takeWhile_sublist _).subset hpair)
    rw [honly]
    exact hid.symm
  have hpen := hspares "draw" (.ofNat 1) (by decide)
  have hfinder := hspares Capability.generator Generator.finderId (by decide)
  have hagain := (lookUp_stable hreachable hsteady "draw" (.ofNat 1) drawer drawer actions hpen
    ((((r.lookUp "draw" (.ofNat 1)).result drawer).2.run actions).after drawer)).1
  have hstays := (lookUp_stable hreachable hsteady Capability.generator Generator.finderId drawer
    drawer actions hfinder
    ((((r.lookUp Capability.generator Generator.finderId).result drawer).2.run actions).after
      drawer)).1
  have hvain := Option.not_isSome_iff_eq_none.mp (Bool.not_eq_true _ ▸ hnone)
  obtain ⟨component, hcomponent, hid⟩ := Option.map_eq_some_iff.mp hfound
  exact ⟨r, hseeded, ⟨hpen, hvain, hagain.trans hvain⟩, hfinder, component, hcomponent, hid,
    hstays.trans hcomponent⟩

end Registry

end PluginHost
