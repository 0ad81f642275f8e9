import PluginHost.Proofs.Component.TypeReferenceText
import PluginHost.Proofs.Registry.Invariant
import PluginHost.Proofs.Resolution.Finding

/-!
A component that only its type reference is known of is built when it is looked up, as long as its
module is found. What else is done with the registry in the meantime does not matter.
-/

namespace PluginHost

theorem LoadedModule.factory?_of_only {m : LoadedModule} {f : Factory} (hf : f ∈ m.factories)
    (honly : ∀ other ∈ m.factories, other.typeName = f.typeName → other = f) :
    m.factory? f.typeName = some f := by
  unfold factory?
  cases hfound : m.factories.find? (·.typeName = f.typeName) with
  | none =>
      rw [List.find?_eq_none] at hfound
      exact absurd (decide_eq_true rfl) (hfound f hf)
  | some other =>
      have hname := List.find?_some hfound
      exact congrArg some (honly other (List.mem_of_find?_eq_some hfound) (of_decide_eq_true hname))

/-- A module of which one factory alone has its type name, that never changes what it builds. -/
structure Exports (m : LoadedModule) (f : Factory) : Prop where
  plain : m.identity.Plain
  mem : f ∈ m.factories
  only : ∀ other ∈ m.factories, other.typeName = f.typeName → other = f
  steady : f.Steady

namespace Registry

open HostM

/-- A change to components with other identifiers, or to what is present only. -/
def Change.Others (id : Uuid) : Change → Prop
  | .registered _ other => other ≠ id
  | .released _ _ => True
  | .adopted other => other ≠ id

variable {catalog : Catalog} {suffix : String} {locations : List String} {m : LoadedModule}
  {f : Factory} {id : Uuid}

/-- The registry refers to the factory for this identifier, the resolver finds its module, and what
is present with the identifier is from this factory. -/
structure Ready (catalog : Catalog) (suffix : String) (locations : List String)
    (m : LoadedModule) (f : Factory) (id : Uuid) (r : Registry) : Prop where
  finds : Resolver.Finds catalog suffix locations m r.resolver
  reference : r.typeReference id = some ⟨f.typeName, some m.identity.text⟩
  present : ∀ capability found, r.present? capability id = some found →
    ∃ serial, found = (f.construct serial).inModule m.identity.text

/-- Searches keep the resolver one that finds the module. -/
def Searches (catalog : Catalog) (suffix : String) (locations : List String) (m : LoadedModule)
    (r r' : Resolver) : Prop :=
  r.Later r' ∧ (Resolver.Finds catalog suffix locations m r →
    Resolver.Finds catalog suffix locations m r')

theorem lawful_searches (hm : m.identity.Readable) :
    Lawful (Shelved catalog suffix locations m) (Resolver.Unmistaken m)
      (Searches catalog suffix locations m) := by
  have hlasting := lasting_shelved catalog suffix locations m
  refine ⟨hlasting, fun r location => ?_, fun r requested hrequested => ?_, fun r reference => ?_⟩
  · exact ⟨Resolver.later_addLocation r location, fun h => h.addLocation location⟩
  · exact Resolver.yields_resolve_finds catalog suffix locations hm r hrequested
  · have hresolves : ∀ identity : Identity, identity.Readable →
        Yields (Shelved catalog suffix locations m) (r.resolve identity) fun answer =>
          Searches catalog suffix locations m r answer.2 := fun identity hidentity =>
      Resolver.yields_resolve_finds catalog suffix locations hm r
        (Resolver.unmistaken_of_readable hm hidentity)
    have hsearched := Resolver.yields_activate_searched hlasting
      (P := Searches catalog suffix locations m r) ⟨Resolver.Later.refl r, id⟩ hresolves reference
    intro h hh
    obtain ⟨hanswer, hafter⟩ := hsearched h hh
    exact ⟨⟨hanswer, (Resolver.activate_settles r reference h).2⟩, hafter⟩

theorem exists_source? {resolver : Resolver} (hexports : Exports m f)
    (hfinds : Resolver.Finds catalog suffix locations m resolver)
    (hsettled : resolver.Settled ⟨f.typeName, some m.identity.text⟩) :
    ∃ loaded, resolver.source? ⟨f.typeName, some m.identity.text⟩ = some (loaded, f) ∧
      loaded.identity = m.identity := by
  have hparse := hexports.plain.parse_text
  obtain ⟨outcome, houtcome⟩ := Resolver.get?_of_isMemoized (hsettled _ _ rfl hparse)
  obtain ⟨loaded, rfl, hlike⟩ := hfinds.kept outcome houtcome
  have hfactory : loaded.factory? f.typeName = some f := by
    apply LoadedModule.factory?_of_only
    · rw [hlike.factories]
      exact hexports.mem
    · rw [hlike.factories]
      exact hexports.only
  refine ⟨loaded, ?_, hlike.identity⟩
  simp [Resolver.source?, hparse, Except.toOption, houtcome, hfactory]

theorem Ready.step {r r' : Registry} (hexports : Exports m f)
    (hready : Ready catalog suffix locations m f id r)
    (h : Step (Searches catalog suffix locations m) (Change.Others id) r r') :
    Ready catalog suffix locations m f id r' := by
  cases h with
  | @registered capability component himplements hallowed =>
      refine ⟨hready.finds, ?_, fun other found hfound => hready.present other found ?_⟩
      · change ({ r with references := r.references.insert component.id component.typeReference }
          : Registry).typeReference id = _
        rw [typeReference_insert, if_neg fun heq => hallowed heq.symm]
        exact hready.reference
      · change (r.settled capability component.id (some component)).present? other id = _ at hfound
        rwa [present?_settled, if_neg fun heq => hallowed (Prod.mk.inj heq).2.symm] at hfound
  | @released capability component hallowed =>
      refine ⟨hready.finds, hready.reference, fun other found hfound => ?_⟩
      rw [present?_remove] at hfound
      split at hfound
      · cases hfound
      · exact hready.present other found hfound
  | @adopted other reference hnew hallowed =>
      refine ⟨hready.finds, ?_, hready.present⟩
      rw [typeReference_insert, if_neg fun heq => hallowed heq.symm]
      exact hready.reference
  | learned hknown => exact ⟨hready.finds, hready.reference, hready.present⟩
  | searched hsearched => exact ⟨hsearched.2 hready.finds, hready.reference, hready.present⟩
  | @opened capability other hslot =>
      refine ⟨hready.finds, hready.reference, fun under found hfound => ?_⟩
      rw [present?_settled] at hfound
      split at hfound
      · cases hfound
      · exact hready.present under found hfound
  | @filled capability other reference loaded factory serial component hreference hsettled hsource
      hbuilt hcheck hslot =>
      refine ⟨hready.finds, hready.reference, fun under found hfound => ?_⟩
      change (r.settled capability other (some component)).present? under id = _ at hfound
      rw [present?_settled] at hfound
      split at hfound
      · rename_i heq
        cases heq
        cases hfound
        rw [hready.reference, Option.some.injEq] at hreference
        subst hreference
        obtain ⟨known, hknown, hidentity⟩ := exists_source? hexports hready.finds hsettled
        rw [hsource] at hknown
        cases hknown
        exact ⟨serial, by rw [hbuilt, hidentity]⟩
      · exact hready.present under found hfound

theorem Ready.steps {r r' : Registry} (hexports : Exports m f)
    (hready : Ready catalog suffix locations m f id r)
    (h : Steps (Searches catalog suffix locations m) (Change.Others id) r r') :
    Ready catalog suffix locations m f id r' := by
  induction h with
  | refl => exact hready
  | tail _ hstep ih => exact ih.step hexports hstep

theorem Ready.result_lookUp {r : Registry} (hexports : Exports m f)
    (hready : Ready catalog suffix locations m f id r) {capability : Capability} {first : Nat}
    (hid : (f.construct first).id = id)
    (himplements : ((f.construct first).inModule m.identity.text).implements capability = true)
    {h : Host} (hshelved : Shelved catalog suffix locations m h) :
    ∃ serial, ((r.lookUp capability id).result h).1 =
      some ((f.construct serial).inModule m.identity.text) := by
  have hlawful := @lawful_searches catalog suffix locations m
    (Identity.readable_iff_plain.mpr hexports.plain)
  have hlooked := (yields_lookUp hlawful r capability id h hshelved).1
  generalize (r.lookUp capability id).result h = answer at hlooked
  cases hlooked with
  | @present component hslot =>
      obtain ⟨serial, hserial⟩ := hready.present capability component (by simp [present?, hslot])
      exact ⟨serial, congrArg some hserial⟩
  | unknown hslot hreference =>
      rw [hready.reference] at hreference
      cases hreference
  | stray hslot hreference =>
      rw [hready.reference] at hreference
      cases hreference
  | @built reference resolver loaded factory serial component hslot hreference hsearched hsettled
      hsource hbuilt hcheck =>
      rw [hready.reference, Option.some.injEq] at hreference
      subst hreference
      obtain ⟨known, hknown, hidentity⟩ :=
        exists_source? hexports (hsearched.2 hready.finds) hsettled
      rw [hsource] at hknown
      cases hknown
      exact ⟨serial, by rw [hbuilt, hidentity]⟩
  | @failed reference resolver hslot hreference hsearched hsettled hsource =>
      rw [hready.reference, Option.some.injEq] at hreference
      subst hreference
      obtain ⟨known, hknown, hidentity⟩ :=
        exists_source? hexports (hsearched.2 hready.finds) hsettled
      obtain ⟨serial, failure, hcheck⟩ := hsource known f hknown
      rw [hidentity] at hcheck
      have hsame : ((f.construct serial).inModule m.identity.text).id = id :=
        (hexports.steady serial first).1.trans hid
      rw [← hexports.steady.implements serial first] at himplements
      simp [check, hsame, himplements] at hcheck

end Registry

end PluginHost
