import Mathlib.Logic.Relation
import PluginHost.Engine.Environment
import PluginHost.Proofs.Collection
import PluginHost.Proofs.Component.Activation

/-!
What can happen to a registry, in small steps. Every operation comes down to these (`Steps`), the
failing ones too, so that an invariant has to be looked at once for each kind of step.
-/

namespace PluginHost

namespace Registry

open HostM

/-- What a step may change that callers have asked for. -/
inductive Change where
  | registered (capability : Capability) (id : Uuid)
  | released (capability : Capability) (id : Uuid)
  /-- A saved type reference is taken over. -/
  | adopted (id : Uuid)

def settled (r : Registry) (capability : Capability) (id : Uuid) (found : Option Component) :
    Registry :=
  { r with slots := r.slots.put (capability, id) found }

def registered (r : Registry) (capability : Capability) (component : Component) : Registry :=
  { r with
    references := r.references.insert component.id component.typeReference
    slots := r.slots.put (capability, component.id) (some component) }.remember
      capability component.id

theorem add_eq_ok {r r' : Registry} {capability : Capability} {component : Component} :
    r.add capability component = .ok r' ↔
      component.implements capability = true ∧ r' = r.registered capability component := by
  rw [add]
  split
  · rename_i himplements
    simp [himplements, registered, eq_comm]
  · rename_i hnot
    simp [hnot]

section

variable (I : Host → Prop) (Searches : Resolver → Resolver → Prop) (Allowed : Change → Prop)

inductive Step : Registry → Registry → Prop
  | registered {r : Registry} {capability : Capability} {component : Component}
      (himplements : component.implements capability = true)
      (hallowed : Allowed (.registered capability component.id)) :
      Step r (r.registered capability component)
  | released {r : Registry} {capability : Capability} {component : Component}
      (hallowed : Allowed (.released capability component.id)) :
      Step r (r.remove capability component)
  | adopted {r : Registry} {id : Uuid} {reference : TypeReference}
      (hnew : r.references.contains id = false) (hallowed : Allowed (.adopted id)) :
      Step r { r with references := r.references.insert id reference }
  | learned {r : Registry} {known : SortedMap Capability (SortedSet Uuid)}
      (hknown : ∀ capability id, id ∈ r.knownIds capability →
        id ∈ { r with known }.knownIds capability) :
      Step r { r with known }
  | searched {r : Registry} {resolver : Resolver} (hsearched : Searches r.resolver resolver) :
      Step r { r with resolver }
  /-- A slot is looked into that is empty, or that there is none of yet for a component which could
  be built. -/
  | opened {r : Registry} {capability : Capability} {id : Uuid}
      (hslot : r.slots.get? (capability, id) = some none ∨
        r.slots.get? (capability, id) = none ∧ r.references.contains id = true) :
      Step r (r.settled capability id none)
  /-- A component is built for its slot, from where its type reference leads. -/
  | filled {r : Registry} {capability : Capability} {id : Uuid} {reference : TypeReference}
      {loaded : LoadedModule} {factory : Factory} {serial : Nat} {component : Component}
      (hreference : r.typeReference id = some reference)
      (hsettled : r.resolver.Settled reference)
      (hsource : r.resolver.source? reference = some (loaded, factory))
      (hbuilt : component = (factory.construct serial).inModule loaded.identity.text)
      (hcheck : check reference capability id component = .ok component)
      (hslot : r.slots.get? (capability, id) = some none) :
      Step r ((r.settled capability id (some component)).remember capability id)

abbrev Steps : Registry → Registry → Prop :=
  Relation.ReflTransGen (Step Searches Allowed)

variable {Searches Allowed} in
theorem Steps.store_eq {r r' : Registry} (h : Steps Searches Allowed r r') :
    r'.store = r.store := by
  induction h with
  | refl => rfl
  | tail _ hstep ih => cases hstep <;> exact ih

end

@[simp] theorem mem_knownIds_remember (r : Registry) (capability other : Capability)
    (id i : Uuid) :
    i ∈ (r.remember capability id).knownIds other ↔
      other = capability ∧ i = id ∨ i ∈ r.knownIds other := by
  simp only [knownIds, remember, SortedMap.get?_insert]
  split
  · rename_i heq
    subst heq
    cases r.known.get? other <;> simp
  · rename_i hne
    simp [hne]

theorem remember_eq_self {r : Registry} {capability : Capability} {id : Uuid}
    (h : id ∈ r.knownIds capability) : r.remember capability id = r := by
  cases hknown : r.known.get? capability with
  | none => simp [knownIds, hknown] at h
  | some ids =>
      rw [knownIds, hknown] at h
      obtain ⟨⟨⟩, hid⟩ := SortedMap.mem_keys_iff.mp h
      have hids : SortedSet.add ids id = ids := SortedMap.insert_eq_self hid
      rw [remember, hknown, Option.getD_some, hids, SortedMap.insert_eq_self hknown]

/-! Operations as steps. -/

variable {I : Host → Prop} {Requests : Identity → Prop} {Searches : Resolver → Resolver → Prop}
  {Allowed : Change → Prop}

/-- What is needed to make the operations of a registry on hosts in `I` steps: new locations of the
resolver, and searches for identities in `Requests`, are among what `Searches` relates. -/
structure Lawful (I : Host → Prop) (Requests : Identity → Prop)
    (Searches : Resolver → Resolver → Prop) : Prop where
  lasting : Host.Lasting I
  locates : ∀ (r : Resolver) location, Searches r (r.addLocation location)
  resolves : ∀ (r : Resolver) requested, Requests requested →
    Yields I (r.resolve requested) fun answer => Searches r answer.2
  activates : ∀ (r : Resolver) reference, Yields I (r.activate reference) fun answer =>
    Searches r answer.2 ∧ answer.2.Settled reference ∧
      Resolver.Activated answer.2 reference answer.1

/-- How the search for a component can end, with what is then left of the registry. -/
inductive LookedUp (Searches : Resolver → Resolver → Prop) (r : Registry)
    (capability : Capability) (id : Uuid) : Option Component × Registry → Prop
  | present {component : Component}
      (hslot : r.slots.get? (capability, id) = some (some component)) :
      LookedUp Searches r capability id (some component, r.remember capability id)
  | unknown (hslot : r.slots.get? (capability, id) = none)
      (hreference : r.typeReference id = none) :
      LookedUp Searches r capability id (none, r)
  | stray (hslot : r.slots.get? (capability, id) = some none)
      (hreference : r.typeReference id = none) :
      LookedUp Searches r capability id (none, r.settled capability id none)
  | built {reference : TypeReference} {resolver : Resolver} {loaded : LoadedModule}
      {factory : Factory} {serial : Nat} {component : Component}
      (hslot : r.present? capability id = none)
      (hreference : r.typeReference id = some reference)
      (hsearched : Searches r.resolver resolver) (hsettled : resolver.Settled reference)
      (hsource : resolver.source? reference = some (loaded, factory))
      (hbuilt : component = (factory.construct serial).inModule loaded.identity.text)
      (hcheck : check reference capability id component = .ok component) :
      LookedUp Searches r capability id (some component,
        (({ r.settled capability id none with resolver } : Registry).settled capability id
          (some component)).remember capability id)
  | failed {reference : TypeReference} {resolver : Resolver}
      (hslot : r.present? capability id = none)
      (hreference : r.typeReference id = some reference)
      (hsearched : Searches r.resolver resolver) (hsettled : resolver.Settled reference)
      (hsource : ∀ loaded factory, resolver.source? reference = some (loaded, factory) →
        ∃ serial failure, check reference capability id
          ((factory.construct serial).inModule loaded.identity.text) = .error failure) :
      LookedUp Searches r capability id (none,
        ({ r.settled capability id none with resolver } : Registry))

theorem contains_references {r : Registry} {id : Uuid} :
    r.references.contains id = (r.typeReference id).isSome :=
  rfl

theorem typeReference_settled (r : Registry) (capability : Capability) (id other : Uuid)
    (found : Option Component) :
    (r.settled capability id found).typeReference other = r.typeReference other :=
  rfl

/-- How building a component for a slot can end. -/
inductive Tried (Searches : Resolver → Resolver → Prop) (r : Registry)
    (capability : Capability) (id : Uuid) : Except Failure Component × Registry → Prop
  | stray (hreference : r.typeReference id = none) :
      Tried Searches r capability id (.error (noReference id), r)
  | run {reference : TypeReference} {resolver : Resolver} {built : Except Failure Component}
      (hreference : r.typeReference id = some reference)
      (hsearched : Searches r.resolver resolver) (hsettled : resolver.Settled reference)
      (hbuilt : resolver.Activated reference built) :
      Tried Searches r capability id
        (built.bind (check reference capability id), { r with resolver })

theorem yields_activate (hlawful : Lawful I Requests Searches) (r : Registry)
    (capability : Capability) (id : Uuid) : Yields I (r.activate capability id) (Tried Searches r capability id) := by
  rw [activate]
  cases hreference : r.typeReference id with
  | none => exact Yields.pure (.stray hreference)
  | some reference =>
      refine (hlawful.activates r.resolver reference).bind fun answer hanswer => ?_
      obtain ⟨hsearched, hsettled, hbuilt⟩ := hanswer
      exact Yields.pure (.run hreference hsearched hsettled hbuilt)

theorem check_eq_ok {reference : TypeReference} {capability : Capability} {id : Uuid}
    {component found : Component} (h : check reference capability id component = .ok found) :
    found = component ∧ component.id = id ∧ component.implements capability = true := by
  simp only [check] at h
  split at h
  · cases h
  · split at h
    · cases h
    · rename_i hid himplements
      exact ⟨(Except.ok.inj h).symm, by simpa using hid, by simpa using himplements⟩

theorem yields_fill (hlawful : Lawful I Requests Searches) {r : Registry} {capability : Capability}
    {id : Uuid} (hslot : r.slots.get? (capability, id) = some none ∨
      r.slots.get? (capability, id) = none ∧ r.references.contains id = true) :
    Yields I (r.fill capability id) (LookedUp Searches r capability id) := by
  have hpresent : r.present? capability id = none := by
    rcases hslot with hslot | ⟨hslot, -⟩ <;> simp [present?, hslot]
  refine (yields_activate hlawful (r.settled capability id none) capability id).bind ?_
  intro answer hanswer
  cases hanswer with
  | stray hreference =>
      have hopen : r.slots.get? (capability, id) = some none := by
        rcases hslot with hslot | ⟨-, hknown⟩
        · exact hslot
        · rw [contains_references, ← typeReference_settled r capability id id none,
            hreference] at hknown
          cases hknown
      refine (Host.yields_report hlawful.lasting _).bind fun _ _ => Yields.pure ?_
      exact .stray hopen hreference
  | @run reference resolver _ hreference hsearched hsettled hbuilt =>
      cases hbuilt with
      | failed hsource hother =>
          refine (Host.yields_report hlawful.lasting _).bind fun _ _ => Yields.pure ?_
          refine .failed hpresent hreference hsearched hsettled fun loaded factory hfound => ?_
          rw [hsource] at hfound
          cases hfound
      | @built loaded factory hsource serial =>
          cases hcheck : check reference capability id
            ((factory.construct serial).inModule loaded.identity.text) with
          | ok component =>
              obtain ⟨rfl, -, -⟩ := check_eq_ok hcheck
              simp only [Except.bind, hcheck]
              exact Yields.pure
                (.built hpresent hreference hsearched hsettled hsource rfl hcheck)
          | error failure =>
              simp only [Except.bind, hcheck]
              refine (Host.yields_report hlawful.lasting _).bind fun _ _ => Yields.pure ?_
              refine .failed hpresent hreference hsearched hsettled fun other found hfound => ?_
              rw [hsource] at hfound
              cases hfound
              exact ⟨serial, failure, hcheck⟩

theorem yields_lookUp (hlawful : Lawful I Requests Searches) (r : Registry)
    (capability : Capability) (id : Uuid) : Yields I (r.lookUp capability id) (LookedUp Searches r capability id) := by
  rw [lookUp]
  cases hslot : r.slots.get? (capability, id) with
  | some found =>
      cases found with
      | some component => exact Yields.pure (.present hslot)
      | none => exact yields_fill hlawful (.inl hslot)
  | none =>
      cases hreference : r.references.contains id with
      | true => exact yields_fill hlawful (.inr ⟨hslot, hreference⟩)
      | false =>
          exact Yields.pure (.unknown hslot (by simpa [contains_references] using hreference))

theorem LookedUp.steps {r : Registry} {capability : Capability} {id : Uuid}
    {answer : Option Component × Registry} (h : LookedUp Searches r capability id answer) :
    Steps Searches Allowed r answer.2 := by
  have hopens : r.present? capability id = none → r.typeReference id ≠ none →
      Steps Searches Allowed r (r.settled capability id none) := by
    intro hslot hreference
    refine .single (.opened ?_)
    rw [present?, Option.join_eq_none_iff] at hslot
    rcases hslot with hslot | hslot
    · exact .inr ⟨hslot, by simpa [contains_references, Option.isSome_iff_ne_none] using hreference⟩
    · exact .inl hslot
  cases h with
  | present hslot =>
      exact .single (.learned fun _ _ h => (mem_knownIds_remember ..).mpr (.inr h))
  | unknown hslot hreference => exact .refl
  | stray hslot hreference => exact .single (.opened (.inl hslot))
  | built hslot hreference hsearched hsettled hsource hbuilt hcheck =>
      refine (hopens hslot (by simp [hreference])).trans ?_
      refine .trans (.single (.searched hsearched)) (.single ?_)
      refine .filled hreference hsettled hsource hbuilt hcheck ?_
      exact Table.get?_put_self ..
  | failed hslot hreference hsearched hsettled hsource =>
      exact (hopens hslot (by simp [hreference])).trans (.single (.searched hsearched))

end Registry

end PluginHost
