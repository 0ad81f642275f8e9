import PluginHost.Proofs.Registry.Run
import PluginHost.Registry.Seeding

/-!
A new registry comes from an empty one by the same steps as any later one: built-in components are
registered, and what a settings file says is learned and adopted.
-/

namespace PluginHost

namespace Registry

open HostM

variable {Allowed : Change → Prop}

theorem mem_knownIds_remembered (r : Registry) (capability other : Capability)
    (ids : SortedSet Uuid) (i : Uuid) :
    i ∈ (r.remembered capability ids).knownIds other ↔
      other = capability ∧ i ∈ SortedSet.toList ids ∨ i ∈ r.knownIds other := by
  simp only [knownIds, remembered, SortedMap.get?_insert]
  split
  · rename_i heq
    subst heq
    cases r.known.get? other <;> simp [SortedSet.mem_foldl_add]
  · rename_i hne
    simp [hne]

theorem steps_addLocations (locations : List String) (r : Registry) :
    Steps Resolver.Later Allowed r (locations.foldl addLocation r) := by
  induction locations generalizing r with
  | nil => exact .refl
  | cons location rest ih => exact (steps_addLocation lawful_later r location).trans (ih _)

theorem steps_remembered (entries : List (Capability × SortedSet Uuid)) (r : Registry) :
    Steps Resolver.Later Allowed r
      (entries.foldl (fun r entry => r.remembered entry.1 entry.2) r) := by
  induction entries generalizing r with
  | nil => exact .refl
  | cons entry rest ih =>
      refine .head (.learned fun capability id hid => ?_) (ih _)
      exact (mem_knownIds_remembered r entry.1 capability entry.2 id).mpr (.inr hid)

theorem yields_adoptReferences (hallowed : ∀ id, Allowed (.adopted id))
    (entries : List (Uuid × String)) (r : Registry) :
    Yields (fun _ => True) (r.adoptReferences entries) (Steps Resolver.Later Allowed r) := by
  induction entries generalizing r with
  | nil => exact Yields.pure .refl
  | cons entry rest ih =>
      obtain ⟨id, text⟩ := entry
      cases hparse : TypeReference.parse text with
      | error failure =>
          simp only [adoptReferences, hparse]
          exact (Host.yields_report lawful_later.lasting _).bind fun _ _ => ih r
      | ok reference =>
          simp only [adoptReferences, hparse]
          split
          · exact ih r
          · rename_i hnew
            refine (ih _).mono fun _ => .head (.adopted ?_ (hallowed id))
            simpa using hnew

theorem yields_adopt (hallowed : ∀ id, Allowed (.adopted id)) (r : Registry)
    (index : ComponentIndex) :
    Yields (fun _ => True) (r.adopt index) (Steps Resolver.Later Allowed r) := by
  refine (yields_adoptReferences hallowed index.typeReferences.entries _).mono fun _ => ?_
  exact ((steps_addLocations _ r).trans (steps_remembered _ _)).trans

theorem yields_seeded (hadopted : ∀ id, Allowed (.adopted id))
    {builtIn : List (Capability × Component)}
    (hregistered : ∀ pair ∈ accepted builtIn, Allowed (.ofPair pair)) (resolver : Resolver)
    (store : SettingsStore) :
    Yields (fun _ => True) (seeded builtIn resolver store) fun answer => ∀ r, answer = .ok r →
      Steps Resolver.Later Allowed (new resolver store) r := by
  have hadded : Steps Resolver.Later Allowed (new resolver store)
      ((new resolver store).addAll builtIn).2 := steps_addAll hregistered
  rw [seeded]
  generalize (new resolver store).addAll builtIn = answer at hadded
  obtain ⟨added, r⟩ := answer
  cases added with
  | error failure => exact Yields.pure fun _ h => by cases h
  | ok done =>
      refine (Yields.everywhere (P := fun _ => True) fun _ => trivial).bind fun loaded _ => ?_
      cases loaded with
      | error failure => exact Yields.pure fun _ h => by cases h
      | ok saved =>
          cases saved with
          | none => exact Yields.pure fun _ h => Except.ok.inj h ▸ hadded
          | some index =>
              refine (yields_adopt hadopted r index).bind fun adopted hsteps => Yields.pure ?_
              exact fun _ h => Except.ok.inj h ▸ hadded.trans hsteps

end Registry

end PluginHost
