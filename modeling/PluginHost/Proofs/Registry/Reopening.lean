import PluginHost.Proofs.Registry.Restoring
import PluginHost.Proofs.Registry.Seeding

/-!
What a new registry takes over from a saved index: the locations, the identifiers, and the type
references of what is not built in.
-/

namespace PluginHost

namespace Resolver

theorem addLocation_eq (r : Resolver) (location : String) :
    ∃ locations, r.addLocation location = { r with locations } ∧
      ∀ other, other ∈ locations ↔ other = location ∨ other ∈ r.locations := by
  unfold addLocation
  split
  · rename_i hin
    refine ⟨r.locations, rfl, fun other => ⟨.inr, ?_⟩⟩
    rintro (rfl | h)
    · exact hin
    · exact h
  · exact ⟨r.locations ++ [location], rfl, by simp [or_comm]⟩

theorem foldl_addLocation (more : List String) (r : Resolver) :
    ∃ locations, more.foldl addLocation r = { r with locations } ∧
      ∀ location, location ∈ locations ↔ location ∈ more ∨ location ∈ r.locations := by
  induction more generalizing r with
  | nil => exact ⟨r.locations, rfl, by simp⟩
  | cons first rest ih =>
      obtain ⟨added, hadded, hfirst⟩ := r.addLocation_eq first
      obtain ⟨locations, hfold, hmem⟩ := ih { r with locations := added }
      refine ⟨locations, by rw [List.foldl_cons, hadded, hfold], fun location => ?_⟩
      rw [hmem, hfirst, List.mem_cons, or_left_comm, or_assoc]

end Resolver

/-- What the index refers to for an identifier, if this can be read. -/
def ComponentIndex.reference? (index : ComponentIndex) (id : Uuid) : Option TypeReference :=
  (index.typeReferences.get? id).bind fun text => (TypeReference.parse text).toOption

namespace Registry

open HostM

variable {id : Uuid}

theorem foldl_addLocation (locations : List String) (r : Registry) :
    locations.foldl addLocation r =
      { r with resolver := locations.foldl Resolver.addLocation r.resolver } := by
  induction locations generalizing r with
  | nil => rfl
  | cons first rest ih => exact ih _

/-! Identifiers. -/

theorem foldl_remembered (entries : List (Capability × SortedSet Uuid)) (r : Registry) :
    ∃ known, entries.foldl (fun r entry => r.remembered entry.1 entry.2) r = { r with known } := by
  induction entries generalizing r with
  | nil => exact ⟨r.known, rfl⟩
  | cons entry rest ih => exact ih (r.remembered entry.1 entry.2)

theorem mem_knownIds_foldl_remembered {entries : List (Capability × SortedSet Uuid)}
    {capability : Capability} {r : Registry} :
    id ∈ (entries.foldl (fun r entry => r.remembered entry.1 entry.2) r).knownIds capability ↔
      id ∈ r.knownIds capability ∨
        ∃ ids, (capability, ids) ∈ entries ∧ id ∈ SortedSet.toList ids := by
  induction entries generalizing r with
  | nil => simp
  | cons entry rest ih =>
      obtain ⟨under, first⟩ := entry
      rw [List.foldl_cons, ih, mem_knownIds_remembered]
      simp only [List.mem_cons, Prod.mk.injEq, or_and_right, exists_or, and_assoc,
        exists_eq_left, exists_and_left, or_assoc]
      exact or_left_comm

/-! Type references. -/

/-- What saved type references say of an identifier, the first one that can be read. -/
def savedReference? (entries : List (Uuid × String)) (id : Uuid) : Option TypeReference :=
  entries.findSome? fun entry =>
    if entry.1 = id then (TypeReference.parse entry.2).toOption else none

theorem savedReference?_entries (index : ComponentIndex) (id : Uuid) :
    savedReference? index.typeReferences.entries id = index.reference? id :=
  SortedMap.findSome?_entries index.typeReferences id fun text =>
    (TypeReference.parse text).toOption

/-- The reports of saved type references that cannot be read. -/
def ignored (entries : List (Uuid × String)) : List String :=
  entries.filterMap fun entry =>
    match TypeReference.parse entry.2 with
    | .ok _ => none
    | .error failure => some (ignoredReport entry.1 failure)

/-- Only type references are new, and those that have been there come first. -/
theorem result_adoptReferences (entries : List (Uuid × String)) (r : Registry) (h : Host) :
    ∃ references, (r.adoptReferences entries).result h = { r with references } ∧
      ∀ id, references.get? id = (r.typeReference id).or (savedReference? entries id) := by
  induction entries generalizing r h with
  | nil => exact ⟨r.references, rfl, fun id => (Option.or_none).symm⟩
  | cons entry rest ih =>
      obtain ⟨other, text⟩ := entry
      cases hparse : TypeReference.parse text with
      | error failure =>
          simp only [adoptReferences, hparse, result_bind, savedReference?, List.findSome?_cons,
            Except.toOption, ite_self]
          exact ih r _
      | ok reference =>
          simp only [adoptReferences, hparse, savedReference?, List.findSome?_cons,
            Except.toOption]
          split
          · rename_i hcontains
            obtain ⟨references, hresult, hreferences⟩ := ih r h
            refine ⟨references, hresult, fun id => ?_⟩
            rw [hreferences]
            by_cases hother : other = id
            · obtain ⟨known, hknown⟩ := Option.isSome_iff_exists.mp hcontains
              have hknown : r.typeReference id = some known := hother ▸ hknown
              rw [hknown, Option.some_or, Option.some_or]
            · rw [if_neg hother]
              rfl
          · rename_i hnew
            obtain ⟨references, hresult, hreferences⟩ :=
              ih { r with references := r.references.insert other reference } h
            refine ⟨references, hresult, fun id => ?_⟩
            rw [hreferences, typeReference_insert]
            by_cases hother : other = id
            · have hnone : r.typeReference id = none := by
                rwa [hother, contains_references, Option.not_isSome_iff_eq_none] at hnew
              rw [if_pos hother.symm, if_pos hother, hnone, Option.some_or, Option.none_or]
            · rw [if_neg fun heq => hother heq.symm, if_neg hother]
              rfl

theorem after_adoptReferences (entries : List (Uuid × String)) (r : Registry) (h : Host) :
    (r.adoptReferences entries).after h =
      { h with trace := h.trace ++ (ignored entries).map .reported } := by
  induction entries generalizing r h with
  | nil => simp [adoptReferences, ignored]
  | cons entry rest ih =>
      obtain ⟨other, text⟩ := entry
      cases hparse : TypeReference.parse text with
      | error failure =>
          simp only [adoptReferences, hparse, after_bind, ih, ignored, List.filterMap_cons]
          simp [Host.report, Host.note]
      | ok reference =>
          simp only [adoptReferences, hparse, ignored, List.filterMap_cons]
          split <;> exact ih _ h

/-! The index as a whole. -/

def informed (r : Registry) (index : ComponentIndex) : Registry :=
  index.capabilities.entries.foldl (fun r entry => r.remembered entry.1 entry.2)
    ((SortedSet.toList index.locations).foldl addLocation r)

theorem informed_eq (r : Registry) (index : ComponentIndex) :
    ∃ known, r.informed index = { r with
      resolver := (SortedSet.toList index.locations).foldl Resolver.addLocation r.resolver
      known } := by
  unfold informed
  rw [foldl_addLocation]
  exact foldl_remembered _ _

theorem mem_knownIds_informed {r : Registry} {index : ComponentIndex} {capability : Capability} :
    id ∈ (r.informed index).knownIds capability ↔
      id ∈ r.knownIds capability ∨ index.Lists capability id := by
  unfold informed
  rw [foldl_addLocation, mem_knownIds_foldl_remembered]
  simp only [ComponentIndex.Lists, SortedMap.get?_eq_some_iff]
  rfl

theorem result_seeded {builtIn : List (Capability × Component)} {resolver : Resolver}
    {store : SettingsStore} {h : Host} {index : ComponentIndex}
    (hadded : ((new resolver store).addAll builtIn).1 = .ok ())
    (hload : store.load.result h = .ok (some index)) :
    (seeded builtIn resolver store).result h =
      .ok ((((new resolver store).addAll builtIn).2.adopt index).result (store.load.after h)) := by
  rw [seeded]
  generalize (new resolver store).addAll builtIn = answer at hadded
  obtain ⟨added, r⟩ := answer
  subst hadded
  simp only [result_bind, hload, result_pure]

end Registry

end PluginHost
