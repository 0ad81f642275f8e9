import PluginHost.Proofs.Registry.Reopening

/-!
What a registry holds, to the last identifier, after components have been registered one by one and
after a saved index has been taken over.
-/

namespace PluginHost

namespace Resolver

/-- Locations that are new, and each of them once, are appended in their order. -/
theorem foldl_addLocation_of_nodup {more : List String} {r : Resolver}
    (h : (r.locations ++ more).Nodup) :
    more.foldl addLocation r = { r with locations := r.locations ++ more } := by
  induction more generalizing r with
  | nil => simp
  | cons first rest ih =>
      have hnew : first ∉ r.locations := by
        intro hin
        exact (List.nodup_append.mp h).2.2 first hin first List.mem_cons_self rfl
      have hadded : r.addLocation first = { r with locations := r.locations ++ [first] } := by
        rw [addLocation, if_neg hnew]
      rw [List.foldl_cons, hadded, ih (by simpa using h)]
      simp

end Resolver

namespace Registry

open HostM

variable {r r' r'' : Registry} {pairs more : List (Capability × Component)}

theorem pairwise_knownIds (r : Registry) (capability : Capability) :
    (r.knownIds capability).Pairwise fun a b => compare a b = .lt := by
  unfold knownIds
  cases r.known.get? capability with
  | none => exact .nil
  | some ids => exact SortedSet.pairwise_toList ids

/-! Registering. -/

/-- The components have been registered in turn: what they share is as the last of them has it. -/
structure Enlisted (pairs : List (Capability × Component)) (r r' : Registry) : Prop where
  known : ∀ capability id, id ∈ r'.knownIds capability ↔
    id ∈ r.knownIds capability ∨ id ∈ idsUnder capability pairs
  reference : ∀ id, r'.typeReference id =
    ((lastWith id pairs).map Component.typeReference).or (r.typeReference id)

theorem Enlisted.refl (r : Registry) : Enlisted [] r r :=
  ⟨by simp [idsUnder], fun _ => rfl⟩

theorem Enlisted.trans (h : Enlisted pairs r r') (hmore : Enlisted more r' r'') :
    Enlisted (pairs ++ more) r r'' where
  known capability id := by
    rw [hmore.known, h.known, idsUnder_append, List.mem_append, or_assoc]
  reference id := by
    rw [hmore.reference, h.reference, lastWith_append]
    cases lastWith id more <;> rfl

theorem enlisted_registered (r : Registry) (capability : Capability) (component : Component) :
    Enlisted [(capability, component)] r (r.registered capability component) where
  known other id := by
    have hids : id ∈ idsUnder other [(capability, component)] ↔
        other = capability ∧ id = component.id := by
      simp [mem_idsUnder, eq_comm]
    rw [hids, or_comm]
    exact mem_knownIds_remember ..
  reference id := by
    refine (typeReference_insert r component.id id component.typeReference).trans ?_
    rw [lastWith_cons]
    by_cases hid : id = component.id
    · simp [hid]
    · simp [hid, Ne.symm hid]

theorem enlisted_addAll {pairs : List (Capability × Component)} {r r' : Registry}
    (h : r.addAll pairs = (.ok (), r')) : Enlisted pairs r r' ∧ r'.resolver = r.resolver := by
  induction pairs generalizing r with
  | nil =>
      cases h
      exact ⟨.refl _, rfl⟩
  | cons pair rest ih =>
      obtain ⟨-, hrest⟩ := addAll_cons_eq_ok.mp h
      obtain ⟨henlisted, hresolver⟩ := ih hrest
      exact ⟨(enlisted_registered r pair.1 pair.2).trans henlisted, hresolver⟩

theorem present?_registered (r : Registry) (capability other : Capability) (component : Component)
    (id : Uuid) : (r.registered capability component).present? other id =
      if (other, id) = (capability, component.id) then some component else r.present? other id :=
  present?_settled r capability other component.id id (some component)

/-- Of the components that share an identifier under a capability the last one is present. -/
theorem present?_addAll (h : r.addAll pairs = (.ok (), r')) (capability : Capability) (id : Uuid) :
    r'.present? capability id =
      (lastUnder capability id pairs).or (r.present? capability id) := by
  induction pairs generalizing r with
  | nil =>
      cases h
      rfl
  | cons pair rest ih =>
      obtain ⟨-, hrest⟩ := addAll_cons_eq_ok.mp h
      rw [ih hrest, lastUnder_cons, present?_registered]
      by_cases hsame : (capability, id) = (pair.1, pair.2.id)
      · cases lastUnder capability id rest <;> simp [hsame]
      · cases lastUnder capability id rest <;> simp [hsame]

theorem addAll_append (h : r.addAll pairs = (.ok (), r')) :
    r.addAll (pairs ++ more) = r'.addAll more := by
  induction pairs generalizing r with
  | nil =>
      cases h
      rfl
  | cons pair rest ih =>
      obtain ⟨himplements, hrest⟩ := addAll_cons_eq_ok.mp h
      exact (addAll_cons himplements r (rest ++ more)).trans (ih hrest)

/-- Registering does not look at the resolver. -/
theorem addAll_withResolver (h : r.addAll pairs = (.ok (), r')) (resolver : Resolver) :
    ({ r with resolver } : Registry).addAll pairs = (.ok (), { r' with resolver }) := by
  induction pairs generalizing r with
  | nil =>
      cases h
      rfl
  | cons pair rest ih =>
      obtain ⟨himplements, hrest⟩ := addAll_cons_eq_ok.mp h
      exact addAll_cons_eq_ok.mpr ⟨himplements, ih hrest⟩

/-- All locations that contribute might as well have been registered first. -/
theorem addAll_of_addResults {results : List ScanResult}
    (h : r.addResults results = (.ok (), r')) :
    ({ r with resolver := (contributing results).foldl Resolver.addLocation r.resolver } :
      Registry).addAll (pairsOf results) = (.ok (), r') := by
  induction results generalizing r with
  | nil =>
      cases h
      rfl
  | cons result rest ih =>
      unfold addResults at h
      split at h
      · rename_i next hfirst
        obtain ⟨base, hbase, hresolver⟩ : ∃ base : Registry,
            base.addAll result.components = (.ok (), next) ∧
              ({ base with resolver :=
                  (contributing rest).foldl Resolver.addLocation base.resolver } : Registry) =
                { r with resolver :=
                  (contributing (result :: rest)).foldl Resolver.addLocation r.resolver } := by
          refine ⟨_, hfirst, ?_⟩
          cases hhas : result.hasComponents <;> simp [contributing, hhas, addLocation]
        rw [pairsOf_cons, ← hresolver, addAll_append (addAll_withResolver hbase _),
          ← (enlisted_addAll hbase).2]
        exact ih h
      · cases h

theorem exists_addResults {results : List ScanResult}
    (h : ∀ pair ∈ pairsOf results, pair.2.implements pair.1 = true) (r : Registry) :
    ∃ r', r.addResults results = (.ok (), r') := by
  induction results generalizing r with
  | nil => exact ⟨r, rfl⟩
  | cons result rest ih =>
      rw [pairsOf_cons, List.forall_mem_append] at h
      obtain ⟨next, hfirst⟩ :=
        exists_addAll h.1 (if result.hasComponents then r.addLocation result.mountUri else r)
      obtain ⟨r', hrest⟩ := ih h.2 next
      refine ⟨r', ?_⟩
      rw [addResults, addResult, hfirst]
      exact hrest

theorem addResults_append {results others : List ScanResult}
    (h : r.addResults results = (.ok (), r')) :
    r.addResults (results ++ others) = r'.addResults others := by
  induction results generalizing r with
  | nil =>
      cases h
      rfl
  | cons result rest ih =>
      unfold addResults at h
      split at h
      · rename_i next hfirst
        rw [List.cons_append, addResults, hfirst]
        exact ih h
      · cases h

theorem enlisted_addResults {results : List ScanResult} (h : r.addResults results = (.ok (), r')) :
    Enlisted (pairsOf results) r r' := by
  obtain ⟨henlisted, -⟩ := enlisted_addAll (addAll_of_addResults h)
  exact ⟨henlisted.known, henlisted.reference⟩

/-! Taking over an index. -/

/-- What a registry answers that was made with some components and has taken over an index: where
both have something to say, the components come first. -/
structure Extends (pairs : List (Capability × Component)) (index : ComponentIndex)
    (resolver : Resolver) (r : Registry) : Prop where
  present : ∀ capability id, r.present? capability id = lastUnder capability id pairs
  reference : ∀ id, r.typeReference id =
    ((lastWith id pairs).map Component.typeReference).or (index.reference? id)
  known : ∀ capability id, id ∈ r.knownIds capability ↔
    id ∈ idsUnder capability pairs ∨ index.Lists capability id
  resolver : r.resolver = (SortedSet.toList index.locations).foldl Resolver.addLocation resolver

theorem extends_adopt {resolver : Resolver} {store : SettingsStore}
    (hadded : (new resolver store).addAll pairs = (.ok (), r)) (index : ComponentIndex) (h : Host) :
    Extends pairs index resolver ((r.adopt index).result h) := by
  obtain ⟨henlisted, hresolver⟩ := enlisted_addAll hadded
  obtain ⟨known, hinformed⟩ := r.informed_eq index
  obtain ⟨references, hadopt, hreferences⟩ :=
    result_adoptReferences index.typeReferences.entries (r.informed index) h
  have hadopt : (r.adopt index).result h = { r.informed index with references } := hadopt
  rw [hadopt]
  refine ⟨fun capability id => ?_, fun id => ?_, fun capability id => ?_, ?_⟩
  · rw [hinformed]
    refine (present?_addAll hadded capability id).trans ?_
    exact Option.or_none
  · refine (hreferences id).trans ?_
    rw [hinformed, savedReference?_entries]
    refine congrArg (Option.or · _) ((henlisted.reference id).trans ?_)
    exact Option.or_none
  · refine mem_knownIds_informed.trans (or_congr_left ?_)
    rw [henlisted.known]
    exact or_iff_right (by simp [knownIds, new])
  · rw [hinformed]
    exact congrArg (fun r => (SortedSet.toList index.locations).foldl Resolver.addLocation r)
      hresolver

theorem Extends.locations {index : ComponentIndex} {resolver : Resolver}
    (hextends : Extends pairs index resolver r) (hnew : resolver.locations = []) :
    r.resolver.locations = SortedSet.toList index.locations := by
  rw [hextends.resolver, Resolver.foldl_addLocation_of_nodup, hnew, List.nil_append]
  rw [hnew]
  exact SortedSet.nodup_toList index.locations

theorem Extends.reference_of_saved {index : ComponentIndex} {resolver : Resolver} {id : Uuid}
    {text : String} {reference : TypeReference} (hextends : Extends pairs index resolver r)
    (hapart : ∀ pair ∈ pairs, pair.2.id ≠ id) (hsaved : index.typeReferences.get? id = some text)
    (hparse : TypeReference.parse text = .ok reference) : r.typeReference id = some reference := by
  rw [hextends.reference, lastWith_eq_none hapart, ComponentIndex.reference?, hsaved,
    Option.bind_some, hparse]
  rfl

theorem extends_seeded {resolver : Resolver} {store : SettingsStore} {h : Host}
    {index : ComponentIndex} (hadded : ((new resolver store).addAll pairs).1 = .ok ())
    (hload : store.load.result h = .ok (some index)) :
    ∃ r, (seeded pairs resolver store).result h = .ok r ∧ Extends pairs index resolver r := by
  have hseeded := result_seeded hadded hload
  generalize hadd : (new resolver store).addAll pairs = answer at hadded hseeded
  obtain ⟨added, r⟩ := answer
  cases hadded
  exact ⟨_, hseeded, extends_adopt hadd index _⟩

/-- What a new registry holds when all of these components are built in and the index is found. -/
theorem enlisted_seeded {resolver : Resolver} {store : SettingsStore} {h : Host}
    {index : ComponentIndex} (hnew : resolver.locations = [])
    (hadded : ((new resolver store).addAll pairs).1 = .ok ())
    (hload : store.load.result h = .ok (some index)) :
    ∃ r, (seeded pairs resolver store).result h = .ok r ∧
      (∀ capability id, id ∈ r.knownIds capability ↔
        id ∈ idsUnder capability pairs ∨ index.Lists capability id) ∧
      (∀ capability id, r.isPresent capability id = true ↔ id ∈ idsUnder capability pairs) ∧
      r.resolver.locations = SortedSet.toList index.locations ∧
      ∀ id text reference, (∀ pair ∈ pairs, pair.2.id ≠ id) →
        index.typeReferences.get? id = some text → TypeReference.parse text = .ok reference →
          r.typeReference id = some reference := by
  obtain ⟨r, hseeded, hextends⟩ := extends_seeded hadded hload
  refine ⟨r, hseeded, hextends.known, fun capability id => ?_, hextends.locations hnew, ?_⟩
  · rw [isPresent, hextends.present, isSome_lastUnder]
  · intro id text reference hapart hsaved hparse
    exact hextends.reference_of_saved hapart hsaved hparse

/-- A new registry is ready for every component of the saved index that is not built in, and none of
these is present in it. -/
theorem ready_seeded {catalog : Catalog} {suffix : String} {policy : CulturePolicy}
    {locations : List String} {m : LoadedModule} {f : Factory} {id : Uuid} {store : SettingsStore}
    {h : Host} {index : ComponentIndex} {text : String}
    (hadded : ((new (.new suffix policy catalog) store).addAll pairs).1 = .ok ())
    (hload : store.load.result h = .ok (some index)) (hapart : ∀ pair ∈ pairs, pair.2.id ≠ id)
    (hlocations : ∀ location,
      location ∈ SortedSet.toList index.locations ↔ location ∈ locations)
    (hsaved : index.typeReferences.get? id = some text)
    (hparse : TypeReference.parse text = .ok ⟨f.typeName, some m.identity.text⟩) :
    ∃ r, (seeded pairs (.new suffix policy catalog) store).result h = .ok r ∧
      Ready catalog suffix locations m f id r ∧
      (∀ capability, r.present? capability id = none) ∧
      ∀ capability, index.Lists capability id → id ∈ r.knownIds capability := by
  obtain ⟨r, hseeded, hextends⟩ := extends_seeded hadded hload
  have habsent : ∀ capability, r.present? capability id = none := by
    intro capability
    rw [hextends.present, ← Option.not_isSome_iff_eq_none, isSome_lastUnder, mem_idsUnder]
    rintro ⟨pair, hpair, -, hid⟩
    exact hapart pair hpair hid
  refine ⟨r, hseeded, ⟨?_, hextends.reference_of_saved hapart hsaved hparse, ?_⟩, habsent,
    fun capability hlists => (hextends.known capability id).mpr (.inr hlists)⟩
  · obtain ⟨added, hfold, hmem⟩ := Resolver.foldl_addLocation
      (SortedSet.toList index.locations) (.new suffix policy catalog)
    rw [hextends.resolver, hfold]
    refine ⟨rfl, rfl, ⟨added, List.prefix_rfl, fun location => ?_⟩, fun outcome houtcome => ?_⟩
    · rw [hmem, ← hlocations]
      exact or_iff_left (by simp [Resolver.new])
    · cases houtcome
  · intro capability found hfound
    rw [habsent] at hfound
    cases hfound

end Registry

end PluginHost
