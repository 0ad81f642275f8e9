import PluginHost.Proofs.Engine.Restart
import PluginHost.Proofs.Registry.Transparency

/-!
A scan registers nothing. It looks up generators that are known, and so may build some of these and
resolve modules for them, but it adds no identifier, type reference or location, and writes nothing.
Whether a location can be scanned does not depend on what was scanned before it.
-/

namespace PluginHost

open HostM

namespace Registry

/-- `r'` is what is left of `r` when nothing but generators that are known has been looked up. -/
structure Undisturbed (r r' : Registry) : Prop where
  known : ∀ capability, r'.knownIds capability = r.knownIds capability
  references : ∀ id, r'.typeReference id = r.typeReference id
  locations : r'.resolver.locations = r.resolver.locations
  store : r'.store = r.store
  resolver : r.resolver.Later r'.resolver
  kept : ∀ capability id component, r.present? capability id = some component →
    r'.present? capability id = some component
  others : ∀ capability, capability ≠ Capability.generator →
    ∀ id, r'.slots.get? (capability, id) = r.slots.get? (capability, id)
  built : ∀ id, r'.present? Capability.generator id ≠ r.present? Capability.generator id →
    id ∈ r.knownIds Capability.generator

variable {I : Host → Prop} {r r' r'' : Registry} {capability : Capability} {id : Uuid}

theorem Undisturbed.refl (r : Registry) : r.Undisturbed r where
  known _ := rfl
  references _ := rfl
  locations := rfl
  store := rfl
  resolver := .refl _
  kept _ _ _ := id
  others _ _ _ := rfl
  built _ h := absurd rfl h

theorem Undisturbed.trans (h : r.Undisturbed r') (h' : r'.Undisturbed r'') :
    r.Undisturbed r'' where
  known capability := (h'.known capability).trans (h.known capability)
  references id := (h'.references id).trans (h.references id)
  locations := h'.locations.trans h.locations
  store := h'.store.trans h.store
  resolver := h.resolver.trans h'.resolver
  kept capability id component := h'.kept capability id component ∘ h.kept capability id component
  others capability hother id := (h'.others capability hother id).trans (h.others capability hother id)
  built id hbuilt := by
    by_cases hlater : r''.present? Capability.generator id = r'.present? Capability.generator id
    · exact h.built id (hlater ▸ hbuilt)
    · rw [← h.known]
      exact h'.built id hlater

/-- A look-up of what is known changes its slot, if nothing is present there, and the resolver. -/
theorem LookedUp.within {Searches : Resolver → Resolver → Prop} {answer : Option Component × Registry}
    (h : LookedUp Searches r capability id answer) (hknown : id ∈ r.knownIds capability) :
    answer.2 = r ∨ ∃ slots resolver, answer.2 = { r with slots, resolver } ∧
      r.present? capability id = none ∧
      ∀ key, key ≠ (capability, id) → slots.get? key = r.slots.get? key := by
  cases h with
  | present hslot => exact .inl (remember_eq_self hknown)
  | unknown => exact .inl rfl
  | stray hslot =>
      refine .inr ⟨_, r.resolver, rfl, by simp [present?, hslot], fun key hkey => ?_⟩
      exact Table.get?_put_of_ne _ hkey _
  | @built _ resolver _ _ _ component hslot =>
      refine .inr ⟨_, resolver, remember_eq_self hknown, hslot, fun key hkey => ?_⟩
      exact (Table.get?_put_of_ne _ hkey _).trans (Table.get?_put_of_ne _ hkey _)
  | @failed _ resolver hslot =>
      refine .inr ⟨_, resolver, rfl, hslot, fun key hkey => ?_⟩
      exact Table.get?_put_of_ne _ hkey _

theorem LookedUp.undisturbed {answer : Option Component × Registry}
    (h : LookedUp Resolver.Later r Capability.generator id answer)
    (hknown : id ∈ r.knownIds Capability.generator)
    (hlocations : answer.2.resolver.locations = r.resolver.locations) :
    r.Undisturbed answer.2 := by
  have hsteps : Steps Resolver.Later (fun _ => True) r answer.2 := h.steps
  have hlater := hsteps.later
  rcases h.within hknown with heq | ⟨slots, resolver, heq, habsent, hslots⟩
  · rw [heq]
    exact .refl r
  rw [heq] at hlocations hlater ⊢
  have hpresent : ∀ other i, (other, i) ≠ (Capability.generator, id) →
      ({ r with slots, resolver } : Registry).present? other i = r.present? other i := by
    intro other i hne
    rw [present?, present?, hslots _ hne]
  constructor
  · exact fun _ => rfl
  · exact fun _ => rfl
  · exact hlocations
  · rfl
  · exact hlater
  · intro other i component hcomponent
    rw [hpresent other i, hcomponent]
    rintro heq
    cases heq
    cases habsent.symm.trans hcomponent
  · intro other hother i
    exact hslots _ fun heq => hother (Prod.mk.inj heq).1
  · intro i hchanged
    by_cases hsame : (Capability.generator, i) = (Capability.generator, id)
    · cases hsame
      exact hknown
    · exact absurd (hpresent _ _ hsame) hchanged

theorem outlasts_undisturbed (hI : Host.Lasting I) (r : Registry) :
    Outlasts I Capability.generator r.Undisturbed := by
  intro known next hknown hnext id hid
  rw [hknown.known, ← hnext.known] at hid
  have hresolves : ∀ resolver : Resolver, resolver.locations = next.resolver.locations →
      ∀ identity : Identity, identity.Readable → Yields I (resolver.resolve identity) fun answer =>
        answer.2.locations = next.resolver.locations :=
    fun _ hsame identity _ => Resolver.yields_resolve_keeping
      (P := fun resolver => resolver.locations = next.resolver.locations) hI
      (fun _ _ _ hkept => hkept) hsame identity
  have hlocations := yields_lookUp_searched hI hresolves rfl Capability.generator id
  have hlookedUp := yields_lookUp (lawful_lasting hI) next Capability.generator id
  refine hlookedUp.answering fun h hh => hnext.trans ?_
  exact (hlookedUp h hh).1.undisturbed hid (hlocations h hh).1

end Registry

namespace Scanning

/-- Why a location cannot be scanned. -/
def refusal? (h : Host) (location : String) : Option Failure :=
  if Text.allBlank location then some (.invalidSource location blankReason)
  else
    match h.mount? location with
    | none => some (.invalidSource location absentReason)
    | some _ => none

theorem refusal?_of_reading {h h' : Host} (hreading : h.Reading h') (location : String) :
    refusal? h' location = refusal? h location := by
  have hmount : h'.mount? location = h.mount? location := by
    simp only [Host.mount?, hreading.tree, hreading.aliases]
  simp only [refusal?, hmount]

/-- A scan fails if its location is refused, and only then. -/
theorem result_scan_eq_error_iff {catalog : Catalog} {suffix location : String} {r : Registry}
    {h : Host} {failure : Failure} :
    ((scan catalog suffix location r).result h).1 = .error failure ↔
      refusal? h location = some failure := by
  unfold scan refusal?
  split
  · simp
  · simp only [result_bind, result_get, after_get]
    cases h.mount? location with
    | none => simp
    | some mount => simp

theorem exists_result_scan {catalog : Catalog} {suffix location : String} {r : Registry} {h : Host}
    (hnone : refusal? h location = none) :
    ∃ result, ((scan catalog suffix location r).result h).1 = .ok result := by
  cases hscan : ((scan catalog suffix location r).result h).1 with
  | ok result => exact ⟨result, rfl⟩
  | error failure =>
      rw [result_scan_eq_error_iff, hnone] at hscan
      cases hscan

/-- Some scans in turn fail with the refusal of the first location that has one. -/
theorem yields_scanAll_refused (h : Host) (catalog : Catalog) (suffix : String)
    (locations : List String) (r : Registry) :
    Yields h.Reading (scanAll catalog suffix locations r) fun answer =>
      ∀ failure, answer.1 = .error failure ↔ locations.findSome? (refusal? h) = some failure := by
  induction locations generalizing r with
  | nil => exact Yields.pure (by simp)
  | cons location rest ih =>
      have hscan : Yields h.Reading (scan catalog suffix location r) fun answer =>
          ∀ failure, answer.1 = .error failure ↔ refusal? h location = some failure := by
        refine ((Registry.outlasts_undisturbed h.lasting_reading r).scan h.lasting_reading
          (.refl r) catalog suffix location).answering fun host hreading failure => ?_
        rw [result_scan_eq_error_iff, refusal?_of_reading hreading]
      refine hscan.bind fun answer hfirst => ?_
      obtain ⟨scanned, next⟩ := answer
      cases scanned with
      | error failure =>
          have hrefused : refusal? h location = some failure := (hfirst failure).mp rfl
          exact Yields.pure fun other => by simp [hrefused]
      | ok result =>
          have hnone : refusal? h location = none := by
            rw [Option.eq_none_iff_forall_ne_some]
            intro failure hrefused
            cases (hfirst failure).mpr hrefused
          refine (ih next).bind fun answer hmore => Yields.pure fun failure => ?_
          obtain ⟨found, last⟩ := answer
          rw [List.findSome?_cons, hnone, ← hmore]
          cases found <;> simp [Except.map]

end Scanning

namespace Environment

variable {e : Environment} {locations : List String} {h : Host} {failure : Failure}

/-- One scan of those that an update is made of. -/
def scan (e : Environment) (location : String) : HostM (Except Failure ScanResult × Registry) :=
  Scanning.scan e.registry.resolver.catalog e.config.discoverySuffix location e.registry

def scanAll (e : Environment) (locations : List String) :
    HostM (Except Failure (List ScanResult) × Registry) :=
  Scanning.scanAll e.registry.resolver.catalog e.config.discoverySuffix locations e.registry

theorem scanAndUpdate_of_error (hscan : ((e.scanAll locations).result h).1 = .error failure) :
    (e.scanAndUpdate locations).result h =
        (.error failure, e.withRegistry ((e.scanAll locations).result h).2) ∧
      (e.scanAndUpdate locations).after h = (e.scanAll locations).after h := by
  unfold scanAll at hscan ⊢
  simp only [scanAndUpdate, result_bind, after_bind]
  generalize (Scanning.scanAll e.registry.resolver.catalog e.config.discoverySuffix locations
    e.registry).after h = host at hscan ⊢
  generalize (Scanning.scanAll e.registry.resolver.catalog e.config.discoverySuffix locations
    e.registry).result h = answer at hscan ⊢
  obtain ⟨scanned, next⟩ := answer
  cases hscan
  exact ⟨rfl, rfl⟩

/-- A scan leaves the registry undisturbed and writes nothing. So does an update with locations some
of which cannot be scanned: it fails as the first of these does, whatever was found before. -/
theorem scan_undisturbed (e : Environment) (h : Host) :
    (∀ catalog suffix location,
      e.registry.Undisturbed ((Scanning.scan catalog suffix location e.registry).result h).2 ∧
        ((Scanning.scan catalog suffix location e.registry).after h).tree = h.tree) ∧
    ∀ locations, ∀ bad ∈ locations, ∀ failure, ((e.scan bad).result h).1 = .error failure →
      ∃ before first rest reason, locations = before ++ first :: rest ∧
        (∀ location ∈ before, ∃ result, ((e.scan location).result h).1 = .ok result) ∧
        ((e.scan first).result h).1 = .error reason ∧
        let answer := (e.scanAndUpdate locations).result h
        answer.1 = .error reason ∧ answer.2.config = e.config ∧
          e.registry.Undisturbed answer.2.registry ∧
          ((e.scanAndUpdate locations).after h).tree = h.tree := by
  have houtlasts := Registry.outlasts_undisturbed h.lasting_reading e.registry
  refine ⟨fun catalog suffix location => ?_, fun locations bad hbad failure hfails => ?_⟩
  · obtain ⟨hundisturbed, hreading⟩ := houtlasts.scan h.lasting_reading (.refl _) catalog suffix
      location h (.refl h)
    exact ⟨hundisturbed, hreading.tree⟩
  · obtain ⟨reason, hreason⟩ : ∃ reason, locations.findSome? (Scanning.refusal? h) = some reason := by
      rw [← Option.isSome_iff_exists, List.findSome?_isSome_iff]
      exact ⟨bad, hbad, by simp [Scanning.result_scan_eq_error_iff.mp hfails]⟩
    obtain ⟨before, first, rest, rfl, hfirst, hbefore⟩ := List.findSome?_eq_some_iff.mp hreason
    have hrefused := (Scanning.yields_scanAll_refused h e.registry.resolver.catalog
      e.config.discoverySuffix (before ++ first :: rest) e.registry h (.refl h)).1
    obtain ⟨hresult, hafter⟩ := scanAndUpdate_of_error ((hrefused reason).mpr hreason)
    obtain ⟨hundisturbed, hreading⟩ := houtlasts.scanAll h.lasting_reading (.refl _)
      e.registry.resolver.catalog e.config.discoverySuffix (before ++ first :: rest) h (.refl h)
    refine ⟨before, first, rest, reason, rfl, fun location hlocation => ?_, ?_, ?_⟩
    · exact Scanning.exists_result_scan (hbefore location hlocation)
    · exact Scanning.result_scan_eq_error_iff.mpr hfirst
    · rw [hresult, hafter]
      exact ⟨rfl, rfl, hundisturbed, hreading.tree⟩

/-- A pen is found in the pack, but nobody knows of it when the next source is not there. -/
theorem scan_undisturbed_desk :
    let pen : Blueprint := ⟨"Pen", .ofNat 1, ["draw"], none, none, [], ""⟩
    let config : EngineConfig := ⟨⟨"/desk"⟩, "components.json", ".module", ".module", 1, 0, .strict⟩
    let catalog : Catalog := ⟨[("ink", [pen.factory])]⟩
    let e : Environment := ⟨config, .new (resolverFor config catalog) (storeFor config)⟩
    let answer := (e.scanAndUpdate ["/pack", "/nowhere", "/pack"]).result desk
    (∃ result, ((e.scan "/pack").result desk).1 = .ok result ∧
        idsUnder "draw" result.components = [.ofNat 1]) ∧
      answer.1 = .error (.invalidSource "/nowhere" Scanning.absentReason) ∧
      e.registry.Undisturbed answer.2.registry := by
  intro pen config catalog e answer
  have hfound : ((e.scan "/pack").result desk).1.toOption.map
      (fun result => idsUnder "draw" result.components) = some [.ofNat 1] := by
    decide +kernel
  have hrefused : Scanning.refusal? desk "/nowhere" =
      some (.invalidSource "/nowhere" Scanning.absentReason) := by
    decide +kernel
  obtain ⟨before, first, rest, reason, hlocations, hbefore, hfirst, hanswer, -, hundisturbed, -⟩ :=
    (scan_undisturbed e desk).2 ["/pack", "/nowhere", "/pack"] "/nowhere" (by simp) _
      (Scanning.result_scan_eq_error_iff.mpr hrefused)
  obtain ⟨result, hresult, hids⟩ := map_toOption_eq_some.mp hfound
  refine ⟨⟨result, hresult, hids⟩, ?_, hundisturbed⟩
  have hone : first ∈ ["/pack", "/nowhere", "/pack"] := by
    rw [hlocations]
    simp
  simp only [List.mem_cons, List.not_mem_nil, or_false] at hone
  rcases hone with rfl | rfl | rfl
  · cases hresult.symm.trans hfirst
  · cases hrefused.symm.trans (Scanning.result_scan_eq_error_iff.mp hfirst)
    exact hanswer
  · cases hresult.symm.trans hfirst

end Environment

end PluginHost
