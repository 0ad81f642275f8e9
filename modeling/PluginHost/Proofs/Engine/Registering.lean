import PluginHost.Proofs.Engine.Scanning
import PluginHost.Proofs.Registry.Updating

/-!
Whatever scans find can be registered: a component is found under the capabilities that it
implements. What is left to go wrong is a location that cannot be scanned, or the settings file.
-/

namespace PluginHost

open HostM

namespace Scanning

theorem FoundIn.implements {catalog : Catalog} {tree : Storage.Tree} {path : Path}
    {pair : Capability × Component} (h : FoundIn catalog tree path pair) :
    pair.2.implements pair.1 = true := by
  obtain ⟨module, factory, serial, -, -, -, hcapability⟩ := h
  exact Component.implements_iff.mpr hcapability

theorem implements_of_scan {catalog : Catalog} {suffix location : String} {r : Registry} {h : Host}
    {result : ScanResult} (hscan : ((scan catalog suffix location r).result h).1 = .ok result) :
    ∀ pair ∈ result.components, pair.2.implements pair.1 = true := by
  intro pair hpair
  obtain ⟨path, hfound⟩ := (Registry.yields_scan_found (Registry.lawful_lasting h.lasting_reading)
    (fun _ hreading => hreading.tree) catalog suffix location r h (.refl h)).1 result hscan pair hpair
  exact hfound.implements

theorem implements_of_scanAll {catalog : Catalog} {suffix : String} {locations : List String}
    {r : Registry} {h : Host} {results : List ScanResult}
    (hscan : ((scanAll catalog suffix locations r).result h).1 = .ok results) :
    ∀ pair ∈ pairsOf results, pair.2.implements pair.1 = true := by
  intro pair hpair
  obtain ⟨path, hfound⟩ := (Registry.yields_scanAll_found
    (Registry.lawful_lasting h.lasting_reading) (fun _ hreading => hreading.tree) catalog suffix
    locations r h (.refl h)).1 results hscan pair hpair
  exact hfound.implements

theorem refusal?_eq_some {h : Host} {location : String} {failure : Failure}
    (hrefused : refusal? h location = some failure) :
    Text.allBlank location = true ∧ failure = .invalidSource location blankReason ∨
      h.mount? location = none ∧ failure = .invalidSource location absentReason := by
  unfold refusal? at hrefused
  split at hrefused
  · rename_i hblank
    exact .inl ⟨hblank, (Option.some.inj hrefused).symm⟩
  · split at hrefused
    · rename_i hmount
      exact .inr ⟨hmount, (Option.some.inj hrefused).symm⟩
    · cases hrefused

end Scanning

namespace Environment

variable {e : Environment} {locations : List String} {h : Host} {failure : Failure}
  {results : List ScanResult}

/-- Once all locations have been scanned, only saving decides. -/
theorem result_scanAndUpdate_of_scanned (hscan : ((e.scanAll locations).result h).1 = .ok results) :
    ((e.scanAndUpdate locations).result h).1 =
      ((e.registry.store.save results).result ((e.scanAll locations).after h)).map
        fun _ => results := by
  have hstore : ((e.scanAll locations).result h).2.store = e.registry.store :=
    (Registry.yields_scanAll (fun _ => True) (Registry.lawful_lasting h.lasting_reading)
      e.registry.resolver.catalog e.config.discoverySuffix locations e.registry h
      (.refl h)).1.store_eq
  have himplements := Scanning.implements_of_scanAll hscan
  unfold scanAll at hscan hstore ⊢
  simp only [scanAndUpdate, result_bind]
  generalize (Scanning.scanAll e.registry.resolver.catalog e.config.discoverySuffix locations
    e.registry).after h = saving
  generalize (Scanning.scanAll e.registry.resolver.catalog e.config.discoverySuffix locations
    e.registry).result h = answer at hscan hstore ⊢
  obtain ⟨scanned, r⟩ := answer
  cases hscan
  obtain ⟨r', hadded⟩ := Registry.exists_addResults himplements r
  dsimp only
  rw [Registry.update_of_added hadded, ← hstore]
  rfl

/-- An update fails because of a location, or when it saves what was found. -/
theorem refused_or_unsaved
    (hfailed : ((e.scanAndUpdate locations).result h).1 = .error failure) :
    (∃ location ∈ locations, Scanning.refusal? h location = some failure) ∨
      ∃ results, ((e.scanAll locations).result h).1 = .ok results ∧
        (e.registry.store.save results).result ((e.scanAll locations).after h) =
          .error failure := by
  cases hscan : ((e.scanAll locations).result h).1 with
  | error reason =>
      have hreason := congrArg Prod.fst (scanAndUpdate_of_error hscan).1
      cases hfailed.symm.trans hreason
      have hrefused := ((Scanning.yields_scanAll_refused h e.registry.resolver.catalog
        e.config.discoverySuffix locations e.registry h (.refl h)).1 failure).mp hscan
      obtain ⟨location, hlocation, hrefusal⟩ := List.exists_of_findSome?_eq_some hrefused
      exact .inl ⟨location, hlocation, hrefusal⟩
  | ok results =>
      rw [result_scanAndUpdate_of_scanned hscan] at hfailed
      refine .inr ⟨results, rfl, ?_⟩
      cases hsave : (e.registry.store.save results).result ((e.scanAll locations).after h) with
      | error reason =>
          rw [hsave] at hfailed
          cases hfailed
          rfl
      | ok saved =>
          rw [hsave] at hfailed
          cases hfailed

/-- Scans find components under capabilities that these implement, whatever the files and factories
are, so that none of them is refused when they are registered. The only failures of an update with
scans are of a location that is blank or cannot be mounted, and those that the settings file meets
when it is written or, without any component, removed. -/
theorem scanAndUpdate_registers (e : Environment) (locations : List String) (h : Host) :
    let scanned := e.scanAll locations
    let answer := ((e.scanAndUpdate locations).result h).1
    (∀ catalog suffix location r result,
      ((Scanning.scan catalog suffix location r).result h).1 = .ok result →
        ∀ pair ∈ result.components, pair.2.implements pair.1 = true) ∧
    (∀ results, (scanned.result h).1 = .ok results →
      ∃ r', (scanned.result h).2.addResults results = (.ok (), r')) ∧
    (∀ component capability, answer ≠ .error (.typeMismatch component capability)) ∧
    ∀ failure, answer = .error failure →
      (∃ location ∈ locations,
        Text.allBlank location = true ∧
            failure = .invalidSource location Scanning.blankReason ∨
          h.mount? location = none ∧
            failure = .invalidSource location Scanning.absentReason) ∨
      ∃ results fault, (scanned.result h).1 = .ok results ∧ failure = .io fault ∧
        let saving := scanned.after h
        let index := ComponentIndex.ofResults results
        (index.isEmpty = true ∧
            (Host.remove e.registry.store.path).result saving = .error fault ∨
          index.isEmpty = false ∧
            (Host.write e.registry.store.path (index.stamped saving.now).text).result saving =
              .error fault) := by
  intro scanned answer
  refine ⟨fun _ _ _ _ _ => Scanning.implements_of_scan, fun results hscan => ?_,
    fun component capability hfailed => ?_, fun failure hfailed => ?_⟩
  · exact Registry.exists_addResults (Scanning.implements_of_scanAll hscan) _
  · rcases refused_or_unsaved hfailed with ⟨location, -, hrefused⟩ | ⟨results, -, hsave⟩
    · rcases Scanning.refusal?_eq_some hrefused with ⟨-, heq⟩ | ⟨-, heq⟩ <;> cases heq
    · obtain ⟨fault, heq, -⟩ := SettingsStore.save_eq_error hsave
      cases heq
  · rcases refused_or_unsaved hfailed with ⟨location, hlocation, hrefused⟩ | ⟨results, hscan, hsave⟩
    · exact .inl ⟨location, hlocation, Scanning.refusal?_eq_some hrefused⟩
    · obtain ⟨fault, heq, haccess⟩ := SettingsStore.save_eq_error hsave
      refine .inr ⟨results, fault, hscan, heq, ?_⟩
      exact haccess.imp (fun h => ⟨h.1, h.2.1⟩) fun h => ⟨h.1, h.2.1⟩

end Environment

end PluginHost
