import PluginHost.Proofs.Engine.Registering
import PluginHost.Proofs.Engine.Reloading
import PluginHost.Proofs.Scan.Likeness

/-!
Scanning the same locations again. What a scan finds depends on the sources and on the catalog, and
not on the registry; what was registered and saved before is registered and saved again, with other
objects and another time, and nothing else changes. It takes a settings file that can be read.
-/

namespace PluginHost

open HostM

namespace Scanning

variable {catalog : Catalog} {suffix location : String} {locations : List String} {r : Registry}
  {h later : Host}

/-! What there is to be found. -/

theorem reading_findTemplates (mount : Mount) (r : Registry) (h : Host) :
    h.Reading ((findTemplates mount r).after h) :=
  ((Registry.outlasts_undisturbed h.lasting_reading r).findTemplates h.lasting_reading (.refl r)
    mount h (.refl h)).2

theorem Meets.builds_of_calm {s : Source} (hmeets : Meets suffix location r h s) (hcalm : h.Calm)
    (catalog : Catalog) : s.builds catalog =
      (h.tree.listing s.mount.root suffix).flatMap fun path =>
        buildsFrom catalog path (h.tree.read path) := by
  have hreading := hmeets.reading
  rw [Source.builds, Source.loads, buildsOf_answers, hmeets.files_eq,
    flatMap_zipIdx_eq (p := fun _ => true) (g := fun path => buildsFrom catalog path (h.tree.read path))]
  · simp
  · intro entry _ _
    rw [Resolver.readingAt_of_calm (hreading.calm hcalm), hreading.tree]
  · simp

/-- Where a location is mounted, and what is to be built of the module files there. -/
def offer? (catalog : Catalog) (suffix : String) (h : Host) (location : String) :
    Option (String × List Build) :=
  (h.mount? location).map fun mount =>
    (mount.uri, (h.tree.listing mount.root suffix).flatMap fun path =>
      buildsFrom catalog path (h.tree.read path))

/-- The result says where the location is mounted, and has what is to be built there. -/
def Offered (catalog : Catalog) (suffix : String) (h : Host) (location : String)
    (result : ScanResult) : Prop :=
  ∃ builds serial, offer? catalog suffix h location = some (result.mountUri, builds) ∧
    result.components = Build.pairs builds serial

theorem mountUri_of_scan {mount : Mount} {result : ScanResult}
    (hmounted : h.mount? location = some mount)
    (hscan : ((scan catalog suffix location r).result h).1 = .ok result) :
    result.mountUri = mount.uri := by
  unfold scan at hscan
  split at hscan
  · cases hscan
  · rw [result_bind, result_get, after_get, hmounted] at hscan
    cases hscan
    rfl

theorem offered_of_scan {result : ScanResult} (hcalm : h.Calm)
    (hscan : ((scan catalog suffix location r).result h).1 = .ok result) :
    Offered catalog suffix h location result := by
  have hnone : refusal? h location = none := by
    rw [Option.eq_none_iff_forall_ne_some]
    intro failure hrefused
    cases hscan.symm.trans (result_scan_eq_error_iff.mpr hrefused)
  obtain ⟨mount, hnamed, hmounted⟩ : ∃ mount, Text.allBlank location = false ∧
      h.mount? location = some mount := by
    unfold refusal? at hnone
    split at hnone
    · cases hnone
    · rename_i hnamed
      cases hmount : h.mount? location with
      | none => simp [hmount] at hnone
      | some mount => exact ⟨mount, by simpa using hnamed, rfl⟩
  have hreading := reading_findTemplates mount r h
  have hmeets : Meets suffix location r h ⟨_, mount, _⟩ :=
    meets_of_clear hnamed hmounted (Host.firstFault_of_calm (hreading.calm hcalm).2) rfl
  obtain ⟨⟨found, hfound, hcomponents⟩, -⟩ := hmeets.scan_eq catalog
  obtain rfl := Except.ok.inj (hscan.symm.trans hfound)
  obtain ⟨hpairs, -⟩ := hmeets.worked_findComponents catalog
  refine ⟨_, _, ?_, hcomponents.trans hpairs⟩
  rw [hmeets.builds_of_calm hcalm, offer?, hmounted, mountUri_of_scan hmounted hscan]
  rfl

theorem offer?_of_reading (hreading : h.Reading later) (catalog : Catalog)
    (suffix location : String) :
    offer? catalog suffix later location = offer? catalog suffix h location := by
  simp only [offer?, Host.mount?, hreading.tree, hreading.aliases]

/-- Each of some scans in turn finds what its location has to offer, whatever was scanned before. -/
theorem yields_scanAll_offered (hcalm : h.Calm) (catalog : Catalog) (suffix : String)
    (locations : List String) (r : Registry) :
    Yields h.Reading (scanAll catalog suffix locations r) fun answer =>
      ∀ results, answer.1 = .ok results →
        List.Forall₂ (Offered catalog suffix h) locations results := by
  induction locations generalizing r with
  | nil => exact Yields.pure (by simp)
  | cons location rest ih =>
      have hscan : Yields h.Reading (scan catalog suffix location r) fun answer =>
          ∀ result, answer.1 = .ok result → Offered catalog suffix h location result := by
        refine ((Registry.outlasts_undisturbed h.lasting_reading r).scan h.lasting_reading
          (.refl r) catalog suffix location).answering fun host hreading result hresult => ?_
        obtain ⟨builds, serial, hoffer, hpairs⟩ :=
          offered_of_scan (hreading.calm hcalm) hresult
        exact ⟨builds, serial, (offer?_of_reading hreading ..).symm.trans hoffer, hpairs⟩
      refine hscan.bind fun answer hfirst => ?_
      obtain ⟨scanned, next⟩ := answer
      cases scanned with
      | error failure => exact Yields.pure (by simp)
      | ok result =>
          refine (ih next).bind fun answer hmore => Yields.pure fun results hresults => ?_
          obtain ⟨found, last⟩ := answer
          cases found with
          | error failure => cases hresults
          | ok found =>
              cases hresults
              exact .cons (hfirst result rfl) (hmore found rfl)

/-! Sources that have not changed. -/

/-- The locations are mounted as before, and there are the same module files with the same texts. -/
structure Unchanged (suffix : String) (locations : List String) (h later : Host) : Prop where
  mounted : ∀ location ∈ locations, later.mount? location = h.mount? location
  listed : ∀ location ∈ locations, ∀ mount, h.mount? location = some mount →
    later.tree.listing mount.root suffix = h.tree.listing mount.root suffix
  contents : ∀ location ∈ locations, ∀ mount, h.mount? location = some mount →
    ∀ path ∈ h.tree.listing mount.root suffix,
      (later.tree.read path).toOption = (h.tree.read path).toOption

theorem Unchanged.offer?_eq (hunchanged : Unchanged suffix locations h later)
    (hlocation : location ∈ locations) (catalog : Catalog) :
    offer? catalog suffix later location = offer? catalog suffix h location := by
  rw [offer?, offer?, hunchanged.mounted location hlocation]
  cases hmount : h.mount? location with
  | none => rfl
  | some mount =>
      simp only [Option.map_some, hunchanged.listed location hlocation mount hmount]
      congr 2
      apply List.flatMap_congr
      intro path hpath
      exact buildsFrom_congr catalog path path
        (hunchanged.contents location hlocation mount hmount path hpath)

theorem Unchanged.refusal?_eq (hunchanged : Unchanged suffix locations h later)
    (hlocation : location ∈ locations) : refusal? later location = refusal? h location := by
  rw [refusal?, refusal?, hunchanged.mounted location hlocation]

/-- The first refusal is the same, if there is one. -/
theorem Unchanged.findSome?_eq (hunchanged : Unchanged suffix locations h later) :
    locations.findSome? (refusal? later) = locations.findSome? (refusal? h) := by
  have hrefusals : locations.map (refusal? later) = locations.map (refusal? h) :=
    List.map_congr_left fun location hlocation => hunchanged.refusal?_eq hlocation
  simpa [List.findSome?_map] using congrArg (List.findSome? id) hrefusals

theorem exists_of_mem_buildsFrom {path : Path} {contents : Except Storage.Fault String}
    {build : Build} (h : build ∈ buildsFrom catalog path contents) :
    ∃ entryPoint factories, catalog.get? entryPoint = some factories ∧
      build.factory ∈ factories := by
  unfold buildsFrom at h
  split at h
  · rename_i module hmodule
    obtain ⟨m, -, hmodule⟩ := bind_eq_ok.mp hmodule
    obtain ⟨identity, -, hmodule⟩ := bind_eq_ok.mp hmodule
    obtain ⟨references, -, hmodule⟩ := bind_eq_ok.mp hmodule
    obtain ⟨factory, hfactory, rfl⟩ := List.mem_map.mp h
    cases hentry : catalog.get? m.entryPoint with
    | none => simp [hentry] at hmodule
    | some factories =>
        rw [hentry] at hmodule
        cases hmodule
        exact ⟨m.entryPoint, factories, hentry, hfactory⟩
  · cases h

theorem uniform_of_offer? (huniform : ∀ entryPoint factories,
    catalog.get? entryPoint = some factories → ∀ f ∈ factories, f.Uniform)
    {uri : String} {builds : List Build} (h : offer? catalog suffix later location = some (uri, builds)) :
    ∀ build ∈ builds, build.factory.Uniform := by
  obtain ⟨mount, -, heq⟩ := Option.map_eq_some_iff.mp h
  cases heq
  intro build hbuild
  obtain ⟨path, -, hpath⟩ := List.mem_flatMap.mp hbuild
  obtain ⟨entryPoint, factories, hentry, hfactory⟩ := exists_of_mem_buildsFrom hpath
  exact huniform entryPoint factories hentry _ hfactory

theorem map_eq_of_forall₂ {α β γ : Type} {R R' : α → β → Prop} {f : β → γ} {l : List α}
    {firsts seconds : List β} (h : ∀ a ∈ l, ∀ b c, R a b → R' a c → f c = f b)
    (hfirsts : List.Forall₂ R l firsts) (hseconds : List.Forall₂ R' l seconds) :
    seconds.map f = firsts.map f := by
  induction hfirsts generalizing seconds with
  | nil =>
      cases hseconds
      rfl
  | cons hfirst _ ih =>
      cases hseconds with
      | cons hsecond hrest =>
      obtain ⟨hhead, htail⟩ := List.forall_mem_cons.mp h
      rw [List.map_cons, List.map_cons, hhead _ _ hfirst hsecond, ih htail hrest]

/-- What the same sources offer is found again, but for the serial numbers of what is built. -/
theorem Unchanged.bare_eq (hunchanged : Unchanged suffix locations h later)
    (huniform : ∀ entryPoint factories, catalog.get? entryPoint = some factories →
      ∀ f ∈ factories, f.Uniform) {results others : List ScanResult}
    (hresults : List.Forall₂ (Offered catalog suffix h) locations results)
    (hothers : List.Forall₂ (Offered catalog suffix later) locations others) :
    others.map ScanResult.bare = results.map ScanResult.bare := by
  refine map_eq_of_forall₂ (fun location hlocation result other hfirst hsecond => ?_) hresults
    hothers
  obtain ⟨builds, m, hoffer, hpairs⟩ := hfirst
  obtain ⟨again, n, hagain, hmore⟩ := hsecond
  rw [hunchanged.offer?_eq hlocation, hoffer] at hagain
  obtain ⟨huri, rfl⟩ := Prod.mk.inj (Option.some.inj hagain)
  rw [ScanResult.bare, ScanResult.bare, huri, hpairs, hmore,
    Build.bare_pairs (uniform_of_offer? huniform hoffer)]

end Scanning

/-! Registering the same again. -/

theorem Resolver.foldl_addLocation_of_mem {more : List String} {r : Resolver}
    (h : ∀ location ∈ more, location ∈ r.locations) : more.foldl addLocation r = r := by
  induction more with
  | nil => rfl
  | cons first rest ih =>
      obtain ⟨hfirst, hrest⟩ := List.forall_mem_cons.mp h
      rw [List.foldl_cons, addLocation, if_pos hfirst, ih hrest]

namespace Registry

variable {r r' s s' : Registry} {results others : List ScanResult}

theorem knownIds_eq_toList (r : Registry) (capability : Capability) :
    r.knownIds capability = SortedSet.toList ((r.known.get? capability).getD .empty) := by
  unfold knownIds
  cases r.known.get? capability <;> rfl

theorem knownIds_eq {capability : Capability}
    (h : ∀ id, id ∈ r'.knownIds capability ↔ id ∈ r.knownIds capability) :
    r'.knownIds capability = r.knownIds capability := by
  simp only [knownIds_eq_toList] at h ⊢
  exact congrArg SortedSet.toList (SortedSet.ext_mem h)

theorem mem_locations_of_addResults (h : r.addResults results = (.ok (), r')) {location : String}
    (hlocation : location ∈ contributing results) : location ∈ r'.resolver.locations := by
  obtain ⟨locations, hfold, hmem⟩ := Resolver.foldl_addLocation (contributing results) r.resolver
  rw [(enlisted_addAll (addAll_of_addResults h)).2, hfold]
  exact (hmem location).mpr (.inl hlocation)

/-- The registries know the same identifiers, with the same type references, and look for modules in
the same places. -/
structure Repeats (r r' : Registry) : Prop where
  known : ∀ capability, r'.knownIds capability = r.knownIds capability
  references : ∀ id, r'.typeReference id = r.typeReference id
  locations : r'.resolver.locations = r.resolver.locations

/-- When the same has been registered before, and nothing has been disturbed since then, registering
it again changes nothing of this. -/
theorem repeats_addResults (h : r.addResults results = (.ok (), r')) (hundisturbed : r'.Undisturbed s)
    (hagain : s.addResults others = (.ok (), s'))
    (hbare : others.map ScanResult.bare = results.map ScanResult.bare) : r'.Repeats s' := by
  have hfirst := enlisted_addResults h
  have hsecond := enlisted_addResults hagain
  refine ⟨fun capability => knownIds_eq fun id => ?_, fun id => ?_, ?_⟩
  · rw [hsecond.known, hundisturbed.known, idsUnder_of_bare hbare, or_iff_left_iff_imp]
    exact fun hid => (hfirst.known capability id).mpr (.inr hid)
  · rw [hsecond.reference, hundisturbed.references, lastReference_of_bare hbare, hfirst.reference]
    cases (lastWith id (pairsOf results)).map Component.typeReference <;> rfl
  · rw [(enlisted_addAll (addAll_of_addResults hagain)).2, Resolver.foldl_addLocation_of_mem,
      hundisturbed.locations]
    intro location hlocation
    rw [contributing_of_bare hbare] at hlocation
    rw [hundisturbed.locations]
    exact mem_locations_of_addResults h hlocation

end Registry

/-! Saving the same again. -/

theorem SettingsStore.save_of_bare {results others : List ScanResult} (store : SettingsStore)
    (hbare : others.map ScanResult.bare = results.map ScanResult.bare) :
    store.save others = store.save results := by
  rw [save, save, ComponentIndex.ofResults_of_bare hbare]

namespace Environment

variable {e : Environment} {locations : List String} {h later : Host} {results : List ScanResult}

/-- Where all locations could be scanned, they can be scanned as long as the sources are as they
were, and what is found is the same. -/
theorem scanAll_again {once : Environment} (hcalm : h.Calm) (hlater : later.Calm)
    (hscan : ((e.scanAll locations).result h).1 = .ok results)
    (huniform : ∀ entryPoint factories,
      e.registry.resolver.catalog.get? entryPoint = some factories → ∀ f ∈ factories, f.Uniform)
    (hunchanged : Scanning.Unchanged e.config.discoverySuffix locations h later)
    (hconfig : once.config = e.config)
    (hcatalog : once.registry.resolver.catalog = e.registry.resolver.catalog) :
    ∃ others, ((once.scanAll locations).result later).1 = .ok others ∧
      others.map ScanResult.bare = results.map ScanResult.bare := by
  have hrefused := (Scanning.yields_scanAll_refused h e.registry.resolver.catalog
    e.config.discoverySuffix locations e.registry h (.refl h)).1
  have hrefused' := (Scanning.yields_scanAll_refused later e.registry.resolver.catalog
    e.config.discoverySuffix locations once.registry later (.refl later)).1
  have hoffered := (Scanning.yields_scanAll_offered hcalm e.registry.resolver.catalog
    e.config.discoverySuffix locations e.registry h (.refl h)).1 results hscan
  have hoffered' := (Scanning.yields_scanAll_offered hlater e.registry.resolver.catalog
    e.config.discoverySuffix locations once.registry later (.refl later)).1
  rw [scanAll, hconfig, hcatalog]
  cases hagain : ((Scanning.scanAll e.registry.resolver.catalog e.config.discoverySuffix locations
      once.registry).result later).1 with
  | ok others => exact ⟨others, rfl, hunchanged.bare_eq huniform hoffered (hoffered' others hagain)⟩
  | error failure =>
      have hreason := (hrefused' failure).mp hagain
      rw [hunchanged.findSome?_eq] at hreason
      cases hscan.symm.trans ((hrefused failure).mpr hreason)

/-- What a scan has found and saved can be saved again on a host with the same files. -/
theorem save_again_of_scan (hscan : ((e.scanAndUpdate locations).result h).1 = .ok results)
    (htree : later.tree = ((e.scanAndUpdate locations).after h).tree)
    (hwrites : Storage.Disk.firstFault later.disk.prospect.writes = none)
    (hthere : pairsOf results ≠ [] → ∃ text, later.tree.read e.registry.store.path = .ok text) :
    (∃ saved, (e.registry.store.save results).result later = .ok saved) ∧
      e.registry.store.Keeps results later.tree h.now ∧
      e.registry.store.Keeps results ((e.registry.store.save results).after later).tree
        later.now := by
  obtain ⟨-, saving, saved, hreading, hsave, hafter⟩ := saved_of_scanAndUpdate hscan
  rw [hafter] at htree
  rw [← hreading.now]
  obtain ⟨hsaved, hkeeps⟩ := SettingsStore.save_again hsave htree hwrites fun hfull => by
    refine hthere fun hnone => ?_
    have hempty := ComponentIndex.isEmpty_ofResults_iff.mpr (List.flatMap_eq_nil_iff.mp hnone)
    cases hfull.symm.trans hempty
  exact ⟨⟨saved, hsaved⟩, hkeeps⟩

/-- Once a scan has succeeded, the same one succeeds again when the sources are as they were and the
settings file can be read, if it was written, and written. It finds the same, but for the objects that
are built; the registry and the settings file keep what they say, but for the time. -/
theorem rescan_repeats (e : Environment) (hcalm : h.Calm)
    (hscan : ((e.scanAndUpdate locations).result h).1 = .ok results)
    (huniform : ∀ entryPoint factories,
      e.registry.resolver.catalog.get? entryPoint = some factories → ∀ f ∈ factories, f.Uniform)
    (hunchanged : Scanning.Unchanged e.config.discoverySuffix locations h later)
    (htree : later.tree = ((e.scanAndUpdate locations).after h).tree) (hlater : later.Calm)
    (hwrites : Storage.Disk.firstFault later.disk.prospect.writes = none)
    (hthere : pairsOf results ≠ [] → ∃ text, later.tree.read e.registry.store.path = .ok text) :
    let once := ((e.scanAndUpdate locations).result h).2
    let twice := (once.scanAndUpdate locations).result later
    ∃ others, twice.1 = .ok others ∧
      others.map ScanResult.bare = results.map ScanResult.bare ∧
      once.registry.Repeats twice.2.registry ∧
      e.registry.store.Keeps results later.tree h.now ∧
      e.registry.store.Keeps results ((once.scanAndUpdate locations).after later).tree
        later.now := by
  intro once twice
  obtain ⟨r, r', -, -, hscanned, -, hadded, -, honce, -⟩ := scanAndUpdate_eq_ok hscan
  have hsteps : Registry.Steps Resolver.Later (fun _ => True) e.registry once.registry :=
    steps_scanAndUpdate hscan
  -- The sources are scanned again.
  obtain ⟨others, hscanned', hbare⟩ := scanAll_again hcalm hlater (congrArg Prod.fst hscanned)
    huniform hunchanged (e.config_scanAndUpdate locations h) hsteps.later.catalog
  obtain ⟨hundisturbed, hreading⟩ := (Registry.outlasts_undisturbed later.lasting_reading
    once.registry).scanAll later.lasting_reading (.refl _) once.registry.resolver.catalog
      once.config.discoverySuffix locations later (.refl later)
  -- What was found is saved again.
  have hsaved : (∃ saved, (e.registry.store.save results).result ((once.scanAll locations).after
        later) = .ok saved) ∧ e.registry.store.Keeps results later.tree h.now ∧
      e.registry.store.Keeps results
        ((e.registry.store.save results).after ((once.scanAll locations).after later)).tree
        later.now := by
    rw [← hreading.now, ← hreading.tree]
    refine save_again_of_scan hscan (hreading.tree.trans htree) ?_ fun hfound => ?_
    · rw [scanAll, hreading.writes]
      exact hwrites
    · rw [scanAll, hreading.tree]
      exact hthere hfound
  obtain ⟨⟨saved, hsaved⟩, hkeeps⟩ := hsaved
  have htwice : twice.1 = .ok others := by
    rw [result_scanAndUpdate_of_scanned hscanned', hsteps.store_eq, SettingsStore.save_of_bare _ hbare,
      hsaved]
    rfl
  -- What was found is registered again.
  obtain ⟨s, s', writing, -, hfound, hwriting, hadded', -, hregistry, hdone⟩ :=
    scanAndUpdate_eq_ok htwice
  have hstore : s'.store = e.registry.store := by
    rw [← hregistry, (steps_scanAndUpdate htwice).store_eq, hsteps.store_eq]
  rw [hdone, hstore, SettingsStore.save_of_bare _ hbare, ← hwriting]
  refine ⟨others, htwice, hbare, ?_, hkeeps⟩
  have honce : once.registry = r' := honce
  have hregistry : twice.2.registry = s' := hregistry
  rw [hfound, honce] at hundisturbed
  rw [honce, hregistry]
  exact Registry.repeats_addResults hadded hundisturbed hadded' hbare

theorem unchanged_pack {suffix : String} {h later : Host} {paths : List Path}
    (hmount : h.mount? "/pack" = some ⟨"/pack", ⟨"/pack"⟩⟩)
    (hmount' : later.mount? "/pack" = some ⟨"/pack", ⟨"/pack"⟩⟩)
    (hlisting : h.tree.listing ⟨"/pack"⟩ suffix = paths)
    (hlisting' : later.tree.listing ⟨"/pack"⟩ suffix = paths)
    (hread : ∀ path ∈ paths, (later.tree.read path).toOption = (h.tree.read path).toOption) :
    Scanning.Unchanged suffix ["/pack"] h later := by
  refine ⟨?_, ?_, ?_⟩ <;> intro location hlocation <;> obtain rfl := List.mem_singleton.mp hlocation
  · rw [hmount, hmount']
  all_goals
    intro mount hmounted
    obtain rfl := Option.some.inj (hmount.symm.trans hmounted)
  · rw [hlisting, hlisting']
  · rw [hlisting]
    exact hread

/-- The second scan asks a generator that the first one has found, and a year later the settings file
says the same. -/
theorem rescan_repeats_desk :
    let pen : Blueprint := ⟨"Pen", .ofNat 1, ["draw"], none, none, [], ""⟩
    let maker : Blueprint :=
      ⟨"Maker", .ofNat 2, [Capability.generator], none, none, ["sketch"], ""⟩
    let config : EngineConfig := ⟨⟨"/desk"⟩, "components.json", ".module", ".module", 1, 0, .strict⟩
    let catalog : Catalog := ⟨[("ink", [pen.factory, maker.factory])]⟩
    ∃ e results others, (start [] config catalog).result desk = .ok e ∧
      ((e.scanAndUpdate ["/pack"]).result desk).1 = .ok results ∧
      let once := ((e.scanAndUpdate ["/pack"]).result desk).2
      let later : Host :=
        { (e.scanAndUpdate ["/pack"]).after desk with now := ⟨2025, 1, 1, 0, 0, 0, 0⟩ }
      let twice := (once.scanAndUpdate ["/pack"]).result later
      twice.1 = .ok others ∧ pairsOf results ≠ [] ∧
        others.map ScanResult.bare = results.map ScanResult.bare ∧
        twice.2.registry.knownIds Capability.generator = [.ofNat 2] ∧
        twice.2.registry.resolver.locations = ["/pack"] ∧
        ((once.scanAndUpdate ["/pack"]).after later).tree.read config.componentsPath =
          .ok ((ComponentIndex.ofResults results).stamped later.now).text := by
  intro pen maker config catalog
  have hfacts : ((start [] config catalog).result desk).toOption.map (fun e =>
      let answer := (e.scanAndUpdate ["/pack"]).result desk
      let saved := (e.scanAndUpdate ["/pack"]).after desk
      decide (answer.1.toOption.map (idsUnder Capability.generator ∘ pairsOf) = some [.ofNat 2] ∧
        saved.disk.prospect = .clear ∧
        saved.mount? "/pack" = some ⟨"/pack", ⟨"/pack"⟩⟩ ∧
        saved.tree.listing ⟨"/pack"⟩ ".module" = [⟨"/pack/Ink.module"⟩] ∧
        (saved.tree.read ⟨"/pack/Ink.module"⟩).toOption =
          (desk.tree.read ⟨"/pack/Ink.module"⟩).toOption ∧
        (saved.tree.read config.componentsPath).toOption.isSome = true ∧
        answer.2.registry.knownIds Capability.generator = [.ofNat 2] ∧
        answer.2.registry.resolver.locations = ["/pack"])) = some true := by
    decide +kernel
  obtain ⟨e, hstart, hfacts⟩ := map_toOption_eq_some.mp hfacts
  obtain ⟨hids, hprospect, hmount, hlisting, hcontents, hsome, hknown, hlocations⟩ :=
    of_decide_eq_true hfacts
  obtain ⟨results, hscan, hids⟩ := map_toOption_eq_some.mp hids
  obtain ⟨-, hconfig, hstore, hcatalog⟩ :=
    (Reachable.started hstart : Reachable [] config catalog e).started_with
  have hpath : e.registry.store.path = config.componentsPath := by
    rw [hstore]
    rfl
  have hfound : .ofNat 2 ∈ idsUnder Capability.generator (pairsOf results) :=
    List.mem_of_mem_head? (congrArg List.head? hids)
  have hsome' : pairsOf results ≠ [] := by
    intro hnil
    rw [hnil] at hfound
    cases hfound
  obtain ⟨text, hread⟩ := Option.isSome_iff_exists.mp hsome
  rw [toOption_eq_some] at hread
  have huniform : ∀ entryPoint factories, catalog.get? entryPoint = some factories →
      ∀ f ∈ factories, f.Uniform := by
    intro entryPoint factories hentry f hf
    have hmem := Table.mem_entries_of_get? hentry
    obtain ⟨-, rfl⟩ := Prod.mk.inj (List.mem_singleton.mp hmem)
    simp only [List.mem_cons, List.not_mem_nil, or_false] at hf
    rcases hf with rfl | rfl
    · exact pen.factory_uniform
    · exact maker.factory_uniform
  let later : Host :=
    { (e.scanAndUpdate ["/pack"]).after desk with now := ⟨2025, 1, 1, 0, 0, 0, 0⟩ }
  have hunchanged : Scanning.Unchanged e.config.discoverySuffix ["/pack"] desk later := by
    rw [hconfig]
    refine unchanged_pack (by decide +kernel) hmount (by decide +kernel) hlisting fun path hpath => ?_
    rw [List.mem_singleton.mp hpath]
    exact hcontents
  obtain ⟨others, hagain, hbare, hrepeats, -, hkeeps⟩ := rescan_repeats e
    (Host.calm_of_clear rfl) hscan (hcatalog ▸ huniform) hunchanged rfl
    (Host.calm_of_clear hprospect) (congrArg (fun p => Storage.Disk.firstFault p.writes) hprospect)
    fun _ => ⟨text, hpath ▸ hread⟩
  refine ⟨e, results, others, hstart, hscan, hagain, hsome', hbare, ?_, ?_, ?_⟩
  · rw [hrepeats.known, hknown]
  · rw [hrepeats.locations, hlocations]
  · rw [← hpath]
    exact hkeeps.read hsome'

/-- On the linked desk the first scan puts a link to itself in the place of the settings file, so that
there is nothing to read; the second one finds no link in the place of the temporary file and writes a
settings file. -/
theorem rescan_settles_linkedDesk :
    let pen : Blueprint := ⟨"Pen", .ofNat 1, ["draw"], none, none, [], ""⟩
    let config : EngineConfig := ⟨⟨"/desk"⟩, "components.json", ".module", ".module", 1, 0, .strict⟩
    let catalog : Catalog := ⟨[("ink", [pen.factory])]⟩
    ∃ e results others, (start [] config catalog).result linkedDesk = .ok e ∧
      ((e.scanAndUpdate ["/pack"]).result linkedDesk).1 = .ok results ∧
      let once := ((e.scanAndUpdate ["/pack"]).result linkedDesk).2
      let saved := (e.scanAndUpdate ["/pack"]).after linkedDesk
      let again := (once.scanAndUpdate ["/pack"]).after saved
      Scanning.Unchanged config.discoverySuffix ["/pack"] linkedDesk saved ∧
        linkedDesk.Calm ∧ saved.disk.prospect = .clear ∧
        ((once.scanAndUpdate ["/pack"]).result saved).1 = .ok others ∧
        saved.tree.isThere config.componentsPath = false ∧
        again.tree.isThere config.componentsPath = true := by
  intro pen config catalog
  have hfacts : ((start [] config catalog).result linkedDesk).toOption.map (fun e =>
      let answer := (e.scanAndUpdate ["/pack"]).result linkedDesk
      let saved := (e.scanAndUpdate ["/pack"]).after linkedDesk
      decide (answer.1.toOption.isSome = true ∧
        ((answer.2.scanAndUpdate ["/pack"]).result saved).1.toOption.isSome = true ∧
        saved.disk.prospect = .clear ∧
        saved.mount? "/pack" = some ⟨"/pack", ⟨"/pack"⟩⟩ ∧
        saved.tree.listing ⟨"/pack"⟩ ".module" = [⟨"/pack/Ink.module"⟩] ∧
        (saved.tree.read ⟨"/pack/Ink.module"⟩).toOption =
          (linkedDesk.tree.read ⟨"/pack/Ink.module"⟩).toOption ∧
        saved.tree.isThere config.componentsPath = false ∧
        ((answer.2.scanAndUpdate ["/pack"]).after saved).tree.isThere config.componentsPath =
          true)) = some true := by
    decide +kernel
  obtain ⟨e, hstart, hfacts⟩ := map_toOption_eq_some.mp hfacts
  obtain ⟨hscan, hagain, hprospect, hmount, hlisting, hcontents, hlost, hback⟩ :=
    of_decide_eq_true hfacts
  obtain ⟨results, hscan⟩ := Option.isSome_iff_exists.mp hscan
  obtain ⟨others, hagain⟩ := Option.isSome_iff_exists.mp hagain
  refine ⟨e, results, others, hstart, toOption_eq_some.mp hscan, ?_, Host.calm_of_clear rfl,
    hprospect, toOption_eq_some.mp hagain, hlost, hback⟩
  refine unchanged_pack (by decide +kernel) hmount (by decide +kernel) hlisting fun path hpath => ?_
  rw [List.mem_singleton.mp hpath]
  exact hcontents

end Environment

end PluginHost
