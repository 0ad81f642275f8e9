import PluginHost.Proofs.Registry.Holdings
import PluginHost.Proofs.Registry.Stability
import PluginHost.Proofs.Settings.Saving

/-!
Scan, save, restart, activate. What a scan has found is known again to the next environment that
comes to life on the same files, and a look-up builds it from the module that it was found in.
-/

namespace PluginHost

namespace Environment

open HostM Registry

variable {builtIn : List (Capability × Component)} {config : EngineConfig} {catalog : Catalog}
  {e : Environment}

/-- An environment that was started somewhere with these parts, and has come through anything that
callers do and hosts go through. -/
inductive Reachable (builtIn : List (Capability × Component)) (config : EngineConfig)
    (catalog : Catalog) : Environment → Prop
  | started {h : Host} {e : Environment}
      (hstarted : (start builtIn config catalog).result h = .ok e) :
      Reachable builtIn config catalog e
  | performed {e : Environment} (hreachable : Reachable builtIn config catalog e)
      (action : Registry.Action) (h : Host) :
      Reachable builtIn config catalog (e.withRegistry ((e.registry.perform action).result h))

structure Started (builtIn : List (Capability × Component)) (config : EngineConfig)
    (catalog : Catalog) (e : Environment) : Prop where
  added : ((Registry.new (resolverFor config catalog) (storeFor config)).addAll builtIn).1 = .ok ()
  configured : e.config = config
  stored : e.registry.store = storeFor config
  cataloged : e.registry.resolver.catalog = catalog

theorem result_start (h : Host) : (start builtIn config catalog).result h =
    ((seeded builtIn (resolverFor config catalog) (storeFor config)).result h).map
      fun registry => ⟨config, registry⟩ :=
  rfl

theorem added_of_seeded {resolver : Resolver} {store : SettingsStore} {h : Host} {r : Registry}
    (hseeded : (seeded builtIn resolver store).result h = .ok r) :
    ((Registry.new resolver store).addAll builtIn).1 = .ok () := by
  rw [seeded] at hseeded
  generalize (Registry.new resolver store).addAll builtIn = answer at hseeded
  obtain ⟨added, next⟩ := answer
  cases added with
  | error failure => cases hseeded
  | ok done => rfl

theorem Reachable.started_with (h : Reachable builtIn config catalog e) :
    Started builtIn config catalog e := by
  induction h with
  | @started h e hstarted =>
      rw [result_start] at hstarted
      cases hseeded : (seeded builtIn (resolverFor config catalog) (storeFor config)).result h with
      | error failure =>
          rw [hseeded] at hstarted
          cases hstarted
      | ok r =>
          rw [hseeded] at hstarted
          cases hstarted
          have hsteps : Steps Resolver.Later (fun _ => True)
              (Registry.new (resolverFor config catalog) (storeFor config)) r :=
            (yields_seeded (fun _ => trivial) (fun _ _ => trivial) _ _ h trivial).1 r hseeded
          exact ⟨added_of_seeded hseeded, rfl, hsteps.store_eq, hsteps.later.catalog⟩
  | @performed e hreachable action h ih =>
      obtain ⟨hadded, hconfig, hstore, hcatalog⟩ := ih
      have hsteps : Steps Resolver.Later (fun _ => True) e.registry
          ((e.registry.perform action).result h) :=
        steps_perform lawful_later action.asks_all trivial fun _ _ => trivial
      exact ⟨hadded, hconfig, hsteps.store_eq.trans hstore, hsteps.later.catalog.trans hcatalog⟩

/-! What a scan leaves behind. -/

/-- A scan succeeds if all sources can be scanned, all that is found can be registered, and its
index can be saved. -/
theorem scanAndUpdate_eq_ok {locations : List String} {h : Host} {results : List ScanResult}
    (hscan : ((e.scanAndUpdate locations).result h).1 = .ok results) :
    ∃ r r' saving saved,
      (Scanning.scanAll e.registry.resolver.catalog e.config.discoverySuffix locations
        e.registry).result h = (.ok results, r) ∧
      (Scanning.scanAll e.registry.resolver.catalog e.config.discoverySuffix locations
        e.registry).after h = saving ∧
      r.addResults results = (.ok (), r') ∧
      (r'.store.save results).result saving = .ok saved ∧
      ((e.scanAndUpdate locations).result h).2.registry = r' ∧
      (e.scanAndUpdate locations).after h = (r'.store.save results).after saving := by
  simp only [scanAndUpdate, result_bind, after_bind] at hscan ⊢
  generalize (Scanning.scanAll e.registry.resolver.catalog e.config.discoverySuffix locations
    e.registry).after h = saving at hscan ⊢
  generalize (Scanning.scanAll e.registry.resolver.catalog e.config.discoverySuffix locations
    e.registry).result h = answer at hscan ⊢
  obtain ⟨scanned, r⟩ := answer
  cases scanned with
  | error failure => cases hscan
  | ok found =>
      simp only [update, result_bind, after_bind] at hscan ⊢
      generalize hadding : r.addResults found = answer at hscan ⊢
      obtain ⟨added, r'⟩ := answer
      cases added with
      | error failure => cases hscan
      | ok done =>
          simp only [result_bind, after_bind] at hscan ⊢
          cases hsave : (r'.store.save found).result saving with
          | error failure =>
              rw [hsave] at hscan
              cases hscan
          | ok saved =>
              rw [hsave] at hscan
              cases hscan
              exact ⟨r, r', saving, saved, rfl, rfl, hadding, hsave, rfl, rfl⟩

theorem config_scanAndUpdate (e : Environment) (locations : List String) (h : Host) :
    ((e.scanAndUpdate locations).result h).2.config = e.config := by
  simp only [scanAndUpdate, result_bind]
  generalize (Scanning.scanAll e.registry.resolver.catalog e.config.discoverySuffix locations
    e.registry).result h = answer
  obtain ⟨scanned, r⟩ := answer
  cases scanned <;> rfl

theorem steps_scanAndUpdate {locations : List String} {h : Host} {results : List ScanResult}
    (hscan : ((e.scanAndUpdate locations).result h).1 = .ok results) :
    Steps Resolver.Later (fun _ => True) e.registry
      ((e.scanAndUpdate locations).result h).2.registry := by
  obtain ⟨r, r', -, -, hscanned, -, hadded, -, hregistry, -⟩ := scanAndUpdate_eq_ok hscan
  obtain ⟨hsteps, -⟩ := yields_scanAll (fun _ => True) (lawful_lasting h.lasting_reading)
    e.registry.resolver.catalog e.config.discoverySuffix locations e.registry h (.refl h)
  have hadding : Steps Resolver.Later (fun _ => True) r (r.addResults results).2 :=
    steps_addResults lawful_later fun _ _ => trivial
  rw [hscanned] at hsteps
  rw [hadded] at hadding
  rw [hregistry]
  exact hsteps.trans hadding

/-- A scan that succeeds only reads until it saves what was found, all of it in files. -/
theorem saved_of_scanAndUpdate {locations : List String} {scanning : Host}
    {results : List ScanResult}
    (h : ((e.scanAndUpdate locations).result scanning).1 = .ok results) :
    (∀ pair ∈ pairsOf results,
        ∃ path, Scanning.FoundIn e.registry.resolver.catalog scanning.tree path pair) ∧
      ∃ saving saved, scanning.Reading saving ∧
        (e.registry.store.save results).result saving = .ok saved ∧
        (e.scanAndUpdate locations).after scanning =
          (e.registry.store.save results).after saving := by
  obtain ⟨hfound, hafter⟩ := yields_scanAll_found (lawful_lasting scanning.lasting_reading)
    (fun _ h => h.tree) e.registry.resolver.catalog e.config.discoverySuffix locations e.registry
    scanning (.refl scanning)
  have hsteps := steps_scanAndUpdate h
  obtain ⟨r, r', saving, saved, hresult, rfl, -, hsave, hregistry, hsaved⟩ := scanAndUpdate_eq_ok h
  rw [hresult] at hfound
  rw [← hregistry, hsteps.store_eq] at hsave hsaved
  exact ⟨hfound results rfl, _, saved, hafter, hsave, hsaved⟩

/-! What the next environment makes of it. -/

/-- A component of which a saved index says enough to build it again: it came from this factory of
this module, and nothing else answers to its identifier or to the type name of the factory. -/
structure Restorable (builtIn : List (Capability × Component)) (catalog : Catalog)
    (tree : Storage.Tree) (results : List ScanResult) (m : LoadedModule) (f : Factory)
    (x : Component) : Prop where
  content : catalog.moduleIn tree m.path = .ok m
  mem : f ∈ m.factories
  built : ∃ serial, x = (f.construct serial).inModule m.identity.text
  typed : ∀ pair ∈ pairsOf results, pair.2.id = x.id →
    pair.2.typeReference = ⟨f.typeName, some m.identity.text⟩
  apart : ∀ pair ∈ builtIn, pair.2.id ≠ x.id
  only : ∀ other ∈ m.factories, other.typeName = f.typeName → other = f
  typeName : TypeReference.PlainName f.typeName
  steady : f.Steady
  name : Identity.isName m.identity.name.toList = true
  culture : ∀ culture, m.identity.culture = some culture → ',' ∉ culture.toList

theorem Restorable.exports {tree : Storage.Tree} {results : List ScanResult} {m : LoadedModule}
    {f : Factory} {x : Component} (h : Restorable builtIn catalog tree results m f x) :
    Exports m f :=
  ⟨Catalog.plain_of_moduleIn h.content h.name h.culture, h.mem, h.only, h.steady⟩

/-- Every component that a scan finds was built by a factory of a module in a file. If this is a
restorable one, then an environment that is started again while the settings file says what was
saved knows the component without building it. It builds it when it is looked up, whatever has been
done before then, as long as the module stands alone under its name in the saved locations and no
other component takes the identifier. -/
theorem restart_restores (hreachable : Reachable builtIn config catalog e)
    {locations : List String} {scanning : Host} {results : List ScanResult}
    (hscan : ((e.scanAndUpdate locations).result scanning).1 = .ok results)
    (hnow : scanning.now.Valid) {capability : Capability} {x : Component}
    (hfound : (capability, x) ∈ pairsOf results) :
    (∃ m : LoadedModule, catalog.moduleIn scanning.tree m.path = .ok m ∧ ∃ f ∈ m.factories,
      ∃ serial, x = (f.construct serial).inModule m.identity.text) ∧
    ∀ m f, Restorable builtIn catalog scanning.tree results m f x → ∀ restarting : Host,
      scanning.tree.KeepsLinks ((e.scanAndUpdate locations).after scanning).tree
        config.componentsPath →
      restarting.tree.read config.componentsPath =
        ((e.scanAndUpdate locations).after scanning).tree.read config.componentsPath →
      restarting.Calm →
      ∃ next, (start builtIn config catalog).result restarting = .ok next ∧
        x.id ∈ next.registry.knownIds capability ∧
        next.registry.typeReference x.id = some x.typeReference ∧
        next.registry.present? capability x.id = none ∧
        ∀ (h : Host) (actions : List Registry.Action),
          (∀ action ∈ actions, action.Asks (Resolver.Unmistaken m)) →
          Throughout (Shelved catalog config.moduleSuffix (contributing results) m)
            next.registry h actions →
          Within (Change.Others x.id) next.registry h actions →
          ∃ y, ((((next.registry.run actions).result h).lookUp capability x.id).result
              ((next.registry.run actions).after h)).1 = some y ∧
            (∃ serial, y = (f.construct serial).inModule m.identity.text) ∧
            y.id = x.id ∧ y.capabilities = x.capabilities := by
  obtain ⟨hadded, hconfig, hstore, hcatalog⟩ := hreachable.started_with
  obtain ⟨horigins, saving, saved, hreading, hsave, hafter⟩ := saved_of_scanAndUpdate hscan
  rw [hcatalog] at horigins
  rw [hstore] at hsave hafter
  obtain ⟨path, module, factory, serial, hmodule, hfactory, hbuilt, hcapability⟩ :=
    horigins _ hfound
  obtain ⟨-, -, -, -, hpath, -⟩ := Catalog.moduleIn_eq_ok hmodule
  refine ⟨⟨module, hpath ▸ hmodule, factory, hfactory, serial, hbuilt⟩, ?_⟩
  intro m f hrestorable restarting hkeeps hread hcalm
  have hexports := hrestorable.exports
  have htyped := hrestorable.typed _ hfound rfl
  have hlists := ComponentIndex.lists_ofResults hfound
  have hload : (storeFor config).load.result restarting =
      .ok (some ((ComponentIndex.ofResults results).stamped saving.now)) := by
    rw [hafter, ← hreading.tree] at hkeeps
    rw [hafter] at hread
    refine SettingsStore.load_save hsave hlists.isEmpty_eq_false ?_ hkeeps hread hcalm ?_
    · rw [hreading.now]
      exact hnow
    · exact Nat.lt_of_lt_of_le Nat.one_pos (Nat.le_max_right _ _)
  have hreferences := ComponentIndex.get?_typeReferences_ofResults hfound
    fun pair hpair hid => congrArg TypeReference.text (hrestorable.typed pair hpair hid)
  obtain ⟨r, hseeded, hready, habsent, hknown⟩ := ready_seeded hadded hload hrestorable.apart
    (fun _ => ComponentIndex.mem_locations_ofResults) hreferences
    (hrestorable.typeName.parse_text hexports.plain)
  refine ⟨⟨config, r⟩, ?_, hknown _ hlists, ?_, habsent _, ?_⟩
  · rw [result_start, resolverFor, hseeded]
    rfl
  · rw [hready.reference, htyped]
  · intro h actions hasks hthroughout hwithin
    have hlawful := @lawful_searches catalog config.moduleSuffix (contributing results) m
      (Identity.readable_iff_plain.mpr hexports.plain)
    have hlast := hready.steps hexports (steps_run hlawful hasks hthroughout hwithin)
    obtain ⟨first, rfl⟩ := hrestorable.built
    obtain ⟨serial, hlooked⟩ := hlast.result_lookUp hexports rfl
      (Component.implements_iff.mpr hcapability) hthroughout.last
    refine ⟨_, hlooked, ⟨serial, rfl⟩, ?_, ?_⟩
    · exact (hexports.steady serial first).1
    · exact (hexports.steady serial first).2

def desk : Host where
  disk.tree.limits := .usual
  disk.tree.entries := ⟨⟨[
    (["desk"], .folder),
    (["pack"], .folder),
    (["pack", "Ink.module"], .file (.text
      "\x7b\"name\": \"Ink\", \"entry_point\": \"ink\"\x7d"))]⟩, .empty⟩
  disk.tree.here := []
  disk.prospect := .clear
  aliases := []
  trace := []
  births := 0
  now := ⟨2024, 1, 1, 0, 0, 0, 0⟩

/-- All that can be compared of a component: a role that the engine uses is a function. -/
structure Outline where
  id : Uuid
  typeReference : TypeReference
  kinds : List (Capability × Kind)
  serial : Option Nat
  deriving DecidableEq

def outline (c : Component) : Outline where
  id := c.id
  typeReference := c.typeReference
  kinds := c.roles.entries.map fun entry => (entry.1, entry.2.kind)
  serial := c.serial

/-- It is everything if the engine uses none of the roles. -/
theorem eq_of_outline {c x : Component} (h : outline c = outline x)
    (hx : ∀ entry ∈ x.roles.entries, ∃ type, entry.2 = .foreign type) : c = x := by
  have hentries : ∀ {l l' : List (Capability × Role)},
      l.map (fun entry => (entry.1, entry.2.kind)) = l'.map (fun entry => (entry.1, entry.2.kind)) →
        (∀ entry ∈ l', ∃ type, entry.2 = .foreign type) → l = l' := by
    intro l l' hsame hl'
    induction l generalizing l' with
    | nil => exact (List.map_eq_nil_iff.mp hsame.symm).symm
    | cons entry l ih =>
        obtain ⟨other, l', rfl, hfirst, hrest⟩ := List.map_eq_cons_iff.mp hsame.symm
        obtain ⟨⟨type, htype⟩, hl'⟩ := List.forall_mem_cons.mp hl'
        obtain ⟨hname, hkind⟩ := Prod.mk.inj hfirst
        rw [htype] at hkind
        have hrole : entry.2 = .foreign type := by
          cases hentry : entry.2 <;> simp_all [Role.kind]
        rw [ih hrest.symm hl', Prod.ext hname.symm (hrole.trans htype.symm)]
  simp only [outline, Outline.mk.injEq] at h
  obtain ⟨hid, hreference, hroles, hserial⟩ := h
  have hroles := SortedMap.entries_injective (hentries hroles hx)
  cases c
  cases x
  cases hid
  cases hreference
  cases hroles
  cases hserial
  rfl

/-- The pen of the pack is there again, although it was removed before anyone looked for it. -/
theorem restart_restores_desk :
    let pen : Blueprint := ⟨"Pen", .ofNat 1, ["draw"], none, none, [], ""⟩
    let pencil : Blueprint := ⟨"Pencil", .ofNat 2, ["draw"], none, none, [], ""⟩
    let config : EngineConfig := ⟨⟨"/desk"⟩, "components.json", ".module", ".module", 1, 0, .strict⟩
    let catalog : Catalog := ⟨[("ink", [pen.factory])]⟩
    let m : LoadedModule := ⟨.named "Ink", ⟨"/pack/Ink.module"⟩, [], [pen.factory]⟩
    let x : Component := (pen.factory.construct 0).inModule m.identity.text
    let actions : List Registry.Action := [.addLocation "/attic",
      .add "draw" (pencil.factory.construct 0), .remove "draw" x]
    ∃ e results next, (start [] config catalog).result desk = .ok e ∧
      let saved := (e.scanAndUpdate ["/pack"]).after desk
      ((e.scanAndUpdate ["/pack"]).result desk).1 = .ok results ∧
        Restorable [] catalog desk.tree results m pen.factory x ∧
        (start [] config catalog).result saved = .ok next ∧
        Throughout (Shelved catalog ".module" (contributing results) m) next.registry saved
          actions ∧
        next.registry.present? "draw" x.id = none ∧ ∃ y,
          ((((next.registry.run actions).result saved).lookUp "draw" x.id).result
            ((next.registry.run actions).after saved)).1 = some y ∧ y.id = x.id := by
  intro pen pencil config catalog m x actions
  have hfacts : ((start [] config catalog).result desk).toOption.map (fun e =>
      let answer := ((e.scanAndUpdate ["/pack"]).result desk).1.toOption
      let saved := (e.scanAndUpdate ["/pack"]).after desk
      decide (answer.map (fun results => (pairsOf results).map fun (pair : Capability × Component) =>
          (pair.1, outline pair.2)) =
          some [("draw", outline x)] ∧ answer.map contributing = some ["/pack"] ∧
        saved.disk.prospect = .clear ∧
        (Manifest.inTree saved.tree m.path).toOption = some ⟨"Ink", none, none, none, "ink", []⟩ ∧
        saved.mount? "/pack" = some ⟨"/pack", ⟨"/pack"⟩⟩ ∧
        saved.tree.listing ⟨"/pack"⟩ ".module" = [m.path])) = some true := by
    decide +kernel
  cases hstart : (start [] config catalog).result desk with
  | error failure =>
      rw [hstart] at hfacts
      cases hfacts
  | ok e =>
  rw [hstart] at hfacts
  have hfacts := of_decide_eq_true (Option.some.inj hfacts)
  cases hscan : ((e.scanAndUpdate ["/pack"]).result desk).1 with
  | error failure =>
      rw [hscan] at hfacts
      cases hfacts.1
  | ok results =>
  rw [hscan] at hfacts
  obtain ⟨hpairs, hlocations, hprospect, hmanifest, hmount, hlisting⟩ := hfacts
  replace hpairs : pairsOf results = [("draw", x)] := by
    obtain ⟨pair, rest, hresults, hpair, hrest⟩ := List.map_eq_cons_iff.mp (Option.some.inj hpairs)
    obtain ⟨hname, houtline⟩ := Prod.mk.inj hpair
    obtain rfl := List.map_eq_nil_iff.mp hrest
    have hsame : pair.2 = x := eq_of_outline houtline fun entry hentry =>
      ⟨"draw", congrArg Prod.snd (List.mem_singleton.mp hentry)⟩
    rw [hresults, ← hname, ← hsame]
  replace hlocations : contributing results = ["/pack"] := Option.some.inj hlocations
  have hcontent : ∀ tree, (Manifest.inTree tree m.path).toOption =
      some ⟨"Ink", none, none, none, "ink", []⟩ → catalog.moduleIn tree m.path = .ok m :=
    fun tree htree => Catalog.moduleIn_of_inTree (toOption_eq_some.mp htree) rfl rfl rfl
  have htrimmed : Text.Trimmed "Pen".toList := by
    have htrim : Text.trim "Pen".toList = "Pen".toList := by decide
    exact htrim ▸ Text.trimmed_trim "Pen".toList
  have hrestorable : Restorable [] catalog desk.tree results m pen.factory x := by
    refine ⟨hcontent desk.tree (by decide +kernel), by simp [m], ⟨0, rfl⟩, ?_, by simp,
      by simp [m], ⟨by decide, by decide, htrimmed⟩, pen.factory_steady, by decide, ?_⟩
    · rw [hpairs]
      intro pair hpair _
      rw [List.mem_singleton.mp hpair]
      rfl
    · intro culture hculture
      cases hculture
  have hshelved : Shelved catalog ".module" (contributing results) m
      ((e.scanAndUpdate ["/pack"]).after desk) := by
    rw [hlocations]
    refine Shelved.of_only (Host.calm_of_clear hprospect) (hcontent _ hmanifest) hmount hlisting ?_
    decide
  have hkeeps : desk.tree.KeepsLinks ((e.scanAndUpdate ["/pack"]).after desk).tree
      config.componentsPath := by
    apply Storage.Tree.keepsLinks_of_entries
    simp [Host.tree, desk]
  obtain ⟨next, hnext, -, -, habsent, hlooked⟩ :=
    (restart_restores (.started hstart) hscan ⟨by decide, by decide⟩
      (by rw [hpairs]; exact List.mem_singleton.mpr rfl)).2 m pen.factory hrestorable
      ((e.scanAndUpdate ["/pack"]).after desk) hkeeps rfl hshelved.calm
  have hthroughout : Throughout (Shelved catalog ".module" (contributing results) m) next.registry
      ((e.scanAndUpdate ["/pack"]).after desk) actions :=
    ⟨hshelved, hshelved, hshelved, hshelved⟩
  have hwithin : Within (Change.Others x.id) next.registry
      ((e.scanAndUpdate ["/pack"]).after desk) actions := by
    refine ⟨by simp [Action.changes], fun change hchange => ?_, ?_, trivial⟩
    · obtain ⟨pair, hpair, rfl⟩ := List.mem_map.mp hchange
      have honly : pair = ("draw", pencil.factory.construct 0) :=
        List.mem_singleton.mp ((List.takeWhile_sublist _).subset hpair)
      rw [honly]
      change (Uuid.ofNat 2) ≠ .ofNat 1
      decide
    · intro change hchange
      rw [List.mem_singleton.mp hchange]
      trivial
  obtain ⟨y, hy, -, hid, -⟩ :=
    hlooked _ actions (by simp [actions, Action.Asks]) hthroughout hwithin
  exact ⟨e, results, next, rfl, hscan, hrestorable, hnext, hthroughout, habsent, y, hy, hid⟩

end Environment

end PluginHost
