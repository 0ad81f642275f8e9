import PluginHost.Proofs.Engine.Restart
import PluginHost.Proofs.Registry.Holdings

/-!
What an environment knows that comes to life on the files of another one which has scanned: what is
built in, what was found, and nothing else. This takes no more than that the settings file can be
read. It need not be so after it was written, for a link in the place of the temporary file.
-/

namespace PluginHost

namespace Environment

open HostM Registry

variable {builtIn : List (Capability × Component)} {config : EngineConfig} {catalog : Catalog}
  {e : Environment}

/-- The last component with an identifier that a scan has found, and the module in a file that has
built it. -/
structure Provided (catalog : Catalog) (tree : Storage.Tree) (results : List ScanResult)
    (id : Uuid) (m : LoadedModule) (component : Component) : Prop where
  last : lastWith id (pairsOf results) = some component
  content : catalog.moduleIn tree m.path = .ok m
  built : ∃ f ∈ m.factories, ∃ serial, component = (f.construct serial).inModule m.identity.text

theorem exists_provided {tree : Storage.Tree} {results : List ScanResult}
    (horigins : ∀ pair ∈ pairsOf results, ∃ path, Scanning.FoundIn catalog tree path pair)
    {pair : Capability × Component} (hpair : pair ∈ pairsOf results) :
    ∃ m component, Provided catalog tree results pair.2.id m component := by
  obtain ⟨component, hlast⟩ := exists_lastWith hpair
  obtain ⟨⟨capability, hmem⟩, -⟩ := exists_mem_of_lastWith hlast
  obtain ⟨path, m, factory, serial, hmodule, hfactory, hbuilt, -⟩ := horigins _ hmem
  obtain ⟨-, -, -, -, rfl, -⟩ := Catalog.moduleIn_eq_ok hmodule
  exact ⟨m, component, hlast, hmodule, factory, hfactory, serial, hbuilt⟩

/-- If the settings file can be read after a scan that has found components, and as long as it says
the same, an environment can be started again with it. It has what is built in, knows beside it what
was found and nothing else, and looks for modules where this was found. For an identifier that is
not built in it has the type reference that the scan has left, unless this cannot be read back: the
type name must be a plain one, and the module's name must not begin with a blank. -/
theorem start_reloads (hreachable : Reachable builtIn config catalog e)
    {locations : List String} {scanning restarting : Host} {results : List ScanResult}
    {text : String} (hscan : ((e.scanAndUpdate locations).result scanning).1 = .ok results)
    (hnow : scanning.now.Valid) (hfound : pairsOf results ≠ [])
    (hthere : ((e.scanAndUpdate locations).after scanning).tree.read config.componentsPath =
      .ok text)
    (hread : restarting.tree.read config.componentsPath = .ok text) (hcalm : restarting.Calm) :
    ∃ next, (start builtIn config catalog).result restarting = .ok next ∧
      (∀ capability, (next.registry.knownIds capability).Pairwise (fun a b => compare a b = .lt) ∧
        ∀ id, id ∈ next.registry.knownIds capability ↔
          id ∈ idsUnder capability builtIn ∨ id ∈ idsUnder capability (pairsOf results)) ∧
      (∀ capability id, next.registry.isPresent capability id = true ↔
        id ∈ idsUnder capability builtIn) ∧
      (next.registry.resolver.locations.Pairwise
          (fun a b => Text.Hex.octetsOf a.toList < Text.Hex.octetsOf b.toList) ∧
        ∀ location, location ∈ next.registry.resolver.locations ↔
          location ∈ contributing results) ∧
      ∀ pair ∈ pairsOf results, (∀ other ∈ builtIn, other.2.id ≠ pair.2.id) →
        ∃ m component, Provided catalog scanning.tree results pair.2.id m component ∧
          ((e.scanAndUpdate locations).result scanning).2.registry.typeReference pair.2.id =
            some component.typeReference ∧
          (TypeReference.PlainName component.typeReference.typeName →
            (∀ c, m.identity.name.toList.head? = some c → Text.isBlank c = false) →
            next.registry.typeReference pair.2.id = some component.typeReference) := by
  obtain ⟨hadded, hconfig, hstore, hcatalog⟩ := hreachable.started_with
  obtain ⟨horigins, saving, saved, hreading, hsave, hafter⟩ := saved_of_scanAndUpdate hscan
  obtain ⟨r, r', -, -, -, -, hregistered, -, hlast, -⟩ := scanAndUpdate_eq_ok hscan
  have henlisted := enlisted_addResults hregistered
  rw [hcatalog] at horigins
  rw [hstore] at hsave hafter
  have hfull : (ComponentIndex.ofResults results).isEmpty = false := by
    obtain ⟨pair, hpair⟩ := List.exists_mem_of_ne_nil _ hfound
    exact (ComponentIndex.lists_ofResults hpair).isEmpty_eq_false
  have hload : (storeFor config).load.result restarting =
      .ok (some ((ComponentIndex.ofResults results).stamped saving.now)) := by
    rw [hafter] at hthere
    refine SettingsStore.load_save_of_read hsave hfull ?_ hthere hread hcalm ?_
    · rw [hreading.now]
      exact hnow
    · exact Nat.lt_of_lt_of_le Nat.one_pos (Nat.le_max_right _ _)
  obtain ⟨next, hseeded, hknown, hpresent, hlocations, hreferences⟩ :=
    enlisted_seeded rfl hadded hload
  refine ⟨⟨config, next⟩, ?_, fun capability => ⟨next.pairwise_knownIds capability, fun id => ?_⟩,
    hpresent, ⟨?_, fun location => ?_⟩, fun pair hpair hapart => ?_⟩
  · rw [result_start, hseeded]
    rfl
  · exact (hknown capability id).trans (or_congr_right ComponentIndex.lists_ofResults_iff)
  · rw [hlocations]
    exact (SortedSet.pairwise_toList _).imp Text.octetsOf_lt_of_compare
  · rw [hlocations]
    exact ComponentIndex.mem_locations_ofResults
  · obtain ⟨m, component, hprovided⟩ := exists_provided horigins hpair
    obtain ⟨f, hf, serial, hbuilt⟩ := hprovided.built
    refine ⟨m, component, hprovided, ?_, fun hplain hhead => ?_⟩
    · rw [hlast, henlisted.reference, hprovided.last]
      rfl
    refine hreferences _ component.typeReference.text _ hapart ?_ ?_
    · refine (ComponentIndex.get?_typeReferences results pair.2.id).trans ?_
      rw [hprovided.last]
      rfl
    · subst hbuilt
      exact hplain.parse_text_of_head hhead

/-- A pencil is built in, and the pen of the pack is known beside it. -/
theorem start_reloads_desk :
    let pen : Blueprint := ⟨"Pen", .ofNat 1, ["draw"], none, none, [], ""⟩
    let pencil : Blueprint := ⟨"Pencil", .ofNat 2, ["draw"], none, none, [], ""⟩
    let config : EngineConfig := ⟨⟨"/desk"⟩, "components.json", ".module", ".module", 1, 0, .strict⟩
    let catalog : Catalog := ⟨[("ink", [pen.factory])]⟩
    let builtIn : List (Capability × Component) := [("draw", pencil.factory.construct 0)]
    ∃ e results text next, (start builtIn config catalog).result desk = .ok e ∧
      ((e.scanAndUpdate ["/pack"]).result desk).1 = .ok results ∧ pairsOf results ≠ [] ∧
      let saved := (e.scanAndUpdate ["/pack"]).after desk
      saved.tree.read config.componentsPath = .ok text ∧ saved.Calm ∧
        (start builtIn config catalog).result saved = .ok next ∧
        .ofNat 1 ∈ next.registry.knownIds "draw" ∧ .ofNat 2 ∈ next.registry.knownIds "draw" ∧
        next.registry.isPresent "draw" (.ofNat 1) = false ∧
        next.registry.isPresent "draw" (.ofNat 2) = true ∧
        "/pack" ∈ next.registry.resolver.locations ∧
        next.registry.typeReference (.ofNat 1) =
          some ⟨"Pen", some "Ink, Culture=neutral, PublicKey=null"⟩ := by
  intro pen pencil config catalog builtIn
  have hfacts : ((start builtIn config catalog).result desk).toOption.map (fun e =>
      let answer := ((e.scanAndUpdate ["/pack"]).result desk).1.toOption
      let saved := (e.scanAndUpdate ["/pack"]).after desk
      decide (answer.map (idsUnder "draw" ∘ pairsOf) = some [.ofNat 1] ∧
        answer.map (fun results => (lastWith (.ofNat 1) (pairsOf results)).map (·.typeReference)) =
          some (some ⟨"Pen", some "Ink, Culture=neutral, PublicKey=null"⟩) ∧
        answer.map contributing = some ["/pack"] ∧ saved.disk.prospect = .clear ∧
        (saved.tree.read config.componentsPath).toOption.isSome = true)) = some true := by
    decide +kernel
  obtain ⟨e, hstart, hfacts⟩ := map_toOption_eq_some.mp hfacts
  obtain ⟨hids, hlast, hlocations, hprospect, hsome⟩ := of_decide_eq_true hfacts
  obtain ⟨results, hscan, hids⟩ := map_toOption_eq_some.mp hids
  rw [hscan] at hlast hlocations
  replace hids : idsUnder "draw" (pairsOf results) = [.ofNat 1] := hids
  replace hlocations : contributing results = ["/pack"] := Option.some.inj hlocations
  have hcalm := Host.calm_of_clear hprospect
  obtain ⟨text, hread⟩ := Option.isSome_iff_exists.mp hsome
  rw [toOption_eq_some] at hread
  obtain ⟨pair, hpair, -, hid⟩ : ∃ pair ∈ pairsOf results, pair.1 = "draw" ∧ pair.2.id = .ofNat 1 :=
    mem_idsUnder.mp (by simp [hids])
  have hfound : pairsOf results ≠ [] := List.ne_nil_of_mem hpair
  obtain ⟨next, hnext, hknown, hpresent, hplaces, hreferences⟩ :=
    start_reloads (.started hstart) hscan ⟨by decide, by decide⟩ hfound hread hread hcalm
  have hbuiltIn : idsUnder "draw" builtIn = [.ofNat 2] := by decide
  refine ⟨e, results, text, next, hstart, hscan, hfound, hread, hcalm, hnext, ?_, ?_, ?_, ?_, ?_,
    ?_⟩
  · exact ((hknown "draw").2 _).mpr (.inr (by simp [hids]))
  · exact ((hknown "draw").2 _).mpr (.inl (by simp [hbuiltIn]))
  · rw [Bool.eq_false_iff, Ne, hpresent, hbuiltIn]
    decide
  · rw [hpresent, hbuiltIn]
    decide
  · exact (hplaces.2 _).mpr (by simp [hlocations])
  · have hapart : ∀ other ∈ builtIn, other.2.id ≠ pair.2.id := by
      rw [hid]
      decide
    obtain ⟨m, component, hprovided, -, hreference⟩ := hreferences pair hpair hapart
    have hlast : (lastWith pair.2.id (pairsOf results)).map (·.typeReference) = _ :=
      hid ▸ Option.some.inj hlast
    rw [hprovided.last, Option.map_some, Option.some.injEq] at hlast
    rw [hid] at hreference
    obtain ⟨f, -, serial, rfl⟩ := hprovided.built
    have hmodule : m.identity.text = "Ink, Culture=neutral, PublicKey=null" :=
      Option.some.inj (congrArg TypeReference.module hlast)
    rw [← hlast]
    refine hreference ?_ fun c hc => ?_
    · rw [hlast]
      refine ⟨by decide, by decide, ?_⟩
      have htrim : Text.trim "Pen".toList = "Pen".toList := by decide
      exact htrim ▸ Text.trimmed_trim "Pen".toList
    · have htext : m.identity.text.toList.head? = some c := by
        simp [Identity.text, hc]
      rw [hmodule] at htext
      cases htext
      decide

/-- The desk with a link in the place of the temporary file, which leads to the settings file. -/
def linkedDesk : Host :=
  { desk with disk.tree.entries :=
      ⟨⟨(["desk", "components.json.tmp"], .link "components.json") ::
        desk.disk.tree.entries.entries⟩, .empty⟩ }

/-- There writing fills the settings file, and then puts the link to it in its place. Everything
succeeds, but the next environment knows nothing of what was found. -/
theorem start_forgets_linkedDesk :
    let pen : Blueprint := ⟨"Pen", .ofNat 1, ["draw"], none, none, [], ""⟩
    let config : EngineConfig := ⟨⟨"/desk"⟩, "components.json", ".module", ".module", 1, 0, .strict⟩
    let catalog : Catalog := ⟨[("ink", [pen.factory])]⟩
    ∃ e results next, (start [] config catalog).result linkedDesk = .ok e ∧
      ((e.scanAndUpdate ["/pack"]).result linkedDesk).1 = .ok results ∧ pairsOf results ≠ [] ∧
      let saved := (e.scanAndUpdate ["/pack"]).after linkedDesk
      saved.Calm ∧ (start [] config catalog).result saved = .ok next ∧
        ¬ ∀ id, id ∈ next.registry.knownIds "draw" ↔
          id ∈ idsUnder "draw" [] ∨ id ∈ idsUnder "draw" (pairsOf results) := by
  intro pen config catalog
  have hfacts : ((start [] config catalog).result linkedDesk).toOption.map (fun e =>
      let answer := ((e.scanAndUpdate ["/pack"]).result linkedDesk).1.toOption
      let saved := (e.scanAndUpdate ["/pack"]).after linkedDesk
      decide (answer.map (idsUnder "draw" ∘ pairsOf) = some [.ofNat 1] ∧
        saved.disk.prospect = .clear ∧
        ((start [] config catalog).result saved).toOption.map (·.registry.knownIds "draw") =
          some [])) = some true := by
    decide +kernel
  obtain ⟨e, hstart, hfacts⟩ := map_toOption_eq_some.mp hfacts
  obtain ⟨hids, hprospect, hknown⟩ := of_decide_eq_true hfacts
  obtain ⟨results, hscan, hids⟩ := map_toOption_eq_some.mp hids
  obtain ⟨next, hnext, hknown⟩ := map_toOption_eq_some.mp hknown
  have hfound : .ofNat 1 ∈ idsUnder "draw" (pairsOf results) :=
    List.mem_of_mem_head? (congrArg List.head? hids)
  refine ⟨e, results, next, hstart, hscan, ?_, Host.calm_of_clear hprospect, hnext, fun hall => ?_⟩
  · intro hnil
    rw [hnil] at hfound
    cases hfound
  · have hlost := (hall (.ofNat 1)).mpr (.inr hfound)
    rw [hknown] at hlost
    cases hlost

end Environment

end PluginHost
