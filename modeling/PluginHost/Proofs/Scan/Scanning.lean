import PluginHost.Proofs.Module.Loading
import PluginHost.Scan.Scanning

/-!
Scans only read. What they find was built by a factory of a module that stands in one of the files.
-/

namespace PluginHost

open HostM

variable {I : Host → Prop}

namespace Generator

theorem yields_run (hI : Host.Lasting I) (g : Generator) (id : Uuid) (mount : Mount) :
    Yields I (g.run id mount) fun _ => True :=
  fun h hh => ⟨trivial, hI h _ (g.reading id mount h) hh⟩

end Generator

namespace Scanning

theorem yields_ask (hI : Host.Lasting I) (mount : Mount) (component : Component) :
    Yields I (ask mount component) fun _ => True := by
  rw [ask]
  split
  · exact Yields.pure trivial
  · refine (Generator.yields_run hI _ component.id mount).bind fun found _ => ?_
    cases found with
    | ok found => exact Yields.pure trivial
    | error failure => exact (Host.yields_report hI _).bind fun _ _ => Yields.pure trivial

/-- The component was built by a factory of the module in the file. -/
def FoundIn (catalog : Catalog) (tree : Storage.Tree) (path : Path)
    (pair : Capability × Component) : Prop :=
  ∃ module factory serial, catalog.moduleIn tree path = .ok module ∧
    factory ∈ module.factories ∧
    pair.2 = (factory.construct serial).inModule module.identity.text ∧
    pair.1 ∈ pair.2.capabilities

theorem yields_instantiateAll (hI : Host.Lasting I) (module : LoadedModule) :
    Yields I module.instantiateAll fun components => ∀ component ∈ components,
      ∃ factory ∈ module.factories, ∃ serial,
        component = (factory.construct serial).inModule module.identity.text := by
  refine Yields.mapM fun factory hfactory => ?_
  refine (factory.yields_create hI).bind fun component hcomponent => Yields.pure ?_
  obtain ⟨serial, rfl⟩ := hcomponent
  exact ⟨factory, hfactory, serial, rfl⟩

theorem yields_loadAll {tree : Storage.Tree} (hI : Host.Lasting I)
    (htree : ∀ h, I h → h.tree = tree) (catalog : Catalog) (paths : List Path) :
    Yields I (loadAll catalog paths) fun pairs => ∀ pair ∈ pairs,
      ∃ path ∈ paths, FoundIn catalog tree path pair := by
  induction paths with
  | nil => exact Yields.pure (by simp)
  | cons path rest ih =>
      have hrest : ∀ pairs : List (Capability × Component),
          (∀ pair ∈ pairs, ∃ path ∈ rest, FoundIn catalog tree path pair) →
          ∀ pair ∈ pairs, ∃ other ∈ path :: rest, FoundIn catalog tree other pair := by
        intro pairs hall pair hpair
        obtain ⟨other, hother, hfound⟩ := hall pair hpair
        exact ⟨other, List.mem_cons_of_mem _ hother, hfound⟩
      refine (Catalog.yields_load hI htree catalog path).bind fun loaded hloaded => ?_
      cases loaded with
      | error failure => exact (Host.yields_report hI _).bind fun _ _ => ih.mono hrest
      | ok module =>
          refine (yields_instantiateAll hI module).bind fun components hcomponents => ?_
          refine ih.bind fun more hmore => Yields.pure fun pair hpair => ?_
          rcases List.mem_append.mp hpair with hpair | hpair
          · obtain ⟨component, hcomponent, hpair⟩ := List.mem_flatMap.mp hpair
            obtain ⟨capability, hcapability, rfl⟩ := List.mem_map.mp hpair
            obtain ⟨factory, hfactory, serial, rfl⟩ := hcomponents component hcomponent
            exact ⟨path, List.mem_cons_self, module, factory, serial, hloaded module rfl, hfactory,
              rfl, hcapability⟩
          · exact hrest more hmore pair hpair

theorem yields_findComponents {tree : Storage.Tree} (hI : Host.Lasting I)
    (htree : ∀ h, I h → h.tree = tree) (catalog : Catalog) (suffix : String) (mount : Mount) :
    Yields I (findComponents catalog suffix mount) fun pairs => ∀ pair ∈ pairs,
      ∃ path, FoundIn catalog tree path pair := by
  refine (Host.yields_list hI mount.root suffix).bind fun listed _ => ?_
  cases listed with
  | error fault => exact (Host.yields_report hI _).bind fun _ _ => Yields.pure (by simp)
  | ok files =>
      refine (yields_loadAll hI htree catalog files).mono fun pairs hpairs pair hpair => ?_
      obtain ⟨path, -, hfound⟩ := hpairs pair hpair
      exact ⟨path, hfound⟩

end Scanning

end PluginHost
