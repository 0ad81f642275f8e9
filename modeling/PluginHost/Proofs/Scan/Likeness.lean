import PluginHost.Proofs.Scan.Isolation
import PluginHost.Proofs.Settings.Contents

/-!
What scans have found, whichever objects were built of it. Neither the index of some results nor
what is known once they have been registered depends on the serial numbers of the components.
-/

namespace PluginHost

/-- The component without its serial number. -/
def Component.bare (c : Component) : Component :=
  { c with serial := none }

/-- All that the factory builds is the same, serial numbers aside. -/
def Factory.Uniform (f : Factory) : Prop :=
  ∀ m n, (f.construct m).bare = (f.construct n).bare

theorem Blueprint.factory_uniform (b : Blueprint) : b.factory.Uniform := fun _ _ => rfl

def barePair (pair : Capability × Component) : Capability × Component :=
  (pair.1, pair.2.bare)

/-- The source of a scan and what it has found of components, serial numbers aside. -/
def ScanResult.bare (result : ScanResult) : ScanResult where
  mountUri := result.mountUri
  templates := []
  localizations := []
  components := result.components.map barePair

section

variable (pairs : List (Capability × Component)) (results : List ScanResult)

theorem idsUnder_bare (capability : Capability) :
    idsUnder capability (pairs.map barePair) = idsUnder capability pairs := by
  rw [idsUnder, List.filter_map, List.map_map]
  rfl

theorem lastWith_bare (id : Uuid) :
    lastWith id (pairs.map barePair) = (lastWith id pairs).map Component.bare := by
  simp only [lastWith, List.findRev?_eq_find?_reverse, ← List.map_reverse, List.find?_map,
    Option.map_map]
  rfl

theorem pairsOf_bare : pairsOf (results.map ScanResult.bare) = (pairsOf results).map barePair := by
  simp [pairsOf, List.flatMap_map, List.map_flatMap, ScanResult.bare]

theorem contributing_bare : contributing (results.map ScanResult.bare) = contributing results := by
  have hhas : ScanResult.hasComponents ∘ ScanResult.bare = ScanResult.hasComponents := by
    funext result
    simp [ScanResult.hasComponents, ScanResult.bare]
  rw [contributing, List.filter_map, List.map_map, hhas]
  rfl

namespace ComponentIndex

theorem ofResults_bare : ofResults (results.map ScanResult.bare) = ofResults results := by
  have hresult : ∀ (index : ComponentIndex) (result : ScanResult),
      result.bare.components.foldl (·.enter result.bare.mountUri) index =
        result.components.foldl (·.enter result.mountUri) index := by
    intro index result
    rw [ScanResult.bare, List.foldl_map]
    rfl
  rw [ofResults, List.foldl_map]
  simp only [hresult]
  rfl

end ComponentIndex

end

section

variable {results others : List ScanResult}

/-- Alike results are registered alike. -/
theorem idsUnder_of_bare (h : others.map ScanResult.bare = results.map ScanResult.bare)
    (capability : Capability) :
    idsUnder capability (pairsOf others) = idsUnder capability (pairsOf results) := by
  rw [← idsUnder_bare, ← pairsOf_bare, h, pairsOf_bare, idsUnder_bare]

theorem lastReference_of_bare (h : others.map ScanResult.bare = results.map ScanResult.bare)
    (id : Uuid) : (lastWith id (pairsOf others)).map Component.typeReference =
      (lastWith id (pairsOf results)).map Component.typeReference := by
  have hreference : ∀ results : List ScanResult,
      (lastWith id (pairsOf results)).map Component.typeReference =
        (lastWith id (pairsOf (results.map ScanResult.bare))).map Component.typeReference := by
    intro results
    rw [pairsOf_bare, lastWith_bare, Option.map_map]
    rfl
  rw [hreference, h, ← hreference]

theorem contributing_of_bare (h : others.map ScanResult.bare = results.map ScanResult.bare) :
    contributing others = contributing results := by
  rw [← contributing_bare, h, contributing_bare]

theorem ComponentIndex.ofResults_of_bare
    (h : others.map ScanResult.bare = results.map ScanResult.bare) :
    ofResults others = ofResults results := by
  rw [← ofResults_bare, h, ofResults_bare]

end

namespace Build

theorem bare_component {build : Build} (huniform : build.factory.Uniform) (m n : Nat) :
    (build.component m).bare = (build.component n).bare :=
  congrArg (Component.inModule · build.module) (huniform m n)

/-- The same builds give the same pairs, whatever has been built before. -/
theorem bare_pairs {builds : List Build} (huniform : ∀ build ∈ builds, build.factory.Uniform)
    (m n : Nat) : (pairs builds m).map barePair = (pairs builds n).map barePair := by
  have hregistrations : ∀ c : Component,
      c.registrations.map barePair = c.bare.registrations := by
    intro c
    simp [Component.registrations, barePair, Component.capabilities, Component.bare]
  induction builds generalizing m n with
  | nil => rfl
  | cons build rest ih =>
      obtain ⟨hfirst, hrest⟩ := List.forall_mem_cons.mp huniform
      have hpairs : ∀ n, pairs (build :: rest) n =
          (build.component n).registrations ++ pairs rest (n + 1) := fun _ => rfl
      rw [hpairs, hpairs, List.map_append, List.map_append, hregistrations, hregistrations,
        bare_component hfirst m n, ih hrest (m + 1) (n + 1)]

end Build

end PluginHost
