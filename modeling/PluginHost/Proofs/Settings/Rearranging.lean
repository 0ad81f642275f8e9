import Mathlib.Data.List.Forall2
import PluginHost.Component.Factory
import PluginHost.Proofs.Settings.Contents

/-!
An index holds what scans have found and nothing else, and it is closed: what is listed has a type
reference, and nothing else has one. The order of the results, and of the pairs in them, matters
only where components with one identifier have different type references.
-/

namespace PluginHost

variable {results others : List ScanResult} {capability : Capability} {id : Uuid}

/-- The same source with the pairs in another order. -/
def ScanResult.Shuffled (result other : ScanResult) : Prop :=
  result.mountUri = other.mountUri ∧ result.components.Perm other.components

/-- The same results in another order, each with its pairs in any order. -/
def Rearranged (results others : List ScanResult) : Prop :=
  ∃ reordered, results.Perm reordered ∧ List.Forall₂ ScanResult.Shuffled reordered others

theorem ScanResult.hasComponents_iff {result : ScanResult} :
    result.hasComponents = true ↔ ∃ pair, pair ∈ result.components := by
  rw [hasComponents, Bool.not_eq_true', List.isEmpty_eq_false_iff_exists_mem]

theorem exists_lastWith_iff {pairs : List (Capability × Component)} :
    (∃ component, lastWith id pairs = some component) ↔ ∃ capability, id ∈ idsUnder capability pairs := by
  constructor
  · rintro ⟨component, hlast⟩
    obtain ⟨⟨capability, hmem⟩, hid⟩ := exists_mem_of_lastWith hlast
    exact ⟨capability, mem_idsUnder.mpr ⟨_, hmem, rfl, hid⟩⟩
  · rintro ⟨capability, hmem⟩
    obtain ⟨pair, hpair, -, rfl⟩ := mem_idsUnder.mp hmem
    exact exists_lastWith hpair

namespace ComponentIndex

variable {index : ComponentIndex}

/-! Buckets. -/

/-- No capability is kept without an identifier. -/
def Filled (index : ComponentIndex) : Prop :=
  ∀ capability ids, index.capabilities.get? capability = some ids → SortedSet.toList ids ≠ []

theorem filled_enter (h : index.Filled) (uri : String) (pair : Capability × Component) :
    (index.enter uri pair).Filled := by
  intro capability ids hids
  simp only [enter, SortedMap.get?_insert] at hids
  split at hids
  · cases hids
    exact List.ne_nil_of_mem (SortedSet.mem_add.mpr (.inl rfl))
  · exact h capability ids hids

theorem filled_ofResults (results : List ScanResult) : (ofResults results).Filled := by
  have hfold : ∀ (ones : List (String × Capability × Component)) (index : ComponentIndex),
      index.Filled → (ones.foldl (fun index one => index.enter one.1 one.2) index).Filled := by
    intro ones
    induction ones with
    | nil => exact fun _ h => h
    | cons one rest ih => exact fun index h => ih _ (filled_enter h one.1 one.2)
  rw [ofResults_eq]
  apply hfold
  intro capability ids hids
  cases hids

/-- Buckets that are filled are known by what they list. -/
theorem Filled.capabilities_eq {other : ComponentIndex} (h : index.Filled) (h' : other.Filled)
    (hlists : ∀ capability id, index.Lists capability id ↔ other.Lists capability id) :
    index.capabilities = other.capabilities := by
  have hmore : ∀ {one two : ComponentIndex} {capability ids}, one.Filled →
      (∀ id, one.Lists capability id → two.Lists capability id) →
      one.capabilities.get? capability = some ids →
        ∃ ids', two.capabilities.get? capability = some ids' := by
    intro one two capability ids hone hinto hids
    obtain ⟨id, hid⟩ := List.exists_mem_of_ne_nil _ (hone capability ids hids)
    obtain ⟨ids', hids', -⟩ := hinto id ⟨ids, hids, hid⟩
    exact ⟨ids', hids'⟩
  apply SortedMap.ext_get?
  intro capability
  cases hids : index.capabilities.get? capability with
  | none =>
      cases hids' : other.capabilities.get? capability with
      | none => rfl
      | some ids' =>
          obtain ⟨ids, hthere⟩ := hmore h' (fun id => (hlists capability id).mpr) hids'
          rw [hids] at hthere
          cases hthere
  | some ids =>
      obtain ⟨ids', hids'⟩ := hmore h (fun id => (hlists capability id).mp) hids
      rw [hids']
      congr 1
      apply SortedSet.ext_mem
      intro id
      have hsame := hlists capability id
      simpa [Lists, hids, hids'] using hsame

/-! Another order. -/

theorem perm_entered_of_shuffled (h : List.Forall₂ ScanResult.Shuffled results others) :
    (entered results).Perm (entered others) := by
  induction h with
  | nil => exact .refl _
  | @cons result other results others hfirst _ ih =>
      obtain ⟨huri, hpairs⟩ := hfirst
      rw [entered, entered, List.flatMap_cons, List.flatMap_cons, huri]
      exact (hpairs.map _).append ih

theorem perm_entered (h : Rearranged results others) : (entered results).Perm (entered others) := by
  obtain ⟨reordered, hperm, hshuffled⟩ := h
  exact (hperm.flatMap_right _).trans (perm_entered_of_shuffled hshuffled)

theorem perm_pairsOf (h : Rearranged results others) : (pairsOf results).Perm (pairsOf others) := by
  rw [← map_entered, ← map_entered]
  exact (perm_entered h).map Prod.snd

theorem capabilities_rearranged (h : Rearranged results others) :
    (ofResults others).capabilities = (ofResults results).capabilities := by
  apply (filled_ofResults others).capabilities_eq (filled_ofResults results)
  intro capability id
  rw [lists_ofResults_iff, lists_ofResults_iff, mem_idsUnder, mem_idsUnder]
  simp only [(perm_pairsOf h).mem_iff]

theorem locations_rearranged (h : Rearranged results others) :
    (ofResults others).locations = (ofResults results).locations := by
  apply SortedSet.ext_mem
  intro uri
  rw [ofResults_eq, ofResults_eq, mem_locations_foldl, mem_locations_foldl]
  simp only [(perm_entered h).mem_iff]

/-- Where an identifier gets another type reference from other results with the same pairs, two
components have this identifier and different references. -/
theorem exists_different (hperm : (pairsOf results).Perm (pairsOf others))
    (hdiffers : (ofResults others).typeReferences.get? id ≠
      (ofResults results).typeReferences.get? id) :
    ∃ pair ∈ pairsOf results, ∃ other ∈ pairsOf results, pair.2.id = id ∧ other.2.id = id ∧
      pair.2.typeReference.text ≠ other.2.typeReference.text := by
  rw [get?_typeReferences, get?_typeReferences] at hdiffers
  have hsame : (∃ component, lastWith id (pairsOf results) = some component) ↔
      ∃ component, lastWith id (pairsOf others) = some component := by
    simp only [exists_lastWith_iff, mem_idsUnder, hperm.mem_iff]
  cases hlast : lastWith id (pairsOf results) with
  | none =>
      cases hlast' : lastWith id (pairsOf others) with
      | none => simp [hlast, hlast'] at hdiffers
      | some component =>
          obtain ⟨other, hother⟩ := hsame.mpr ⟨component, hlast'⟩
          rw [hlast] at hother
          cases hother
  | some component =>
      obtain ⟨component', hlast'⟩ := hsame.mp ⟨component, hlast⟩
      obtain ⟨⟨capability, hmem⟩, hid⟩ := exists_mem_of_lastWith hlast
      obtain ⟨⟨capability', hmem'⟩, hid'⟩ := exists_mem_of_lastWith hlast'
      refine ⟨_, hmem, _, hperm.mem_iff.mpr hmem', hid, hid', fun htexts => hdiffers ?_⟩
      rw [hlast, hlast', Option.map_some, Option.map_some, htexts]

/-- The index of some results lists an identifier under a capability if a pair of the two has been
found, a location if something has been found there, and for each identifier that it lists, and no
other, the type reference of the last component that has it; no bucket is empty, and all is empty if
nothing has been found. In another order the results have the same buckets and locations, and other
type references only for identifiers that come with different ones. -/
theorem ofResults_exact (results : List ScanResult) :
    let index := ofResults results
    (∀ capability id, index.Lists capability id ↔
      ∃ result ∈ results, ∃ component, (capability, component) ∈ result.components ∧
        component.id = id) ∧
    (∀ uri, uri ∈ SortedSet.toList index.locations ↔
      ∃ result ∈ results, result.mountUri = uri ∧ ∃ pair, pair ∈ result.components) ∧
    (∀ id, (∃ text, index.typeReferences.get? id = some text) ↔
      ∃ capability, index.Lists capability id) ∧
    (∀ id, index.typeReferences.get? id =
      (lastWith id (pairsOf results)).map (·.typeReference.text)) ∧
    index.Filled ∧
    (index.isEmpty = true ↔ ∀ result ∈ results, result.components = []) ∧
    ∀ others, Rearranged results others →
      (ofResults others).capabilities = index.capabilities ∧
      (ofResults others).locations = index.locations ∧
      ∀ id, (ofResults others).typeReferences.get? id ≠ index.typeReferences.get? id →
        ∃ pair ∈ pairsOf results, ∃ other ∈ pairsOf results, pair.2.id = id ∧ other.2.id = id ∧
          pair.2.typeReference.text ≠ other.2.typeReference.text := by
  refine ⟨fun capability id => ?_, fun uri => ?_, fun id => ?_, get?_typeReferences results,
    filled_ofResults results, isEmpty_ofResults_iff, fun others hrearranged => ?_⟩
  · rw [lists_ofResults_iff, mem_idsUnder]
    constructor
    · rintro ⟨⟨under, component⟩, hpair, rfl, rfl⟩
      obtain ⟨result, hresult, hmem⟩ := List.mem_flatMap.mp hpair
      exact ⟨result, hresult, component, hmem, rfl⟩
    · rintro ⟨result, hresult, component, hmem, rfl⟩
      exact ⟨_, List.mem_flatMap.mpr ⟨result, hresult, hmem⟩, rfl, rfl⟩
  · rw [mem_locations_ofResults, contributing, List.mem_map]
    constructor
    · rintro ⟨result, hresult, huri⟩
      obtain ⟨hmem, hhas⟩ := List.mem_filter.mp hresult
      exact ⟨result, hmem, huri, ScanResult.hasComponents_iff.mp hhas⟩
    · rintro ⟨result, hmem, huri, hpair⟩
      exact ⟨result, List.mem_filter.mpr ⟨hmem, ScanResult.hasComponents_iff.mpr hpair⟩, huri⟩
  · simp only [get?_typeReferences, Option.map_eq_some_iff, lists_ofResults_iff,
      ← exists_lastWith_iff]
    constructor
    · rintro ⟨-, component, hlast, -⟩
      exact ⟨component, hlast⟩
    · rintro ⟨component, hlast⟩
      exact ⟨_, component, hlast, rfl⟩
  · exact ⟨capabilities_rearranged hrearranged, locations_rearranged hrearranged,
      fun id => exists_different (perm_pairsOf hrearranged)⟩

/-- Two drawers have a pen each with the same identifier, of which the last one counts; the ruler
beside it is not concerned. -/
theorem ofResults_exact_drawers :
    let pen : Blueprint := ⟨"Pen", .ofNat 1, ["draw", "write"], none, none, [], ""⟩
    let ruler : Blueprint := ⟨"Ruler", .ofNat 2, ["draw"], none, none, [], ""⟩
    let old : Component := (pen.factory.construct 0).inModule "Ink"
    let new : Component := (pen.factory.construct 1).inModule "Gel"
    let upper : ScanResult := ⟨"/upper", [], [], [("draw", old), ("write", old)]⟩
    let lower : ScanResult := ⟨"/lower", [], [],
      ("draw", ruler.factory.construct 2) :: new.registrations⟩
    let lowerToo : ScanResult := ⟨"/lower", [], [],
      new.registrations ++ [("draw", ruler.factory.construct 2)]⟩
    let bare : ScanResult := ⟨"/bare", [], [], []⟩
    let index := ofResults [upper, bare, lower]
    let other := ofResults [lowerToo, upper, bare]
    index.Lists "write" (.ofNat 1) ∧ "/bare" ∉ SortedSet.toList index.locations ∧
      index.typeReferences.get? (.ofNat 1) = some "Pen, Gel" ∧
      other.typeReferences.get? (.ofNat 1) = some "Pen, Ink" ∧
      other.capabilities = index.capabilities ∧ other.locations = index.locations ∧
      other.typeReferences.get? (.ofNat 2) = index.typeReferences.get? (.ofNat 2) := by
  intro pen ruler old new upper lower lowerToo bare index other
  have hrearranged : Rearranged [upper, bare, lower] [lowerToo, upper, bare] := by
    refine ⟨[lower, upper, bare], ?_, .cons ⟨rfl, ?_⟩ (.cons ⟨rfl, .refl _⟩ (.cons ⟨rfl, .refl _⟩ .nil))⟩
    · exact List.perm_append_singleton lower [upper, bare]
    · exact (List.perm_append_singleton _ _).symm
  obtain ⟨hlists, hlocations, -, hreferences, -, -, hothers⟩ :=
    ofResults_exact [upper, bare, lower]
  obtain ⟨hcapabilities, hsame, hdiffers⟩ := hothers _ hrearranged
  refine ⟨?_, ?_, ?_, ?_, hcapabilities, hsame, ?_⟩
  · exact (hlists "write" (.ofNat 1)).mpr ⟨upper, by simp, old, by simp [upper], rfl⟩
  · rw [hlocations]
    simp [upper, lower, bare]
  · rw [hreferences]
    decide
  · decide
  · by_contra hchanged
    obtain ⟨pair, hpair, one, hone, hid, hid', hdifferent⟩ := hdiffers _ hchanged
    revert hdifferent
    have hall : ∀ pair ∈ pairsOf [upper, bare, lower], pair.2.id = .ofNat 2 →
        pair.2.typeReference.text = "Ruler" := by decide
    rw [hall pair hpair hid, hall one hone hid']
    simp

end ComponentIndex

end PluginHost
