import PluginHost.Proofs.Collection
import PluginHost.Settings.Index

/-!
What an index of scan results lists: every component under its capability, with its type reference,
and every location that has contributed one.
-/

namespace PluginHost

/-- Everything that some scans have found. -/
def pairsOf (results : List ScanResult) : List (Capability × Component) :=
  results.flatMap ScanResult.components

/-- The mount points that have contributed components. -/
def contributing (results : List ScanResult) : List String :=
  (results.filter ScanResult.hasComponents).map ScanResult.mountUri

/-- The identifiers of those components that stand under a capability. -/
def idsUnder (capability : Capability) (pairs : List (Capability × Component)) : List Uuid :=
  (pairs.filter (·.1 = capability)).map (·.2.id)

/-- The last of some components that has this identifier. -/
def lastWith (id : Uuid) (pairs : List (Capability × Component)) : Option Component :=
  (pairs.findRev? (·.2.id = id)).map Prod.snd

/-- The last of those components under a capability that has this identifier. -/
def lastUnder (capability : Capability) (id : Uuid) (pairs : List (Capability × Component)) :
    Option Component :=
  lastWith id (pairs.filter (·.1 = capability))

@[simp] theorem pairsOf_nil : pairsOf [] = [] := rfl

@[simp] theorem pairsOf_cons (result : ScanResult) (rest : List ScanResult) :
    pairsOf (result :: rest) = result.components ++ pairsOf rest :=
  List.flatMap_cons

section

variable {id : Uuid} {pair : Capability × Component} {pairs more : List (Capability × Component)}

@[simp] theorem idsUnder_append (capability : Capability) :
    idsUnder capability (pairs ++ more) = idsUnder capability pairs ++ idsUnder capability more := by
  simp [idsUnder]

theorem mem_idsUnder {capability : Capability} :
    id ∈ idsUnder capability pairs ↔ ∃ pair ∈ pairs, pair.1 = capability ∧ pair.2.id = id := by
  simp only [idsUnder, List.mem_map, List.mem_filter, decide_eq_true_eq, and_assoc]

@[simp] theorem lastWith_nil : lastWith id [] = none := rfl

theorem lastWith_append :
    lastWith id (pairs ++ more) = (lastWith id more).or (lastWith id pairs) := by
  simp only [lastWith, List.findRev?_eq_find?_reverse, List.reverse_append, List.find?_append]
  cases more.reverse.find? (·.2.id = id) <;> rfl

theorem lastWith_cons : lastWith id (pair :: pairs) =
    (lastWith id pairs).or (if pair.2.id = id then some pair.2 else none) := by
  have hfirst : lastWith id [pair] = if pair.2.id = id then some pair.2 else none := by
    simp only [lastWith, List.findRev?_eq_find?_reverse, List.reverse_singleton,
      List.find?_singleton]
    split <;> simp_all
  rw [← List.singleton_append, lastWith_append, hfirst]

theorem exists_mem_of_lastWith {component : Component} (h : lastWith id pairs = some component) :
    (∃ capability, (capability, component) ∈ pairs) ∧ component.id = id := by
  rw [lastWith, List.findRev?_eq_find?_reverse, Option.map_eq_some_iff] at h
  obtain ⟨⟨capability, found⟩, hfound, rfl⟩ := h
  have hid := List.find?_some hfound
  exact ⟨⟨capability, List.mem_reverse.mp (List.mem_of_find?_eq_some hfound)⟩,
    of_decide_eq_true hid⟩

theorem exists_lastWith (h : pair ∈ pairs) :
    ∃ component, lastWith pair.2.id pairs = some component := by
  rw [lastWith, List.findRev?_eq_find?_reverse]
  cases hfound : pairs.reverse.find? (·.2.id = pair.2.id) with
  | none => simpa using List.find?_eq_none.mp hfound pair (List.mem_reverse.mpr h)
  | some found => exact ⟨found.2, rfl⟩

theorem lastWith_eq_none (h : ∀ pair ∈ pairs, pair.2.id ≠ id) : lastWith id pairs = none := by
  cases hlast : lastWith id pairs with
  | none => rfl
  | some component =>
      obtain ⟨⟨capability, hmem⟩, hid⟩ := exists_mem_of_lastWith hlast
      exact absurd hid (h _ hmem)

@[simp] theorem lastUnder_nil (capability : Capability) : lastUnder capability id [] = none := rfl

theorem lastUnder_cons {capability : Capability} : lastUnder capability id (pair :: pairs) =
    (lastUnder capability id pairs).or
      (if (capability, id) = (pair.1, pair.2.id) then some pair.2 else none) := by
  simp only [lastUnder, List.filter_cons, decide_eq_true_eq]
  by_cases hcapability : pair.1 = capability
  · simp [hcapability, lastWith_cons, eq_comm]
  · simp [hcapability, Ne.symm hcapability]

theorem exists_lastUnder {capability : Capability} (h : id ∈ idsUnder capability pairs) :
    ∃ component, lastUnder capability id pairs = some component := by
  obtain ⟨pair, hpair, rfl⟩ := List.mem_map.mp h
  exact exists_lastWith hpair

theorem isSome_lastUnder {capability : Capability} :
    (lastUnder capability id pairs).isSome = true ↔ id ∈ idsUnder capability pairs := by
  refine ⟨fun h => ?_, fun h => Option.isSome_iff_exists.mpr (exists_lastUnder h)⟩
  obtain ⟨component, hlast⟩ := Option.isSome_iff_exists.mp h
  obtain ⟨⟨under, hmem⟩, hid⟩ := exists_mem_of_lastWith hlast
  exact List.mem_map.mpr ⟨_, hmem, hid⟩

end

namespace ComponentIndex

def entered (results : List ScanResult) : List (String × Capability × Component) :=
  results.flatMap fun result => result.components.map fun pair => (result.mountUri, pair)

theorem ofResults_eq (results : List ScanResult) :
    ofResults results =
      (entered results).foldl (fun index one => index.enter one.1 one.2) empty := by
  have hfold : ∀ index : ComponentIndex, results.foldl
      (fun (index : ComponentIndex) result =>
        result.components.foldl (·.enter result.mountUri) index) index =
        (entered results).foldl (fun index one => index.enter one.1 one.2) index := by
    induction results with
    | nil => exact fun _ => rfl
    | cons result rest ih =>
        intro index
        simp only [entered] at ih
        rw [List.foldl_cons, ih, entered, List.flatMap_cons, List.foldl_append, List.foldl_map]
  exact hfold empty

theorem map_entered (results : List ScanResult) :
    (entered results).map Prod.snd = pairsOf results := by
  simp [entered, pairsOf, List.map_flatMap, Function.comp_def]

theorem mem_entered {results : List ScanResult} {one : String × Capability × Component}
    (h : one ∈ entered results) : one.1 ∈ contributing results := by
  obtain ⟨result, hresult, hone⟩ := List.mem_flatMap.mp h
  obtain ⟨pair, hpair, rfl⟩ := List.mem_map.mp hone
  refine List.mem_map.mpr ⟨result, List.mem_filter.mpr ⟨hresult, ?_⟩, rfl⟩
  cases hcomponents : result.components with
  | nil => simp [hcomponents] at hpair
  | cons first more => simp [ScanResult.hasComponents, hcomponents]

theorem exists_mem_entered_of_contributing {results : List ScanResult} {uri : String}
    (h : uri ∈ contributing results) : ∃ pair, (uri, pair) ∈ entered results := by
  obtain ⟨result, hresult, rfl⟩ := List.mem_map.mp h
  obtain ⟨hmem, hhas⟩ := List.mem_filter.mp hresult
  cases hcomponents : result.components with
  | nil => simp [ScanResult.hasComponents, hcomponents] at hhas
  | cons first more =>
      exact ⟨first, List.mem_flatMap.mpr ⟨result, hmem, by simp [hcomponents]⟩⟩

section

variable {ones : List (String × Capability × Component)} {index : ComponentIndex}

theorem mem_locations_foldl {uri : String} :
    uri ∈ SortedSet.toList
        (ones.foldl (fun index one => index.enter one.1 one.2) index).locations ↔
      uri ∈ SortedSet.toList index.locations ∨ ∃ pair, (uri, pair) ∈ ones := by
  induction ones generalizing index with
  | nil => simp
  | cons one rest ih =>
      obtain ⟨first, pair⟩ := one
      rw [List.foldl_cons, ih]
      simp only [enter, SortedSet.mem_add, List.mem_cons, Prod.mk.injEq]
      constructor
      · rintro ((rfl | h) | ⟨other, h⟩)
        · exact .inr ⟨pair, .inl ⟨rfl, rfl⟩⟩
        · exact .inl h
        · exact .inr ⟨other, .inr h⟩
      · rintro (h | ⟨other, ⟨rfl, rfl⟩ | h⟩)
        · exact .inl (.inr h)
        · exact .inl (.inl rfl)
        · exact .inr ⟨other, h⟩

theorem get?_typeReferences_foldl (id : Uuid) :
    (ones.foldl (fun index one => index.enter one.1 one.2) index).typeReferences.get? id =
      ((lastWith id (ones.map Prod.snd)).map (·.typeReference.text)).or
        (index.typeReferences.get? id) := by
  induction ones generalizing index with
  | nil => rfl
  | cons one rest ih =>
      rw [List.foldl_cons, ih, List.map_cons, lastWith_cons]
      simp only [enter, SortedMap.get?_insert]
      by_cases hid : id = one.2.2.id
      · cases lastWith id (rest.map Prod.snd) <;> simp [hid]
      · cases lastWith id (rest.map Prod.snd) <;> simp [hid, Ne.symm hid]

def Lists (index : ComponentIndex) (capability : Capability) (id : Uuid) : Prop :=
  ∃ ids, index.capabilities.get? capability = some ids ∧ id ∈ SortedSet.toList ids

theorem lists_enter {capability : Capability} {id : Uuid} {uri : String}
    {pair : Capability × Component} : (index.enter uri pair).Lists capability id ↔
      index.Lists capability id ∨ pair.1 = capability ∧ pair.2.id = id := by
  unfold Lists
  simp only [enter, SortedMap.get?_insert]
  by_cases hcapability : capability = pair.1
  · subst hcapability
    cases hids : index.capabilities.get? pair.1 with
    | none => simp [eq_comm]
    | some ids => simp [eq_comm, or_comm]
  · simp [hcapability, Ne.symm hcapability]

theorem lists_foldl {capability : Capability} {id : Uuid} :
    (ones.foldl (fun index one => index.enter one.1 one.2) index).Lists capability id ↔
      index.Lists capability id ∨ id ∈ idsUnder capability (ones.map Prod.snd) := by
  induction ones generalizing index with
  | nil => simp [idsUnder]
  | cons one rest ih =>
      rw [List.foldl_cons, ih, lists_enter, or_assoc, mem_idsUnder, mem_idsUnder]
      simp only [List.map_cons, List.mem_cons, or_and_right, exists_or, exists_eq_left]

end

theorem mem_locations_ofResults {results : List ScanResult} {uri : String} :
    uri ∈ SortedSet.toList (ofResults results).locations ↔ uri ∈ contributing results := by
  rw [ofResults_eq, mem_locations_foldl]
  constructor
  · rintro (h | ⟨pair, h⟩)
    · simp [empty] at h
    · exact mem_entered h
  · exact fun h => .inr (exists_mem_entered_of_contributing h)

/-- Of the components that share an identifier the last one gives the type reference. -/
theorem get?_typeReferences (results : List ScanResult) (id : Uuid) :
    (ofResults results).typeReferences.get? id =
      (lastWith id (pairsOf results)).map (·.typeReference.text) := by
  rw [ofResults_eq, get?_typeReferences_foldl, map_entered]
  simp [empty]

/-- Where all components with an identifier have one type reference, it is the one that is kept. -/
theorem get?_typeReferences_ofResults {results : List ScanResult}
    {pair : Capability × Component} (hpair : pair ∈ pairsOf results) {text : String}
    (hsame : ∀ other ∈ pairsOf results, other.2.id = pair.2.id →
      other.2.typeReference.text = text) :
    (ofResults results).typeReferences.get? pair.2.id = some text := by
  obtain ⟨component, hlast⟩ := exists_lastWith hpair
  obtain ⟨⟨capability, hmem⟩, hid⟩ := exists_mem_of_lastWith hlast
  rw [get?_typeReferences, hlast, Option.map_some, hsame _ hmem hid]

theorem lists_ofResults_iff {results : List ScanResult} {capability : Capability} {id : Uuid} :
    (ofResults results).Lists capability id ↔ id ∈ idsUnder capability (pairsOf results) := by
  rw [ofResults_eq, lists_foldl, map_entered]
  exact or_iff_right fun ⟨ids, hids, _⟩ => by cases hids

theorem lists_ofResults {results : List ScanResult} {pair : Capability × Component}
    (hpair : pair ∈ pairsOf results) : (ofResults results).Lists pair.1 pair.2.id :=
  lists_ofResults_iff.mpr (mem_idsUnder.mpr ⟨pair, hpair, rfl, rfl⟩)

theorem Lists.isEmpty_eq_false {index : ComponentIndex} {capability : Capability} {id : Uuid}
    (h : index.Lists capability id) : index.isEmpty = false := by
  obtain ⟨ids, hids, hmem⟩ := h
  have hvalue : ids ∈ index.capabilities.values :=
    List.mem_map.mpr ⟨(capability, ids), SortedMap.get?_eq_some_iff.mp hids, rfl⟩
  have hfull : SortedMap.isEmpty ids = false := by
    cases hentries : ids.entries with
    | nil => simp [SortedSet.toList, SortedMap.keys, hentries] at hmem
    | cons first more => simp [SortedMap.isEmpty, hentries]
  rw [Bool.eq_false_iff]
  intro hempty
  unfold isEmpty at hempty
  rw [List.all_eq_true] at hempty
  rw [hempty ids hvalue] at hfull
  cases hfull

theorem isEmpty_ofResults_iff {results : List ScanResult} :
    (ofResults results).isEmpty = true ↔ ∀ result ∈ results, result.components = [] := by
  constructor
  · intro hempty result hresult
    rw [List.eq_nil_iff_forall_not_mem]
    intro pair hpair
    have hlists := lists_ofResults (List.mem_flatMap.mpr ⟨result, hresult, hpair⟩)
    simp [hlists.isEmpty_eq_false] at hempty
  · intro hnone
    have hentered : entered results = [] := by
      rw [entered, List.flatMap_eq_nil_iff]
      intro result hresult
      rw [hnone result hresult]
      rfl
    rw [ofResults_eq, hentered]
    rfl

end ComponentIndex

end PluginHost
