import PluginHost.Proofs.Registry.Updating

/-!
How an update fails. Either one of the components stands under a capability that it does not
implement: then what comes before the first such component has been registered, and nothing saved.
Or saving fails: then all has been registered, and the settings file is as it was.
-/

namespace PluginHost

/-- In the order of the results, `bad` is the first component that does not implement what it stands
under; it is one of those in `holder`, which comes after `before`, and follows `good` there. -/
structure FirstBad (results before : List ScanResult) (holder : ScanResult)
    (good : List (Capability × Component)) (bad : Capability × Component) : Prop where
  results : ∃ rest, results = before ++ holder :: rest
  holder : ∃ more, holder.components = good ++ bad :: more
  good : ∀ pair ∈ pairsOf before ++ good, pair.2.implements pair.1 = true
  bad : bad.2.implements bad.1 = false

/-- Where this text cannot be written, what is there stays. -/
def Storage.Tree.Spares (t : Tree) (path : Path) (text : String) : Prop :=
  ∀ fault t', t.write path text = (.error fault, t') → t'.read path = t.read path

theorem exists_first {α : Type} {p : α → Bool} {l : List α} (h : ∃ a ∈ l, p a = false) :
    ∃ before a after, l = before ++ a :: after ∧ (∀ b ∈ before, p b = true) ∧ p a = false := by
  obtain ⟨a, ha, hp⟩ := h
  have hfound : (l.find? fun a => !p a).isSome = true := by
    rw [List.find?_isSome]
    exact ⟨a, ha, by simp [hp]⟩
  obtain ⟨first, hfirst⟩ := Option.isSome_iff_exists.mp hfound
  obtain ⟨hnot, before, after, heq, hbefore⟩ := List.find?_eq_some_iff_append.mp hfirst
  exact ⟨before, first, after, heq, by simpa using hbefore, by simpa using hnot⟩

theorem exists_firstBad {results : List ScanResult}
    (h : ∃ pair ∈ pairsOf results, pair.2.implements pair.1 = false) :
    ∃ before holder good bad, FirstBad results before holder good bad := by
  obtain ⟨pair, hpair, hbad⟩ := h
  obtain ⟨result, hresult, hpair⟩ := List.mem_flatMap.mp hpair
  have hholds : ∃ result ∈ results,
      (result.components.all fun pair => pair.2.implements pair.1) = false :=
    ⟨result, hresult, List.all_eq_false.mpr ⟨pair, hpair, by simp [hbad]⟩⟩
  obtain ⟨before, holder, rest, hresults, hbefore, hholder⟩ := exists_first hholds
  have hone : ∃ pair ∈ holder.components, pair.2.implements pair.1 = false := by
    simpa using List.all_eq_false.mp hholder
  obtain ⟨good, bad, more, hcomponents, hgood, hbad⟩ := exists_first hone
  refine ⟨before, holder, good, bad, ⟨rest, hresults⟩, ⟨more, hcomponents⟩, ?_, hbad⟩
  rw [List.forall_mem_append]
  refine ⟨fun pair hpair => ?_, hgood⟩
  obtain ⟨result, hresult, hpair⟩ := List.mem_flatMap.mp hpair
  exact List.all_eq_true.mp (hbefore result hresult) pair hpair

theorem FirstBad.mem {results before : List ScanResult} {holder : ScanResult}
    {good : List (Capability × Component)} {bad : Capability × Component}
    (h : FirstBad results before holder good bad) : bad ∈ pairsOf results := by
  obtain ⟨rest, rfl⟩ := h.results
  obtain ⟨more, hcomponents⟩ := h.holder
  exact List.mem_flatMap.mpr ⟨holder, by simp, by simp [hcomponents]⟩

namespace Registry

open HostM

variable {r r' : Registry} {pairs more : List (Capability × Component)}

/-- The locations and then the components have been registered in turn. The registry knows all of them
and what it had before, and where components share an identifier it has the last one. -/
structure Enrolled (locations : List String) (pairs : List (Capability × Component))
    (r r' : Registry) : Prop where
  inTurn : (locations.foldl addLocation r).addAll pairs = (.ok (), r')
  enlisted : Enlisted pairs r r'
  present : ∀ capability id, r'.present? capability id =
    (lastUnder capability id pairs).or (r.present? capability id)
  located : ∀ location, location ∈ r'.resolver.locations ↔
    location ∈ locations ∨ location ∈ r.resolver.locations

theorem enrolled_of_addAll {locations : List String}
    (h : (locations.foldl addLocation r).addAll pairs = (.ok (), r')) :
    Enrolled locations pairs r r' := by
  have hlocated := h
  rw [foldl_addLocation] at hlocated
  obtain ⟨henlisted, hresolver⟩ := enlisted_addAll hlocated
  obtain ⟨all, hfold, hmem⟩ := Resolver.foldl_addLocation locations r.resolver
  refine ⟨h, ⟨henlisted.known, henlisted.reference⟩, fun capability id => ?_, fun location => ?_⟩
  · exact present?_addAll hlocated capability id
  · rw [hresolver, hfold]
    exact hmem location

theorem addAll_of_bad (h : r.addAll pairs = (.ok (), r')) {bad : Capability × Component}
    (hbad : bad.2.implements bad.1 = false) :
    r.addAll (pairs ++ bad :: more) =
      (.error (.typeMismatch bad.2.typeReference.text bad.1), r') := by
  have hadd : r'.add bad.1 bad.2 = .error (.typeMismatch bad.2.typeReference.text bad.1) := by
    simp [add, hbad]
  rw [addAll_append h, addAll, hadd]

theorem addResults_of_firstBad {results before : List ScanResult} {holder : ScanResult}
    {good : List (Capability × Component)} {bad : Capability × Component}
    (h : FirstBad results before holder good bad) (r : Registry) :
    ∃ r', r.addResults results =
        (.error (.typeMismatch bad.2.typeReference.text bad.1), r') ∧
      Enrolled (contributing (before ++ [holder])) (pairsOf before ++ good) r r' := by
  obtain ⟨rest, rfl⟩ := h.results
  obtain ⟨more, hcomponents⟩ := h.holder
  obtain ⟨hbefore, hgood⟩ := List.forall_mem_append.mp h.good
  obtain ⟨next, hnext⟩ := exists_addResults hbefore r
  obtain ⟨r', hadded⟩ := exists_addAll hgood (next.addLocation holder.mountUri)
  have hhas : holder.hasComponents = true := by
    simp [ScanResult.hasComponents, hcomponents]
  refine ⟨r', ?_, ?_⟩
  · rw [addResults_append hnext, addResults, addResult, if_pos hhas, hcomponents,
      addAll_of_bad hadded h.bad]
  · apply enrolled_of_addAll
    have hpairs := addAll_of_addResults hnext
    have hresolver := (enlisted_addAll hpairs).2
    have hlocations : (contributing (before ++ [holder])).foldl addLocation r =
        { r with resolver := next.resolver.addLocation holder.mountUri } := by
      rw [foldl_addLocation, hresolver]
      simp [contributing, hhas]
    -- Registering does not look at the resolver, so the last location may come first as well.
    rw [hlocations, addAll_append (addAll_withResolver hpairs _)]
    exact hadded

theorem read_of_failed_save {store : SettingsStore} {results : List ScanResult} {h : Host}
    {failure : Failure} (hsave : (store.save results).result h = .error failure)
    (hspares : h.tree.Spares store.path ((ComponentIndex.ofResults results).stamped h.now).text) :
    ((store.save results).after h).tree.read store.path = h.tree.read store.path := by
  obtain ⟨fault, -, ⟨-, -, htree⟩ | ⟨-, hwrite, htree⟩⟩ := SettingsStore.save_eq_error hsave
  · rw [htree]
  · rw [htree]
    rcases Host.tree_of_failed_write hwrite with hkept | hfailed
    · rw [hkept]
    · exact hspares fault _ hfailed

/-- An update refuses results exactly if one of their components does not implement what it stands
under. It tells of the first of these, leaves the host alone, and has registered all components
before it, with the locations of the results as far as the one that holds it. Otherwise only saving
can fail; then all is registered, and a settings file that cannot be replaced is as it was. -/
theorem update_stops (r : Registry) (results : List ScanResult) (h : Host) :
    let answer := (r.update results).result h
    let updated := (r.update results).after h
    ((∃ component capability, answer.1 = .error (.typeMismatch component capability)) ↔
      ∃ pair ∈ pairsOf results, pair.2.implements pair.1 = false) ∧
    (∀ component capability, answer.1 = .error (.typeMismatch component capability) →
      ∃ before holder good bad, FirstBad results before holder good bad ∧
        component = bad.2.typeReference.text ∧ capability = bad.1 ∧ updated = h ∧
        Enrolled (contributing (before ++ [holder])) (pairsOf before ++ good) r answer.2) ∧
    (∀ failure, answer.1 = .error failure →
      (∀ component capability, failure ≠ .typeMismatch component capability) →
      (∃ fault, failure = .io fault) ∧
      Enrolled (contributing results) (pairsOf results) r answer.2 ∧
      (h.tree.Spares r.store.path ((ComponentIndex.ofResults results).stamped h.now).text →
        updated.tree.read r.store.path = h.tree.read r.store.path)) := by
  by_cases hbad : ∃ pair ∈ pairsOf results, pair.2.implements pair.1 = false
  · obtain ⟨before, holder, good, bad, hfirst⟩ := exists_firstBad hbad
    obtain ⟨r', hadded, hregistered⟩ := addResults_of_firstBad hfirst r
    simp only [update_of_refused hadded, result_pure, after_pure, Except.error.injEq]
    refine ⟨⟨fun _ => hbad, fun _ => ⟨_, _, rfl⟩⟩, ?_, ?_⟩
    · rintro component capability heq
      cases heq
      exact ⟨before, holder, good, bad, hfirst, rfl, rfl, trivial, hregistered⟩
    · rintro failure rfl hother
      exact absurd rfl (hother _ _)
  · have hall : ∀ pair ∈ pairsOf results, pair.2.implements pair.1 = true := by
      intro pair hpair
      rw [← Bool.not_eq_false]
      exact fun hnot => hbad ⟨pair, hpair, hnot⟩
    obtain ⟨r', hadded⟩ := exists_addResults hall r
    simp only [update_of_added hadded, result_map, after_map]
    have hio : ∀ failure, (r.store.save results).result h = .error failure →
        ∃ fault, failure = .io fault := by
      intro failure hsave
      obtain ⟨fault, hfault, -⟩ := SettingsStore.save_eq_error hsave
      exact ⟨fault, hfault⟩
    have hnever : ∀ component capability,
        (r.store.save results).result h ≠ .error (.typeMismatch component capability) := by
      intro component capability hsave
      obtain ⟨fault, hfault⟩ := hio _ hsave
      cases hfault
    refine ⟨⟨fun ⟨component, capability, hsave⟩ => absurd hsave (hnever _ _), fun h => absurd h hbad⟩,
      fun component capability hsave => absurd hsave (hnever _ _), fun failure hsave _ => ?_⟩
    refine ⟨hio failure hsave, enrolled_of_addAll ?_, read_of_failed_save hsave⟩
    rw [foldl_addLocation]
    exact addAll_of_addResults hadded

/-- A quill cannot fly, so that the bag is not registered beyond drawing; and where there is no space
left, a pen is registered and not saved. -/
theorem update_stops_drawer :
    let pen := (Blueprint.mk "Pen" (.ofNat 1) ["draw", "write"] none none [] "").factory.construct 0
    let quill := (Blueprint.mk "Quill" (.ofNat 2) ["draw"] none none [] "").factory.construct 1
    let found : List ScanResult := [⟨"/pack", [], [], pen.registrations⟩]
    let mistaken := found ++ [⟨"/bag", [], [], [("draw", quill), ("fly", quill)]⟩]
    let r := new (.new ".module" .strict .empty) (.new ⟨"/drawer/components.json"⟩)
    let full : Host := { drawer with disk.prospect.writes := [some (.other "no space left")] }
    let stopped := ((r.update mistaken).result drawer).2
    let unsaved := ((r.update found).result full).2
    (∃ before holder good bad, FirstBad mistaken before holder good bad ∧ bad.1 = "fly" ∧
      Enrolled (contributing (before ++ [holder])) (pairsOf before ++ good) r stopped) ∧
    (r.update mistaken).after drawer = drawer ∧
    (∃ fault, ((r.update found).result full).1 = .error (.io fault)) ∧
    Enrolled (contributing found) (pairsOf found) r unsaved ∧
    unsaved.present? "write" (.ofNat 1) = some pen ∧ .ofNat 1 ∈ unsaved.knownIds "draw" ∧
    "/pack" ∈ unsaved.resolver.locations ∧
    ((r.update found).after full).tree.read r.store.path = full.tree.read r.store.path := by
  intro pen quill found mistaken r full stopped unsaved
  obtain ⟨hmismatch, hstopped, -⟩ := update_stops r mistaken drawer
  have hfly : ∃ pair ∈ pairsOf mistaken, pair.2.implements pair.1 = false := by decide +kernel
  have honly : ∀ pair ∈ pairsOf mistaken, pair.2.implements pair.1 = false → pair.1 = "fly" := by
    decide +kernel
  obtain ⟨component, capability, hanswer⟩ := hmismatch.mpr hfly
  obtain ⟨before, holder, good, bad, hfirst, -, -, hafter, hregistered⟩ :=
    hstopped component capability hanswer
  obtain ⟨hfine, -, hsaving⟩ := update_stops r found full
  have hall : ¬ ∃ pair ∈ pairsOf found, pair.2.implements pair.1 = false := by decide +kernel
  have hfailed : ((r.update found).result full).1.toOption = none := by decide +kernel
  refine ⟨⟨before, holder, good, bad, hfirst, honly bad hfirst.mem hfirst.bad, hregistered⟩,
    hafter, ?_⟩
  cases hsave : ((r.update found).result full).1 with
  | ok saved =>
      rw [hsave] at hfailed
      cases hfailed
  | error failure =>
      have hother : ∀ component capability, failure ≠ .typeMismatch component capability := by
        rintro component capability rfl
        exact hall (hfine.mp ⟨component, capability, hsave⟩)
      obtain ⟨⟨fault, rfl⟩, hregistered, hread⟩ := hsaving failure hsave hother
      refine ⟨⟨fault, rfl⟩, hregistered, ?_, ?_, ?_, hread fun fault t' hwrite => ?_⟩
      · rw [hregistered.present]
        rfl
      · exact (hregistered.enlisted.known _ _).mpr (.inr (by decide +kernel))
      · exact (hregistered.located _).mpr (.inl (by decide +kernel))
      · have hwritable : (full.tree.write r.store.path
            ((ComponentIndex.ofResults found).stamped full.now).text).1.toOption = some () := by
          decide +kernel
        rw [hwrite] at hwritable
        cases hwritable

end Registry

end PluginHost
