import PluginHost.Proofs.Registry.Holdings
import PluginHost.Proofs.Settings.Saving

/-!
What an update registers is what it saves. The registry and the index are filled by themselves from
the same results; where identifiers repeat, the last one counts in both.
-/

namespace PluginHost

namespace Registry

open HostM

variable {r r' : Registry}

theorem addResults_of_bare {results : List ScanResult}
    (h : ∀ result ∈ results, result.components = []) : r.addResults results = (.ok (), r) := by
  induction results with
  | nil => rfl
  | cons result rest ih =>
      obtain ⟨hfirst, hrest⟩ := List.forall_mem_cons.mp h
      have hresult : r.addResult result = (.ok (), r) := by
        simp [addResult, ScanResult.hasComponents, hfirst, addAll]
      rw [addResults, hresult]
      exact ih hrest

/-! What has been saved, and what is there in memory. -/

/-- The registry has what an index lists of some results. -/
structure Reflects (r : Registry) (index : ComponentIndex) (results : List ScanResult) : Prop where
  references : ∀ id text, index.typeReferences.get? id = some text →
    ∃ reference, r.typeReference id = some reference ∧ reference.text = text
  components : ∀ capability id, index.Lists capability id → id ∈ r.knownIds capability ∧
    ∃ component, lastUnder capability id (pairsOf results) = some component ∧
      r.present? capability id = some component
  locations : ∀ location ∈ SortedSet.toList index.locations, location ∈ r.resolver.locations

theorem reflects_addResults {results : List ScanResult} (h : r.addResults results = (.ok (), r'))
    (time : Timestamp) : r'.Reflects ((ComponentIndex.ofResults results).stamped time) results := by
  have hadded := addAll_of_addResults h
  have henlisted := enlisted_addResults h
  refine ⟨fun id text htext => ?_, fun capability id hlists => ?_, fun location hlocation => ?_⟩
  · have htext : (ComponentIndex.ofResults results).typeReferences.get? id = some text := htext
    rw [ComponentIndex.get?_typeReferences, Option.map_eq_some_iff] at htext
    obtain ⟨component, hlast, hreference⟩ := htext
    refine ⟨component.typeReference, ?_, hreference⟩
    rw [henlisted.reference, hlast]
    rfl
  · have hids : id ∈ idsUnder capability (pairsOf results) :=
      ComponentIndex.lists_ofResults_iff.mp hlists
    obtain ⟨component, hlast⟩ := exists_lastUnder hids
    refine ⟨(henlisted.known capability id).mpr (.inr hids), component, hlast, ?_⟩
    rw [present?_addAll hadded, hlast]
    rfl
  · obtain ⟨locations, hfold, hmem⟩ :=
      Resolver.foldl_addLocation (contributing results) r.resolver
    rw [(enlisted_addAll hadded).2, hfold]
    exact (hmem location).mpr (.inl (ComponentIndex.mem_locations_ofResults.mp hlocation))

theorem update_of_added {results : List ScanResult} (h : r.addResults results = (.ok (), r')) :
    r.update results = (fun saved => (saved, r')) <$> r.store.save results := by
  have hsteps : Steps Resolver.Later (fun _ => True) r (r.addResults results).2 :=
    steps_addResults lawful_later fun _ _ => trivial
  have hstore : r'.store = r.store := by
    rw [h] at hsteps
    exact hsteps.store_eq
  rw [update, h]
  dsimp only
  rw [hstore]
  rfl

theorem update_of_refused {results : List ScanResult} {failure : Failure}
    (h : r.addResults results = (.error failure, r')) :
    r.update results = pure (.error failure, r') := by
  rw [update, h]

/-- When an update has saved a file, the registry has what the index in this file lists. The update
tells that there is none exactly if nothing was found and no file, or one that could be removed, was
in its place; then there is none. -/
theorem update_agrees (r : Registry) (results : List ScanResult) {h : Host} (hnow : h.now.Valid) :
    let index := (ComponentIndex.ofResults results).stamped h.now
    let answer := (r.update results).result h
    let updated := (r.update results).after h
    (answer.1 = .ok true →
      h.tree.write r.store.path index.text = (.ok (), updated.tree) ∧
      (∀ text, updated.tree.read r.store.path = .ok text → text = index.text) ∧
      r.store.interpret index.text = .ok index ∧ answer.2.Reflects index results) ∧
    (answer.1 = .ok false ↔ (∀ result ∈ results, result.components = []) ∧
      (h.tree.isThere r.store.path = true → (Host.remove r.store.path).result h = .ok ())) ∧
    (answer.1 = .ok false → updated.tree.isThere r.store.path = false) := by
  obtain ⟨added, r', hadd⟩ : ∃ added r', r.addResults results = (added, r') := ⟨_, _, rfl⟩
  cases added with
  | error failure =>
      simp only [update_of_refused hadd, result_pure, after_pure]
      refine ⟨by simp, ⟨by simp, fun ⟨hbare, _⟩ => ?_⟩, by simp⟩
      rw [addResults_of_bare hbare] at hadd
      cases hadd
  | ok done =>
      simp only [update_of_added hadd, result_map, after_map]
      refine ⟨fun hsave => ?_, ?_, SettingsStore.isThere_of_save⟩
      · have hwrite := SettingsStore.write_of_save hsave (SettingsStore.isEmpty_of_save hsave)
        refine ⟨hwrite, fun text hread => ?_, SettingsStore.interpret_stamped _ results hnow,
          reflects_addResults hadd h.now⟩
        exact Storage.Tree.text_of_read_write hwrite hread
      · rw [SettingsStore.result_save_eq_false_iff, ComponentIndex.isEmpty_ofResults_iff]

/-- A quill comes after a pen with its identifier, which is left where no quill can be. Then the file
is removed with an update that has found nothing. -/
theorem update_agrees_drawer :
    let pen := (Blueprint.mk "Pen" (.ofNat 1) ["draw", "write"] none none [] "").factory.construct 0
    let quill := (Blueprint.mk "Quill" (.ofNat 1) ["draw"] none none [] "").factory.construct 1
    let results : List ScanResult :=
      [⟨"/pack", [], [], pen.registrations⟩, ⟨"/attic", [], [], []⟩,
        ⟨"/bag", [], [], quill.registrations⟩]
    let r := new (.new ".module" .strict .empty) (.new ⟨"/drawer/components.json"⟩)
    let updated := ((r.update results).result drawer).2
    let left := (r.update results).after drawer
    ((r.update results).result drawer).1 = .ok true ∧
      updated.present? "draw" (.ofNat 1) = some quill ∧
      updated.present? "write" (.ofNat 1) = some pen ∧
      (∃ reference, updated.typeReference (.ofNat 1) = some reference ∧ reference.text = "Quill") ∧
      "/pack" ∈ updated.resolver.locations ∧ "/bag" ∈ updated.resolver.locations ∧
      ((updated.update []).result left).1 = .ok false ∧
      ((updated.update []).after left).tree.isThere r.store.path = false := by
  intro pen quill results r updated left
  have hsaved : ((r.update results).result drawer).1.toOption = some true := by decide +kernel
  rw [toOption_eq_some] at hsaved
  obtain ⟨-, -, -, hreferences, hcomponents, hlocations⟩ :=
    (update_agrees r results (by decide)).1 hsaved
  have hpresent : ∀ capability component, lastUnder capability (.ofNat 1) (pairsOf results) =
      some component → .ofNat 1 ∈ idsUnder capability (pairsOf results) →
        updated.present? capability (.ofNat 1) = some component := by
    intro capability component hlast hids
    obtain ⟨-, last, hsame, hpresent⟩ :=
      hcomponents capability (.ofNat 1) (ComponentIndex.lists_ofResults_iff.mpr hids)
    rw [hpresent, ← hsame, hlast]
  have hcontributing : ∀ uri ∈ contributing results, uri ∈ updated.resolver.locations :=
    fun uri huri => hlocations uri (ComponentIndex.mem_locations_ofResults.mpr huri)
  have hreference : (ComponentIndex.ofResults results).typeReferences.get? (.ofNat 1) =
      some "Quill" := by
    rw [ComponentIndex.get?_typeReferences]
    decide +kernel
  have hremoved : ((updated.update []).result left).1.toOption = some false := by decide +kernel
  rw [toOption_eq_some] at hremoved
  have hstore : updated.store = r.store := by decide +kernel
  have hnow : left.now.Valid := by decide +kernel
  refine ⟨hsaved, hpresent _ _ rfl (by decide), hpresent _ _ rfl (by decide), hreferences _ _ hreference, hcontributing _ (by decide),
    hcontributing _ (by decide), hremoved, ?_⟩
  rw [← hstore]
  exact (update_agrees updated [] hnow).2.2 hremoved

/-- A folder in the place of the file is not removed, and then an update that has found nothing
fails. -/
theorem update_fails_drawer :
    let r := new (.new ".module" .strict .empty) (.new ⟨"/drawer/components.json"⟩)
    let full : Host := { drawer with
      disk.tree.entries :=
        ⟨⟨[(["drawer"], .folder), (["drawer", "components.json"], .folder)]⟩, .empty⟩ }
    r.Reachable ∧ ((r.update []).result full).1 = .error (.io .isFolder) ∧
      ¬ (((r.update []).result full).1 = .ok false ↔
        ∀ result ∈ ([] : List ScanResult), result.components = []) := by
  intro r full
  have hfails : ((r.update []).result full).1 = .error (.io .isFolder) := by
    have hfailure : (match ((r.update []).result full).1 with
        | .ok _ => none
        | .error failure => some failure) = some (Failure.io .isFolder) := by decide +kernel
    cases hanswer : ((r.update []).result full).1 with
    | ok saved =>
        rw [hanswer] at hfailure
        cases hfailure
    | error failure =>
        rw [hanswer] at hfailure
        rw [Option.some.inj hfailure]
  refine ⟨?_, hfails, fun hiff => ?_⟩
  · let bare : Host := { drawer with disk.tree.entries := ⟨⟨[(["drawer"], .folder)]⟩, .empty⟩ }
    exact @Reachable.seeded ".module" .strict .empty [] [] (.new ⟨"/drawer/components.json"⟩) bare
      bare r rfl
  · have hnone := hiff.mpr (by simp)
    rw [hfails] at hnone
    cases hnone

end Registry

end PluginHost
