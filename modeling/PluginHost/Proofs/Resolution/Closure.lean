import PluginHost.Proofs.Resolution.Ending
import PluginHost.Proofs.Resolution.Probes

/-!
What a resolution keeps. A depth-first search that stops at every identity which is kept already
still leaves no reference behind: each identity is kept before its references are followed, so one
that is met again on the way has its references pending further up. The keys that come up are those
that the request leads to, and each of them is searched for once.
-/

namespace PluginHost

namespace Resolver

open HostM

/-- The keys that some identities lead to: their own and, from each key that a module is kept for in
`after`, those of its references, as long as nothing was kept for them in `before`. -/
inductive Reached (before after : Resolver) (asked : List Identity) : String → Prop
  | asked {requested : Identity} (hmem : requested ∈ asked)
      (hnew : before.isMemoized requested = false) : Reached before after asked requested.text
  | referred {key : String} {module : LoadedModule} {reference : Identity}
      (hkey : Reached before after asked key)
      (hmodule : after.memo.get? key = some (some module)) (hmem : reference ∈ module.references)
      (hnew : before.isMemoized reference = false) : Reached before after asked reference.text

/-- Every reference of every module that is kept is kept too, found or missed. -/
def Closed (r : Resolver) : Prop :=
  ∀ key module, r.memo.get? key = some (some module) →
    ∀ reference ∈ module.references, r.isMemoized reference = true

variable {r r' between : Resolver} {h h' : Host} {pending : List Identity} {key : String}

theorem contains_of_get? {outcome : Option LoadedModule} (hkept : r.memo.get? key = some outcome) :
    r.memo.contains key = true := by
  simp [Memo.contains, hkept]

theorem Later.contains (hlater : r.Later r') (hkept : r.memo.contains key = true) :
    r'.memo.contains key = true := by
  obtain ⟨outcome, houtcome⟩ := Option.isSome_iff_exists.mp hkept
  exact contains_of_get? (hlater.kept key outcome houtcome)

theorem Later.not_contains (hlater : r.Later r') (hnew : r'.memo.contains key = false) :
    r.memo.contains key = false :=
  Bool.eq_false_iff.mpr fun hkept => Bool.eq_false_iff.mp hnew (hlater.contains hkept)

theorem isMemoized_keep (r : Resolver) (requested : Identity) (outcome : Option LoadedModule) :
    (r.keep requested outcome).isMemoized requested = true := by
  simp [isMemoized, contains_keep]

theorem later_keep_probe (r : Resolver) (requested : Identity) (h : Host)
    (hnew : r.isMemoized requested = false) :
    r.Later (r.keep requested ((r.probe requested).result h)) :=
  (yields_probe_later h.tree (Later.refl r) requested hnew h rfl).1.1

theorem Reached.not_contains (hkey : Reached r r' pending key) :
    r.memo.contains key = false := by
  cases hkey with
  | asked _ hnew => exact hnew
  | referred _ _ _ hnew => exact hnew

/-- What is reached in a part of a resolution is reached in the whole, if what that part starts from
is. -/
theorem Reached.mono {before after : Resolver} {asked : List Identity}
    (hbefore : r.Later before) (hafter : after.Later r')
    (hasked : ∀ requested ∈ asked, before.isMemoized requested = false →
      Reached r r' pending requested.text)
    (hkey : Reached before after asked key) : Reached r r' pending key := by
  induction hkey with
  | asked hmem hnew => exact hasked _ hmem hnew
  | referred _ hmodule hmem hnew ih =>
      exact .referred ih (hafter.kept _ _ hmodule) hmem (hbefore.not_contains hnew)

namespace Resolves

theorem later (hrun : Resolves r h pending r' h') : r.Later r' := by
  induction hrun with
  | done r h => exact Later.refl r
  | known _ _ ih => exact ih
  | searched hnew _ _ ihreferences ihrest =>
      exact ((later_keep_probe _ _ _ hnew).trans ihreferences).trans ihrest

theorem memoized (hrun : Resolves r h pending r' h') :
    ∀ requested ∈ pending, r'.isMemoized requested = true := by
  induction hrun with
  | done r h => exact fun _ hmem => nomatch hmem
  | known hknown hrest ih =>
      exact List.forall_mem_cons.mpr ⟨hrest.later.isMemoized hknown, ih⟩
  | searched hnew hreferences hrest _ ihrest =>
      refine List.forall_mem_cons.mpr ⟨?_, ihrest⟩
      exact (hreferences.later.trans hrest.later).isMemoized (isMemoized_keep _ _ _)

/-- Each module that a resolution adds has its references kept when the resolution is over. -/
theorem closes (hrun : Resolves r h pending r' h') {module : LoadedModule}
    (hmodule : r'.memo.get? key = some (some module)) :
    r.memo.get? key = some (some module) ∨
      ∀ reference ∈ module.references, r'.isMemoized reference = true := by
  induction hrun with
  | done r h => exact Or.inl hmodule
  | known _ _ ih => exact ih hmodule
  | @searched r between _ h _ _ requested _ _ hreferences hrest ihreferences ihrest =>
      rcases ihrest hmodule with hbetween | hall
      · rcases ihreferences hbetween with hkept | hall
        · rw [get?_keep] at hkept
          split at hkept
          · -- The module that has been searched for here: its references were followed next.
            have hfollowed := hreferences.memoized
            rw [Option.some.inj hkept] at hfollowed
            exact Or.inr fun reference hmem => hrest.later.isMemoized (hfollowed reference hmem)
          · exact Or.inl hkept
        · exact Or.inr fun reference hmem => hrest.later.isMemoized (hall reference hmem)
      · exact Or.inr hall

theorem closed (hrun : Resolves r h pending r' h') (hclosed : r.Closed) : r'.Closed := by
  intro key module hmodule reference hmem
  rcases hrun.closes hmodule with hold | hall
  · exact hrun.later.isMemoized (hclosed key module hold reference hmem)
  · exact hall reference hmem

/-- A key that comes up is reached. -/
theorem reached (hrun : Resolves r h pending r' h') (hkey : r'.memo.contains key = true) :
    r.memo.contains key = true ∨ Reached r r' pending key := by
  induction hrun with
  | done r h => exact Or.inl hkey
  | known _ _ ih =>
      refine (ih hkey).imp_right fun hreached => ?_
      exact hreached.mono (Later.refl _) (Later.refl _) fun requested hmem hnew =>
        .asked (List.mem_cons_of_mem _ hmem) hnew
  | @searched r between r' h _ _ requested rest hnew hreferences hrest ihreferences ihrest =>
      have hfirst := later_keep_probe r requested h hnew
      have hbetween := hfirst.trans hreferences.later
      have hasked : Reached r r' (requested :: rest) requested.text :=
        .asked List.mem_cons_self hnew
      rcases ihrest hkey with hkept | hreached
      · rcases ihreferences hkept with hkept | hreached
        · rw [contains_keep, Bool.or_eq_true, decide_eq_true_iff] at hkept
          rcases hkept with rfl | hold
          · exact Or.inr hasked
          · exact Or.inl hold
        · refine Or.inr (hreached.mono hfirst hrest.later fun reference hmem hnone => ?_)
          cases houtcome : (r.probe requested).result h with
          | none => simp [houtcome, referencesOf] at hmem
          | some module =>
              have hmodule : r'.memo.get? requested.text = some (some module) := by
                refine (hreferences.later.trans hrest.later).kept _ _ ?_
                rw [get?_keep, if_pos rfl, houtcome]
              rw [houtcome] at hmem
              exact .referred hasked hmodule hmem (hfirst.not_contains hnone)
      · refine Or.inr (hreached.mono hbetween (Later.refl _) fun identity hmem hnone => ?_)
        exact .asked (List.mem_cons_of_mem _ hmem) (hbetween.not_contains hnone)

/-- A key that is reached comes up. -/
theorem contains_of_reached (hrun : Resolves r h pending r' h')
    (hkey : Reached r r' pending key) : r'.memo.contains key = true := by
  cases hkey with
  | asked hmem _ => exact hrun.memoized _ hmem
  | referred hkey hmodule hmem _ =>
      rcases hrun.closes hmodule with hold | hall
      · exact absurd (contains_of_get? hold) (Bool.eq_false_iff.mp hkey.not_contains)
      · exact hall _ hmem

theorem contains_iff (hrun : Resolves r h pending r' h') (key : String) :
    r'.memo.contains key = true ↔ r.memo.contains key = true ∨ Reached r r' pending key :=
  ⟨hrun.reached, fun hkey => hkey.elim hrun.later.contains hrun.contains_of_reached⟩

/-- The searches of a resolution are for the keys that come up, one for each. -/
theorem probes (hrun : Resolves r h pending r' h') :
    ∃ searched, h'.probes = h.probes ++ searched ∧ searched.Nodup ∧
      ∀ key, key ∈ searched ↔ r.memo.contains key = false ∧ r'.memo.contains key = true := by
  induction hrun with
  | done r h =>
      refine ⟨[], (List.append_nil _).symm, List.nodup_nil, fun key => ?_⟩
      simp
  | known _ _ ih => exact ih
  | @searched r between r' h _ h' requested rest hnew hreferences hrest ihreferences ihrest =>
      obtain ⟨first, hfirst, hfirstNodup, hfirstMem⟩ := ihreferences
      obtain ⟨second, hsecond, hsecondNodup, hsecondMem⟩ := ihrest
      have hkept := later_keep_probe r requested h hnew
      refine ⟨requested.text :: (first ++ second), ?_, ?_, fun key => ?_⟩
      · rw [hsecond, hfirst, probes_probe]
        simp
      · have hown : (r.keep requested ((r.probe requested).result h)).memo.contains
            requested.text = true := isMemoized_keep _ _ _
        refine List.nodup_cons.mpr ⟨fun hmem => ?_, List.nodup_append.mpr
          ⟨hfirstNodup, hsecondNodup, fun one hone other hother => ?_⟩⟩
        · rcases List.mem_append.mp hmem with hmem | hmem
          · exact Bool.eq_false_iff.mp ((hfirstMem _).mp hmem).1 hown
          · exact Bool.eq_false_iff.mp ((hsecondMem _).mp hmem).1 (hreferences.later.contains hown)
        · rintro rfl
          exact Bool.eq_false_iff.mp ((hsecondMem _).mp hother).1 ((hfirstMem _).mp hone).2
      · rw [List.mem_cons, List.mem_append, hfirstMem, hsecondMem, contains_keep]
        constructor
        · rintro (rfl | ⟨hnone, hbetween⟩ | ⟨hnone, hlast⟩)
          · exact ⟨hnew, (hreferences.later.trans hrest.later).contains (isMemoized_keep _ _ _)⟩
          · exact ⟨(Bool.or_eq_false_iff.mp hnone).2, hrest.later.contains hbetween⟩
          · exact ⟨(hkept.trans hreferences.later).not_contains hnone, hlast⟩
        · rintro ⟨hnone, hlast⟩
          by_cases hown : key = requested.text
          · exact Or.inl hown
          cases hbetween : between.memo.contains key with
          | true => exact Or.inr (Or.inl ⟨by simp [hown, hnone], rfl⟩)
          | false => exact Or.inr (Or.inr ⟨rfl, hlast⟩)

end Resolves

theorem closed_run (suffix : String) (policy : CulturePolicy) (catalog : Catalog)
    (actions : List Action) (h : Host) :
    Closed (((new suffix policy catalog).run actions).result h) := by
  have hstep : ∀ r action, Closed r → True → ∀ host, Closed ((r.perform action).result host) := by
    intro r action hclosed _ host
    cases action with
    | addLocation location =>
        simp only [perform, addLocation, result_pure]
        split <;> exact hclosed
    | resolve requested => exact (resolve_resolves r requested host).closed hclosed
    | outside surroundings => exact hclosed
  exact run_induction hstep (fun _ _ hnone => by cases hnone) (fun _ _ => trivial) h

/-- Whatever a resolver has done before and whatever has happened to the files: a resolution comes to
an end, with the outcome of the recursion over the references. What it adds are the keys that the
request leads to, each of them searched for once and nothing else. Before and after, every reference
of every module that is kept is kept. -/
theorem resolve_closure (suffix : String) (policy : CulturePolicy) (catalog : Catalog) (h : Host)
    (actions : List Action) (requested : Identity) :
    let run := (new suffix policy catalog).run actions
    let before := run.result h
    let answer := (before.resolve requested).result (run.after h)
    let last := (before.resolve requested).after (run.after h)
    let after := answer.2
    Resolves before (run.after h) [requested] after last ∧
      answer.1 = (after.memo.get? requested.text).join ∧
      (∀ key outcome, before.memo.get? key = some outcome →
        after.memo.get? key = some outcome) ∧
      (∀ key, after.memo.contains key = true ↔
        before.memo.contains key = true ∨ Reached before after [requested] key) ∧
      (∃ searched, last.probes = (run.after h).probes ++ searched ∧ searched.Nodup ∧
        ∀ key, key ∈ searched ↔ Reached before after [requested] key) ∧
      before.Closed ∧ after.Closed := by
  intro run before answer last after
  have hrun : Resolves before (run.after h) [requested] after last :=
    resolve_resolves before requested (run.after h)
  have hclosed : before.Closed := closed_run suffix policy catalog actions h
  refine ⟨hrun, (resolve_keeps before requested (run.after h)).2.2, hrun.later.kept,
    hrun.contains_iff, ?_, hclosed, hrun.closed hclosed⟩
  obtain ⟨searched, hprobes, hnodup, hmem⟩ := hrun.probes
  refine ⟨searched, hprobes, hnodup, fun key => (hmem key).trans ⟨?_, ?_⟩⟩
  · rintro ⟨hnone, hkept⟩
    exact (hrun.reached hkept).resolve_left (Bool.eq_false_iff.mp hnone)
  · exact fun hreached => ⟨hreached.not_contains, hrun.contains_of_reached hreached⟩

end Resolver

end PluginHost
