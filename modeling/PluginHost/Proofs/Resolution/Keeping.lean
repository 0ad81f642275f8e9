import PluginHost.Component.Activation
import PluginHost.Proofs.Resolution.Run

/-!
A resolver keeps what it has found. Searches and new locations only add to it (`Later`), so the
module and the factory that a type reference leads to are settled by the first activation.
-/

namespace PluginHost

namespace Resolver

open HostM

/-- The modules that are kept have their factories from the catalog. -/
def Stocked (r : Resolver) : Prop :=
  ∀ key module, r.memo.get? key = some (some module) →
    ∃ entryPoint, r.catalog.get? entryPoint = some module.factories

/-- `r'` is `r` after any searches and with any further locations. -/
structure Later (r r' : Resolver) : Prop where
  suffix : r'.suffix = r.suffix
  policy : r'.policy = r.policy
  catalog : r'.catalog = r.catalog
  locations : r.locations <+: r'.locations
  nodup : r.locations.Nodup → r'.locations.Nodup
  kept : ∀ key outcome, r.memo.get? key = some outcome → r'.memo.get? key = some outcome
  stocked : r.Stocked → r'.Stocked

theorem Later.refl (r : Resolver) : r.Later r :=
  ⟨rfl, rfl, rfl, List.prefix_rfl, id, fun _ _ => id, id⟩

theorem Later.trans {a b c : Resolver} (hab : a.Later b) (hbc : b.Later c) : a.Later c where
  suffix := hbc.suffix.trans hab.suffix
  policy := hbc.policy.trans hab.policy
  catalog := hbc.catalog.trans hab.catalog
  locations := hab.locations.trans hbc.locations
  nodup := hbc.nodup ∘ hab.nodup
  kept key outcome := hbc.kept key outcome ∘ hab.kept key outcome
  stocked := hbc.stocked ∘ hab.stocked

theorem Later.isMemoized {r r' : Resolver} (h : r.Later r') {identity : Identity}
    (hmemoized : r.isMemoized identity = true) : r'.isMemoized identity = true := by
  obtain ⟨outcome, houtcome⟩ := get?_of_isMemoized hmemoized
  simp [Resolver.isMemoized, Memo.contains, h.kept _ _ houtcome]

theorem later_addLocation (r : Resolver) (location : String) :
    r.Later (r.addLocation location) := by
  rw [addLocation]
  split
  · exact Later.refl r
  · rename_i hnew
    refine ⟨rfl, rfl, rfl, List.prefix_append _ _, fun hnodup => ?_, fun _ _ => id, id⟩
    refine List.nodup_append.mpr ⟨hnodup, by simp, fun a ha b hb => ?_⟩
    rw [List.mem_singleton.mp hb]
    rintro rfl
    exact hnew ha

theorem later_keep {r : Resolver} {requested : Identity} {outcome : Option LoadedModule}
    (hnew : r.isMemoized requested = false)
    (hstock : ∀ module, outcome = some module →
      ∃ entryPoint, r.catalog.get? entryPoint = some module.factories) :
    r.Later (r.keep requested outcome) := by
  refine ⟨rfl, rfl, rfl, List.prefix_rfl, id, fun key found hfound => ?_, ?_⟩
  · rw [get?_keep, if_neg, hfound]
    rintro rfl
    rw [isMemoized_eq_false hnew] at hfound
    cases hfound
  · intro hstocked key module hmodule
    rw [get?_keep] at hmodule
    split at hmodule
    · exact hstock module (Option.some.inj hmodule)
    · exact hstocked key module hmodule

variable (tree : Storage.Tree)

theorem yields_probe_later {first r : Resolver} (hr : first.Later r) (requested : Identity)
    (hnew : r.isMemoized requested = false) :
    Yields (Host.Has tree) (r.probe requested) fun outcome =>
      first.Later (r.keep requested outcome) ∧ ∀ reference ∈ referencesOf outcome, True := by
  refine (yields_probe (Host.lasting_has tree) (fun _ => id) r requested).mono ?_
  intro outcome houtcome
  refine ⟨hr.trans (later_keep hnew fun module hmodule => ?_), fun _ _ => trivial⟩
  obtain ⟨path, hpath⟩ := (houtcome module hmodule).2
  obtain ⟨m, -, -, -, -, hentry⟩ := Catalog.moduleIn_eq_ok hpath
  exact ⟨m.entryPoint, hentry⟩

theorem yields_settle_later (fuel : Nat) {first r : Resolver} (hr : first.Later r)
    (pending : List Identity) : Yields (Host.Has tree) (settle fuel r pending) first.Later :=
  yields_settle (R := fun _ => True)
    (fun _ requested hr _ hnew => yields_probe_later tree hr requested hnew) fuel hr
    (fun _ _ => trivial)

theorem yields_settle_memoized (fuel : Nat) {r : Resolver} {requested : Identity}
    (hnew : r.isMemoized requested = false) :
    Yields (Host.Has tree) (settle (fuel + 1) r [requested]) fun r' =>
      r'.isMemoized requested = true := by
  have hfirst : [requested].dropWhile r.isMemoized = requested :: [] := by simp [hnew]
  rw [settle_succ hfirst]
  refine (yields_probe_later tree (Later.refl r) requested hnew).bind fun outcome _ => ?_
  refine (yields_settle_later tree fuel (Later.refl _) _).mono fun r' hlater => ?_
  exact hlater.isMemoized (by simp [isMemoized, Memo.contains, get?_keep])

/-- What a resolution does: it keeps the outcome and answers with it. -/
theorem resolve_keeps (r : Resolver) (requested : Identity) (h : Host) :
    let answer := (r.resolve requested).result h
    r.Later answer.2 ∧ answer.2.isMemoized requested = true ∧
      answer.1 = (answer.2.memo.get? requested.text).join := by
  intro answer
  have hresolves : Yields (Host.Has h.tree) (r.resolve requested) fun answer =>
      r.Later answer.2 ∧ answer.1 = (answer.2.memo.get? requested.text).join :=
    yields_resolve (R := fun _ => True)
      (fun _ requested hr _ hnew => yields_probe_later h.tree hr requested hnew) (Later.refl r)
      trivial
  obtain ⟨⟨hlater, hanswer⟩, -⟩ := hresolves h rfl
  refine ⟨hlater, ?_, hanswer⟩
  cases hnew : r.isMemoized requested with
  | true => exact hlater.isMemoized hnew
  | false =>
      have hsettled : answer.2 = (settle (settleBound h.tree) r [requested]).result h := by
        simp only [answer, resolve, hnew]
        rfl
      rw [hsettled, settleBound]
      exact (yields_settle_memoized h.tree _ hnew h rfl).1

theorem later_run (r : Resolver) (actions : List Action) (h : Host) :
    r.Later ((r.run actions).result h) := by
  have hstep : ∀ later action, r.Later later → True → ∀ host,
      r.Later ((later.perform action).result host) := by
    intro later action hlater _ host
    cases action with
    | addLocation location => exact hlater.trans (later_addLocation later location)
    | resolve requested => exact hlater.trans (resolve_keeps later requested host).1
    | outside surroundings => exact hlater
  exact run_induction hstep (Later.refl r) (fun _ _ => trivial) h

theorem stocked_new (suffix : String) (policy : CulturePolicy) (catalog : Catalog) :
    (new suffix policy catalog).Stocked :=
  fun _ _ h => by cases h

end Resolver

end PluginHost
