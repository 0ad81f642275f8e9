import PluginHost.Resolution.Resolver
import PluginHost.Proofs.Module.Loading
import PluginHost.Proofs.Resolution.Fitting

/-!
Runs of a resolver: probing locations come up, identities are resolved, and between these calls
anything may happen to the files. What holds of a resolver and outlasts that one outcome is kept
outlasts a whole resolution with all the references that it follows (`yields_settle`).
-/

namespace PluginHost

/-- All of a host that others than the engine may change. -/
structure Surroundings where
  disk : Storage.Disk
  aliases : List (String × Path)
  now : Timestamp

def Host.among (h : Host) (s : Surroundings) : Host :=
  { h with disk := s.disk, aliases := s.aliases, now := s.now }

namespace Resolver

open HostM

inductive Action where
  | addLocation (location : String)
  | resolve (requested : Identity)
  /-- Files are created, edited or deleted, faults come up or pass, time goes by. -/
  | outside (surroundings : Surroundings)

def Action.Readable : Action → Prop
  | .resolve requested => requested.Readable
  | _ => True

def perform (r : Resolver) : Action → HostM Resolver
  | .addLocation location => pure (r.addLocation location)
  | .resolve requested => Prod.snd <$> r.resolve requested
  | .outside surroundings => do
      modify (·.among surroundings)
      pure r

def run (r : Resolver) : List Action → HostM Resolver
  | [] => pure r
  | action :: rest => do
      let r ← r.perform action
      r.run rest

theorem run_induction {P : Resolver → Prop} {Allowed : Action → Prop}
    (hstep : ∀ r action, P r → Allowed action → ∀ h, P ((r.perform action).result h))
    {r : Resolver} (hr : P r) {actions : List Action}
    (hactions : ∀ action ∈ actions, Allowed action) (h : Host) :
    P ((r.run actions).result h) := by
  induction actions generalizing r h with
  | nil => exact hr
  | cons action rest ih =>
      have hnext := hstep r action hr (hactions action List.mem_cons_self) h
      exact ih hnext (fun later hlater => hactions later (List.mem_cons_of_mem _ hlater)) _

/-! Keeping outcomes. -/

def keep (r : Resolver) (requested : Identity) (outcome : Option LoadedModule) : Resolver :=
  { r with memo := (r.memo.reserve requested.text).fill requested.text outcome }

theorem get?_keep (r : Resolver) (requested : Identity) (outcome : Option LoadedModule)
    (key : String) :
    (r.keep requested outcome).memo.get? key =
      if key = requested.text then some outcome else r.memo.get? key := by
  rw [keep, Memo.get?_fill, Memo.get?_reserve]

theorem isMemoized_eq_false {r : Resolver} {requested : Identity}
    (h : r.isMemoized requested = false) : r.memo.get? requested.text = none := by
  simpa [isMemoized, Memo.contains] using h

theorem get?_of_isMemoized {r : Resolver} {requested : Identity}
    (h : r.isMemoized requested = true) :
    ∃ outcome, r.memo.get? requested.text = some outcome := by
  simpa [isMemoized, Memo.contains, Option.isSome_iff_exists] using h

/-- The references that are followed after an outcome. -/
def referencesOf (outcome : Option LoadedModule) : List Identity :=
  (outcome.map LoadedModule.references).getD []

/-- One step of a resolution: the first identity that is pending and not yet kept is searched for,
and its references come next. -/
theorem settle_succ {r : Resolver} {fuel : Nat} {pending rest : List Identity}
    {requested : Identity} (hpending : pending.dropWhile r.isMemoized = requested :: rest) :
    settle (fuel + 1) r pending = r.probe requested >>= fun outcome =>
      settle fuel (r.keep requested outcome) (referencesOf outcome ++ rest) := by
  have hnot : r.isMemoized requested = false := by
    have hhead := List.head?_dropWhile_not r.isMemoized pending
    rw [hpending] at hhead
    simpa using hhead
  rw [settle, hpending]
  simp only [Memo.fetch_of_none (isMemoized_eq_false hnot)]
  rfl

variable {I : Host → Prop} {P : Resolver → Prop} {R : Identity → Prop}

/-- What outlasts keeping the outcome of one search outlasts settling any identities, as long as the
references of what is found may be searched for like these. -/
theorem yields_settle
    (hstep : ∀ r requested, P r → R requested → r.isMemoized requested = false →
      Yields I (r.probe requested) fun outcome =>
        P (r.keep requested outcome) ∧ ∀ reference ∈ referencesOf outcome, R reference)
    (fuel : Nat) {r : Resolver} (hr : P r) {pending : List Identity}
    (hpending : ∀ requested ∈ pending, R requested) : Yields I (settle fuel r pending) P := by
  induction fuel generalizing r pending with
  | zero => exact Yields.pure hr
  | succ fuel ih =>
      cases hfirst : pending.dropWhile r.isMemoized with
      | nil =>
          rw [settle, hfirst]
          exact Yields.pure hr
      | cons requested rest =>
          have hsub : ∀ identity ∈ requested :: rest, R identity := by
            intro identity hmem
            rw [← hfirst] at hmem
            exact hpending identity ((List.dropWhile_suffix _).subset hmem)
          have hnot : r.isMemoized requested = false := by
            have hhead := List.head?_dropWhile_not r.isMemoized pending
            rw [hfirst] at hhead
            simpa using hhead
          rw [settle_succ hfirst]
          refine (hstep r requested hr (hsub requested List.mem_cons_self) hnot).bind ?_
          intro outcome ⟨hkept, hreferences⟩
          refine ih hkept fun identity hmem => ?_
          rcases List.mem_append.mp hmem with hmem | hmem
          · exact hreferences identity hmem
          · exact hsub identity (List.mem_cons_of_mem _ hmem)

/-- The answer of a resolution is what is kept for the identity. -/
theorem yields_resolve
    (hstep : ∀ r requested, P r → R requested → r.isMemoized requested = false →
      Yields I (r.probe requested) fun outcome =>
        P (r.keep requested outcome) ∧ ∀ reference ∈ referencesOf outcome, R reference)
    {r : Resolver} (hr : P r) {requested : Identity} (hrequested : R requested) :
    Yields I (r.resolve requested) fun answer =>
      P answer.2 ∧ answer.1 = (answer.2.memo.get? requested.text).join := by
  rw [resolve]
  split
  · exact Yields.pure ⟨hr, rfl⟩
  · refine Yields.get.bind fun h _ => ?_
    refine (yields_settle hstep _ hr (by simpa using hrequested)).bind fun kept hkept => ?_
    exact Yields.pure ⟨hkept, rfl⟩

/-! What a search does with the files. -/

section

variable {tree : Storage.Tree} (hI : Host.Lasting I) (htree : ∀ h, I h → h.tree = tree)
include hI htree

theorem yields_identifyAll (paths : List Path) :
    Yields I (identifyAll paths) fun candidates => ∀ candidate ∈ candidates,
      candidate.path ∈ paths ∧
        Catalog.identityIn tree candidate.path = .ok candidate.identity := by
  induction paths with
  | nil => exact Yields.pure (by simp)
  | cons path rest ih =>
      refine (Catalog.yields_identify hI htree path).bind fun identified hidentified => ?_
      cases identified with
      | error failure =>
          refine (Host.yields_report hI _).bind fun _ _ => ih.mono fun candidates hall => ?_
          exact fun candidate hmem => ⟨List.mem_cons_of_mem _ (hall candidate hmem).1,
            (hall candidate hmem).2⟩
      | ok identity =>
          refine ih.bind fun candidates hall => Yields.pure fun candidate hmem => ?_
          rcases List.mem_cons.mp hmem with rfl | hmem
          · exact ⟨List.mem_cons_self, hidentified identity rfl⟩
          · exact ⟨List.mem_cons_of_mem _ (hall candidate hmem).1, (hall candidate hmem).2⟩

theorem yields_loadFirst (catalog : Catalog) (paths : List Path) :
    Yields I (loadFirst catalog paths) fun found => ∀ module, found = some module →
      ∃ path ∈ paths, catalog.moduleIn tree path = .ok module := by
  induction paths with
  | nil => exact Yields.pure fun _ h => by cases h
  | cons path rest ih =>
      refine (Catalog.yields_load hI htree catalog path).bind fun loaded hloaded => ?_
      cases loaded with
      | error failure =>
          refine (Host.yields_report hI _).bind fun _ _ => ih.mono fun found hfound => ?_
          intro module hmodule
          obtain ⟨other, hother, hin⟩ := hfound module hmodule
          exact ⟨other, List.mem_cons_of_mem _ hother, hin⟩
      | ok module =>
          refine Yields.pure fun found hfound => ?_
          cases hfound
          exact ⟨path, List.mem_cons_self, hloaded module rfl⟩

/-- Whatever a location yields fits the request and stands in a file. -/
theorem yields_probeLocation (r : Resolver) (requested : Identity) (location : String) :
    Yields I (r.probeLocation requested location) fun found => ∀ module, found = some module →
      Fits r.policy requested module.identity ∧
        ∃ path, r.catalog.moduleIn tree path = .ok module := by
  refine Yields.get.bind fun h _ => ?_
  cases h.mount? location with
  | none => exact Yields.pure fun _ hnone => by cases hnone
  | some mount =>
      refine (Host.yields_list hI mount.root r.suffix).bind fun listed _ => ?_
      cases listed with
      | error fault =>
          refine (Host.yields_report hI _).bind fun _ _ => Yields.pure ?_
          exact fun _ hnone => by cases hnone
      | ok files =>
          refine Yields.get.bind fun now _ => ?_
          refine (yields_identifyAll hI htree _).bind fun candidates hcandidates => ?_
          refine (yields_loadFirst hI htree r.catalog _).mono fun found hfound module hmodule => ?_
          obtain ⟨path, hpath, hin⟩ := hfound module hmodule
          obtain ⟨candidate, hmem, rfl, hfits⟩ :=
            Selection.exists_of_mem_select (List.mem_reverse.mp hpath)
          have hidentity : module.identity = candidate.identity := by
            have hboth := (Catalog.identityIn_of_moduleIn hin).symm.trans
              (hcandidates candidate hmem).2
            exact Except.ok.inj hboth
          exact ⟨hidentity ▸ hfits, candidate.path, hin⟩

theorem yields_probe (r : Resolver) (requested : Identity) :
    Yields I (r.probe requested) fun found => ∀ module, found = some module →
      Fits r.policy requested module.identity ∧
        ∃ path, r.catalog.moduleIn tree path = .ok module := by
  have hlocations : ∀ locations, Yields I (r.probeLocations requested locations) fun found =>
      ∀ module, found = some module → Fits r.policy requested module.identity ∧
        ∃ path, r.catalog.moduleIn tree path = .ok module := by
    intro locations
    induction locations with
    | nil => exact Yields.pure fun _ h => by cases h
    | cons location rest ih =>
        refine (yields_probeLocation hI htree r requested location).bind fun found hfound => ?_
        cases found with
        | none => exact ih
        | some module => exact Yields.pure hfound
  exact (Host.yields_note hI _).bind fun _ _ => hlocations r.locations

end

/-- What does not depend on the outcomes that are kept outlasts every resolution. -/
theorem yields_resolve_keeping {P : Resolver → Prop} (hI : Host.Lasting I)
    (hkeep : ∀ r requested outcome, P r → P (keep r requested outcome)) {r : Resolver} (hr : P r)
    (requested : Identity) : Yields I (r.resolve requested) fun answer => P answer.2 := by
  have hstep : ∀ r requested, P r → True → r.isMemoized requested = false →
      Yields I (r.probe requested) fun outcome =>
        P (r.keep requested outcome) ∧ ∀ reference ∈ referencesOf outcome, True := by
    intro r requested hr _ _
    refine (Host.yields_of_has fun tree => (yields_probe (hI.and_has tree) (fun _ h => h.2) r
      requested).any).mono fun outcome _ => ?_
    exact ⟨hkeep r requested outcome hr, fun _ _ => trivial⟩
  exact (yields_resolve hstep hr trivial).mono fun _ h => h.1

end Resolver

end PluginHost
