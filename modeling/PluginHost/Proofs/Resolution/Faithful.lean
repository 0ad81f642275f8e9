import PluginHost.Proofs.Module.IdentityText
import PluginHost.Proofs.Resolution.Keeping

/-!
Keeping outcomes goes unnoticed as long as nothing changes. On hosts with the same files and aliases
and without faults a search always answers the same (`Fixed`), so what is kept for an identity is
what a search for it would answer now, in whatever order it came to be kept.
-/

namespace PluginHost

/-! Answers that do not depend on which of some hosts is asked. -/

namespace HostM

variable {α β : Type} {I : Host → Prop}

/-- All hosts in `I` give the same answer and stay in `I`. -/
def Fixed (I : Host → Prop) (c : HostM α) : Prop :=
  ∀ h h', I h → I h' → c.result h = c.result h' ∧ I (c.after h)

namespace Fixed

theorem pure (a : α) : Fixed I (pure a) :=
  fun _ _ hI _ => ⟨rfl, hI⟩

theorem bind {c : HostM α} {next : α → HostM β} (hc : Fixed I c) (hnext : ∀ a, Fixed I (next a)) :
    Fixed I (c >>= next) := by
  intro h h' hI hI'
  obtain ⟨hsame, hafter⟩ := hc h h' hI hI'
  obtain ⟨-, hafter'⟩ := hc h' h hI' hI
  rw [result_bind, result_bind, after_bind, ← hsame]
  exact hnext _ _ _ hafter hafter'

/-- A look at the host is harmless if what follows does not differ. -/
theorem get_bind {next : Host → HostM β} (hsame : ∀ h h', I h → I h' → next h = next h')
    (hnext : ∀ h, I h → Fixed I (next h)) : Fixed I (get >>= next) := by
  intro h h' hI hI'
  have hgo := hnext h hI h h' hI hI'
  rw [hsame h h' hI hI'] at hgo
  rw [result_bind, result_bind, after_bind, result_get, result_get, after_get, after_get,
    hsame h h' hI hI']
  exact hgo

theorem of_yields {P : α → Prop} {c : HostM α} (hc : Yields I c P)
    (hsame : ∀ h h', I h → I h' → c.result h = c.result h') : Fixed I c :=
  fun h h' hI hI' => ⟨hsame h h' hI hI', (hc h hI).2⟩

end Fixed

end HostM

open HostM

variable {tree : Storage.Tree} {aliases : List (String × Path)}

namespace Host

theorem fixed_note (event : Event) : Fixed (Still tree aliases) (note event) :=
  .of_yields (yields_note (lasting_still tree aliases) event) fun _ _ _ _ => rfl

theorem fixed_list (folder : Path) (suffix : String) :
    Fixed (Still tree aliases) (list folder suffix) := by
  refine .of_yields (yields_list (lasting_still tree aliases) folder suffix) fun h h' hh hh' => ?_
  rw [result_list_of_calm hh.calm, result_list_of_calm hh'.calm, hh.tree, hh'.tree]

theorem Still.symm_mount? {h h' : Host} (hh : Still tree aliases h) (hh' : Still tree aliases h')
    (location : String) : h.mount? location = h'.mount? location := by
  refine Still.mount?_eq ?_ location
  exact ⟨hh.tree.trans hh'.tree.symm, hh.aliases.trans hh'.aliases.symm, hh.calm⟩

end Host

namespace Catalog

theorem fixed_identify (path : Path) : Fixed (Host.Still tree aliases) (identify path) := by
  refine .of_yields (yields_identify (Host.lasting_still tree aliases) (fun _ h => h.tree) path) ?_
  intro h h' hh hh'
  rw [result_identify_of_calm hh.calm, result_identify_of_calm hh'.calm, hh.tree, hh'.tree]

theorem fixed_load (catalog : Catalog) (path : Path) :
    Fixed (Host.Still tree aliases) (catalog.load path) := by
  refine .of_yields (yields_load (Host.lasting_still tree aliases) (fun _ h => h.tree) catalog
    path) ?_
  intro h h' hh hh'
  rw [result_load_of_calm hh.calm, result_load_of_calm hh'.calm, hh.tree, hh'.tree]

end Catalog

namespace Resolver

/-! Searches answer the same. -/

theorem fixed_identifyAll (paths : List Path) :
    Fixed (Host.Still tree aliases) (identifyAll paths) := by
  induction paths with
  | nil => exact Fixed.pure []
  | cons path rest ih =>
      refine (Catalog.fixed_identify path).bind fun identified => ?_
      cases identified with
      | ok identity => exact ih.bind fun candidates => Fixed.pure _
      | error failure => exact (Host.fixed_note _).bind fun _ => ih

theorem fixed_loadFirst (catalog : Catalog) (paths : List Path) :
    Fixed (Host.Still tree aliases) (loadFirst catalog paths) := by
  induction paths with
  | nil => exact Fixed.pure none
  | cons path rest ih =>
      refine (Catalog.fixed_load catalog path).bind fun loaded => ?_
      cases loaded with
      | ok module => exact Fixed.pure _
      | error failure => exact (Host.fixed_note _).bind fun _ => ih

theorem fixed_probeLocation (r : Resolver) (requested : Identity) (location : String) :
    Fixed (Host.Still tree aliases) (r.probeLocation requested location) := by
  refine Fixed.get_bind (fun h h' hh hh' => by rw [hh.symm_mount? hh']) fun h hh => ?_
  cases h.mount? location with
  | none => exact Fixed.pure none
  | some mount =>
      refine (Host.fixed_list mount.root r.suffix).bind fun listed => ?_
      cases listed with
      | error fault => exact (Host.fixed_note _).bind fun _ => Fixed.pure none
      | ok files =>
          refine Fixed.get_bind (fun h h' hh hh' => by rw [hh.tree, hh'.tree]) fun now hnow => ?_
          exact (fixed_identifyAll _).bind fun candidates => fixed_loadFirst r.catalog _

theorem fixed_probeLocations (r : Resolver) (requested : Identity) (locations : List String) :
    Fixed (Host.Still tree aliases) (r.probeLocations requested locations) := by
  induction locations with
  | nil => exact Fixed.pure none
  | cons location rest ih =>
      refine (fixed_probeLocation r requested location).bind fun found => ?_
      cases found with
      | none => exact ih
      | some module => exact Fixed.pure (some module)

theorem fixed_probe (r : Resolver) (requested : Identity) :
    Fixed (Host.Still tree aliases) (r.probe requested) :=
  (Host.fixed_note _).bind fun _ => fixed_probeLocations r requested r.locations

/-! What is kept is what a search answers. -/

/-- `r` is `first` after searches only, and keeps for each identity what `first` would find. -/
structure Faithful (tree : Storage.Tree) (aliases : List (String × Path)) (first r : Resolver) :
    Prop where
  later : first.Later r
  locations : r.locations = first.locations
  kept : ∀ requested : Identity, requested.Readable → ∀ outcome,
    r.memo.get? requested.text = some outcome →
      ∀ h, Host.Still tree aliases h → (first.probe requested).result h = outcome

variable {first r : Resolver} {requested : Identity}

theorem Faithful.probe_eq (hr : Faithful tree aliases first r) (requested : Identity) :
    r.probe requested = first.probe requested := by
  have hlocation : ∀ location, r.probeLocation requested location =
      first.probeLocation requested location := by
    intro location
    simp only [probeLocation, hr.later.suffix, hr.later.policy, hr.later.catalog]
  have hlocations : ∀ locations, r.probeLocations requested locations =
      first.probeLocations requested locations := by
    intro locations
    induction locations with
    | nil => rfl
    | cons location rest ih => simp only [probeLocations, hlocation, ih]
  rw [probe, probe, hr.locations, hlocations]

theorem Faithful.keep (hr : Faithful tree aliases first r) (hrequested : requested.Readable)
    (hnew : r.isMemoized requested = false) {h : Host} (hh : Host.Still tree aliases h) :
    Faithful tree aliases first (r.keep requested ((r.probe requested).result h)) := by
  have hlater := (yields_probe_later h.tree hr.later requested hnew h rfl).1.1
  refine ⟨hlater, hr.locations, fun other hother outcome houtcome host hhost => ?_⟩
  rw [get?_keep] at houtcome
  split at houtcome
  · rename_i htext
    rw [hother.eq_of_text hrequested htext, ← Option.some.inj houtcome, hr.probe_eq]
    exact (fixed_probe first requested host h hhost hh).1
  · exact hr.kept other hother outcome houtcome host hhost

theorem Faithful.yields_resolve (hr : Faithful tree aliases first r)
    (hrequested : requested.Readable) :
    Yields (Host.Still tree aliases) (r.resolve requested) fun answer =>
      Faithful tree aliases first answer.2 := by
  have hlasting := Host.lasting_still tree aliases
  have hstep : ∀ r requested, Faithful tree aliases first r → Identity.Readable requested →
      r.isMemoized requested = false →
      Yields (Host.Still tree aliases) (r.probe requested) fun outcome =>
        Faithful tree aliases first (r.keep requested outcome) ∧
          ∀ reference ∈ referencesOf outcome, reference.Readable := by
    intro r requested hr hrequested hnew h hh
    obtain ⟨hfound, hafter⟩ := yields_probe hlasting (fun _ h => h.tree) r requested h hh
    refine ⟨⟨hr.keep hrequested hnew hh, fun reference hreference => ?_⟩, hafter⟩
    cases houtcome : (r.probe requested).result h with
    | none => simp [houtcome, referencesOf] at hreference
    | some module =>
        obtain ⟨-, path, hpath⟩ := hfound module houtcome
        rw [houtcome] at hreference
        exact Catalog.readable_of_moduleIn hpath reference hreference
  exact (Resolver.yields_resolve hstep hr hrequested).mono fun _ h => h.1

/-- A resolution answers with what a search finds, whatever has been resolved before. -/
theorem Faithful.result_resolve (hr : Faithful tree aliases first r)
    (hrequested : requested.Readable) {h host : Host} (hh : Host.Still tree aliases h)
    (hhost : Host.Still tree aliases host) :
    ((r.resolve requested).result h).1 = (first.probe requested).result host := by
  obtain ⟨-, hmemoized, hanswer⟩ := resolve_keeps r requested h
  obtain ⟨outcome, houtcome⟩ := get?_of_isMemoized hmemoized
  have hfaithful := (hr.yields_resolve hrequested h hh).1
  rw [hanswer, houtcome, hfaithful.kept requested hrequested outcome houtcome host hhost]
  rfl

theorem faithful_of_empty (hempty : first.memo = .empty) :
    Faithful tree aliases first first := by
  refine ⟨Later.refl first, rfl, fun _ _ outcome houtcome => ?_⟩
  rw [hempty] at houtcome
  cases houtcome

end Resolver

end PluginHost
