import PluginHost.Proofs.Resolution.Fitting
import PluginHost.Proofs.Resolution.Keeping

/-!
A module is found under its own identity where one file alone has its name. The search goes through
files that all hold the module, so whichever it loads will do.
-/

namespace PluginHost

/-- `m'` is `m`, perhaps loaded from another path. -/
structure LoadedModule.Like (m m' : LoadedModule) : Prop where
  identity : m'.identity = m.identity
  references : m'.references = m.references
  factories : m'.factories = m.factories

/-! Files that are the same. -/

namespace Catalog

variable {tree : Storage.Tree} {path other : Path}

theorem inTree_of_locate {manifest : Manifest} (hlocate : tree.locate other = tree.locate path)
    (h : Manifest.inTree tree path = .ok manifest) :
    Manifest.inTree tree other = .ok manifest := by
  have hread : tree.read other = tree.read path := by
    unfold Storage.Tree.read
    rw [hlocate]
  unfold Manifest.inTree at h ⊢
  rw [hread]
  cases hcontents : tree.read path with
  | error fault =>
      rw [hcontents] at h
      cases h
  | ok text =>
      rw [hcontents] at h
      exact mapError_eq_ok.mpr (mapError_eq_ok.mp h)

theorem moduleIn_of_locate {catalog : Catalog} {m : LoadedModule}
    (hlocate : tree.locate other = tree.locate path) (h : catalog.moduleIn tree path = .ok m) :
    catalog.moduleIn tree other = .ok { m with path := other } := by
  obtain ⟨manifest, hmanifest, hidentity, hreferences, -, hentry⟩ := moduleIn_eq_ok h
  have hother : manifest.identityAt other = .ok m.identity :=
    mapError_eq_ok.mpr (mapError_eq_ok.mp hidentity)
  have hmore : manifest.referencesAt other = .ok m.references :=
    mapError_eq_ok.mpr (mapError_eq_ok.mp hreferences)
  exact moduleIn_of_inTree (inTree_of_locate hlocate hmanifest) hother hmore hentry

end Catalog

/-! Candidates that are what is asked for. -/

namespace Selection

theorem depthAfter_self (version : Version) (depth : Nat) :
    depthAfter version version depth = some (max depth exactDepth) := by
  simp [depthAfter]

theorem judge_self (policy : CulturePolicy) (identity : Identity) (pins : Pins) :
    ∃ after, judge policy identity identity pins = some after := by
  have hname : identity.SameName identity := Text.SameLetters.refl identity.name
  have hkey : keyAccepted identity identity = true := by
    cases hpublic : identity.publicKey <;> simp [keyAccepted, hpublic]
  have hculture : identity.SameCulture identity := rfl
  have haccepted : cultureAccepted policy identity identity pins = true := by
    simp [cultureAccepted, hculture]
  cases hversion : identity.version with
  | none => exact ⟨_, by simp [judge, hname, hkey, haccepted, hversion]; rfl⟩
  | some version =>
      exact ⟨_, by simp [judge, hname, hkey, haccepted, hversion, depthAfter_self]; rfl⟩

theorem selectFrom_self (policy : CulturePolicy) (identity : Identity) (pins : Pins)
    (paths : List Path) :
    selectFrom policy identity pins (paths.map fun path => ⟨path, identity⟩) = paths := by
  induction paths generalizing pins with
  | nil => rfl
  | cons path rest ih =>
      obtain ⟨after, hafter⟩ := judge_self policy identity pins
      simp only [List.map_cons, selectFrom, hafter, ih]

end Selection

/-- The file of a module stands in one of some locations under the name of the module, and no other
file there has this name. -/
structure Shelved (catalog : Catalog) (suffix : String) (locations : List String)
    (m : LoadedModule) (h : Host) : Prop where
  calm : h.Calm
  content : catalog.moduleIn h.tree m.path = .ok m
  listed : ∃ location ∈ locations, ∃ mount, h.mount? location = some mount ∧
    ∃ path ∈ h.tree.listing mount.root suffix,
      path.isNamed (m.identity.name ++ suffix) = true ∧ h.tree.locate path = h.tree.locate m.path
  alone : ∀ location ∈ locations, ∀ mount, h.mount? location = some mount →
    ∀ path ∈ h.tree.listing mount.root suffix,
      path.isNamed (m.identity.name ++ suffix) = true → h.tree.isThere path = true →
        h.tree.locate path = h.tree.locate m.path

theorem Shelved.of_only {catalog : Catalog} {suffix location : String} {m : LoadedModule} {h : Host}
    {mount : Mount} (hcalm : h.Calm) (hcontent : catalog.moduleIn h.tree m.path = .ok m)
    (hmount : h.mount? location = some mount)
    (honly : h.tree.listing mount.root suffix = [m.path])
    (hnamed : m.path.isNamed (m.identity.name ++ suffix) = true) :
    Shelved catalog suffix [location] m h := by
  refine ⟨hcalm, hcontent, ⟨location, by simp, mount, hmount, m.path, by simp [honly], hnamed, rfl⟩,
    fun other hother mounted hmounted path hpath _ _ => ?_⟩
  rw [List.mem_singleton.mp hother, hmount, Option.some.injEq] at hmounted
  rw [← hmounted, honly] at hpath
  rw [List.mem_singleton.mp hpath]

theorem Shelved.isThere {catalog : Catalog} {suffix : String} {locations : List String}
    {m : LoadedModule} {h : Host} (hshelved : Shelved catalog suffix locations m h) :
    h.tree.isThere m.path = true := by
  obtain ⟨manifest, hmanifest, -⟩ := Catalog.moduleIn_eq_ok hshelved.content
  unfold Storage.Tree.isThere
  cases hlocate : h.tree.locate m.path with
  | ok a => rfl
  | error fault =>
      have hread : h.tree.read m.path = .error fault := by
        unfold Storage.Tree.read
        rw [hlocate]
        rfl
      rw [Manifest.inTree, hread] at hmanifest
      cases hmanifest

theorem lasting_shelved (catalog : Catalog) (suffix : String) (locations : List String)
    (m : LoadedModule) : Host.Lasting (Shelved catalog suffix locations m) := by
  intro h h' hreading hshelved
  have hstill : Host.Still h.tree h.aliases h' :=
    ⟨hreading.tree, hreading.aliases, hreading.calm hshelved.calm⟩
  constructor
  · exact hstill.calm
  · rw [hreading.tree]
    exact hshelved.content
  · simpa only [hstill.mount?_eq, hreading.tree] using hshelved.listed
  · simpa only [hstill.mount?_eq, hreading.tree] using hshelved.alone

namespace Resolver

open HostM

/-! The search for a module that is shelved. -/

section

variable {tree : Storage.Tree} {aliases : List (String × Path)}

theorem yields_identifyAll_still {identity : Identity} {paths : List Path}
    (h : ∀ path ∈ paths, Catalog.identityIn tree path = .ok identity) :
    Yields (Host.Still tree aliases) (identifyAll paths) fun candidates =>
      candidates = paths.map fun path => ⟨path, identity⟩ := by
  induction paths with
  | nil => exact Yields.pure rfl
  | cons path rest ih =>
      obtain ⟨hfirst, hrest⟩ := List.forall_mem_cons.mp h
      have hidentify : Yields (Host.Still tree aliases) (Catalog.identify path) fun identified =>
          identified = .ok identity := by
        refine (Catalog.yields_identify (Host.lasting_still tree aliases)
          (fun _ h => h.tree) path).answering fun host hstill => ?_
        rw [Catalog.result_identify_of_calm hstill.calm, hstill.tree, hfirst]
      refine hidentify.bind fun identified hidentified => ?_
      subst hidentified
      refine (ih hrest).bind fun candidates hcandidates => Yields.pure ?_
      rw [hcandidates, List.map_cons]

theorem yields_loadFirst_still {catalog : Catalog} {m : LoadedModule} {paths : List Path}
    (h : ∀ path ∈ paths, catalog.moduleIn tree path = .ok { m with path }) :
    Yields (Host.Still tree aliases) (loadFirst catalog paths) fun found =>
      found = paths.head?.map fun path => { m with path } := by
  cases paths with
  | nil => exact Yields.pure rfl
  | cons path rest =>
      have hload : Yields (Host.Still tree aliases) (catalog.load path) fun loaded =>
          loaded = .ok { m with path } := by
        refine (Catalog.yields_load (Host.lasting_still tree aliases)
          (fun _ h => h.tree) catalog path).answering fun host hstill => ?_
        rw [Catalog.result_load_of_calm hstill.calm, hstill.tree, h path List.mem_cons_self]
      refine hload.bind fun loaded hloaded => ?_
      subst hloaded
      exact Yields.pure rfl

end

variable {catalog : Catalog} {suffix : String} {locations : List String} {m : LoadedModule}
  {first : Host} {r : Resolver}

def Holds (suffix : String) (m : LoadedModule) (h : Host) (location : String) : Prop :=
  ∃ mount, h.mount? location = some mount ∧ ∃ path ∈ h.tree.listing mount.root suffix,
    path.isNamed (m.identity.name ++ suffix) = true ∧ h.tree.locate path = h.tree.locate m.path

theorem yields_loadNamed_shelved (hshelved : Shelved catalog suffix locations m first)
    (hcatalog : r.catalog = catalog) {named : List Path}
    (hnamed : ∀ path ∈ named, first.tree.locate path = first.tree.locate m.path) :
    Yields (Host.Still first.tree first.aliases) (do
        let candidates ← identifyAll named
        loadFirst r.catalog (Selection.select r.policy m.identity candidates).reverse) fun found =>
      (∀ other, found = some other → m.Like other) ∧ (named ≠ [] → found ≠ none) := by
  have hmodules : ∀ path ∈ named, catalog.moduleIn first.tree path = .ok { m with path } :=
    fun path hpath => Catalog.moduleIn_of_locate (hnamed path hpath) hshelved.content
  have hidentities : ∀ path ∈ named, Catalog.identityIn first.tree path = .ok m.identity := by
    intro path hpath
    have hidentity := Catalog.identityIn_of_moduleIn (hmodules path hpath)
    exact hidentity
  refine (yields_identifyAll_still hidentities).bind fun candidates hcandidates => ?_
  subst hcandidates
  rw [Selection.select, Selection.selectFrom_self, hcatalog]
  refine (yields_loadFirst_still fun path hpath =>
    hmodules path (List.mem_reverse.mp hpath)).mono fun found hfound => ?_
  subst hfound
  refine ⟨fun other hother => ?_, fun hne hnone => ?_⟩
  · obtain ⟨path, -, rfl⟩ := Option.map_eq_some_iff.mp hother
    exact ⟨rfl, rfl, rfl⟩
  · rw [Option.map_eq_none_iff, List.head?_eq_none_iff, List.reverse_eq_nil_iff] at hnone
    exact hne hnone

theorem yields_probeLocation_shelved (hshelved : Shelved catalog suffix locations m first)
    (hsuffix : r.suffix = suffix) (hcatalog : r.catalog = catalog) {location : String}
    (hlocation : location ∈ locations) :
    Yields (Host.Still first.tree first.aliases) (r.probeLocation m.identity location)
      fun found => (∀ other, found = some other → m.Like other) ∧
        (Holds suffix m first location → found ≠ none) := by
  refine Yields.get.bind fun h hstill => ?_
  rw [hstill.mount?_eq]
  cases hmount : first.mount? location with
  | none =>
      refine Yields.pure ⟨fun _ hnone => (by cases hnone), ?_⟩
      rintro ⟨mount, hsome, -⟩
      rw [hmount] at hsome
      cases hsome
  | some mount =>
      have hlist : Yields (Host.Still first.tree first.aliases) (Host.list mount.root r.suffix)
          fun listed => listed = .ok (first.tree.listing mount.root suffix) := by
        refine (Host.yields_list (Host.lasting_still _ _) _ _).answering fun host hhost => ?_
        rw [Host.result_list_of_calm hhost.calm, hhost.tree, hsuffix]
      refine hlist.bind fun listed hlisted => ?_
      subst hlisted
      refine Yields.get.bind fun now hnow => ?_
      dsimp only
      rw [hnow.tree, hsuffix]
      refine (yields_loadNamed_shelved hshelved hcatalog fun path hpath => ?_).mono
        fun found hfound => ⟨hfound.1, ?_⟩
      · rw [List.mem_filter, Bool.and_eq_true] at hpath
        exact hshelved.alone location hlocation mount hmount path hpath.1 hpath.2.1 hpath.2.2
      · rintro ⟨other, hsome, path, hpath, hname, hsame⟩
        rw [hmount, Option.some.injEq] at hsome
        subst hsome
        have hthere : first.tree.isThere path = true := by
          have hm := hshelved.isThere
          unfold Storage.Tree.isThere at hm ⊢
          rwa [hsame]
        refine hfound.2 (List.ne_nil_of_mem (List.mem_filter.mpr ⟨hpath, ?_⟩))
        rw [hname, hthere]
        rfl

theorem yields_probeLocations_shelved (hshelved : Shelved catalog suffix locations m first)
    (hsuffix : r.suffix = suffix) (hcatalog : r.catalog = catalog) {kept : List String}
    (hkept : ∀ location ∈ kept, location ∈ locations)
    (hholds : ∃ location ∈ kept, Holds suffix m first location) (more : List String) :
    Yields (Host.Still first.tree first.aliases)
      (r.probeLocations m.identity (kept ++ more)) fun found =>
        ∃ other, found = some other ∧ m.Like other := by
  induction kept with
  | nil => simp at hholds
  | cons location rest ih =>
      obtain ⟨hin, hrest⟩ := List.forall_mem_cons.mp hkept
      refine (yields_probeLocation_shelved hshelved hsuffix hcatalog hin).bind ?_
      intro found ⟨hlike, hfound⟩
      cases found with
      | some other => exact Yields.pure ⟨other, rfl, hlike other rfl⟩
      | none =>
          refine ih hrest ?_
          obtain ⟨holder, hmem, hholder⟩ := hholds
          rcases List.mem_cons.mp hmem with rfl | hmem
          · exact absurd rfl (hfound hholder)
          · exact ⟨holder, hmem, hholder⟩

/-! What a resolver finds at all times. -/

/-- A resolver that has not missed the module and searches first where it is shelved. -/
structure Finds (catalog : Catalog) (suffix : String) (locations : List String)
    (m : LoadedModule) (r : Resolver) : Prop where
  suffix : r.suffix = suffix
  catalog : r.catalog = catalog
  locations : ∃ kept, kept <+: r.locations ∧ ∀ location, location ∈ kept ↔ location ∈ locations
  kept : ∀ outcome, r.memo.get? m.identity.text = some outcome →
    ∃ other, outcome = some other ∧ m.Like other

theorem Finds.probe (hfinds : Finds catalog suffix locations m r) {h : Host}
    (hshelved : Shelved catalog suffix locations m h) :
    ∃ other, (r.probe m.identity).result h = some other ∧ m.Like other := by
  obtain ⟨kept, ⟨more, hmore⟩, hsame⟩ := hfinds.locations
  have hholds : ∃ location ∈ kept, Holds suffix m h location := by
    obtain ⟨location, hlocation, hlisted⟩ := hshelved.listed
    exact ⟨location, (hsame location).mpr hlocation, hlisted⟩
  have hsearch := yields_probeLocations_shelved hshelved hfinds.suffix hfinds.catalog
    (fun location => (hsame location).mp) hholds more
  have hstill : Host.Still h.tree h.aliases h := ⟨rfl, rfl, hshelved.calm⟩
  have hprobe := ((Host.yields_note (Host.lasting_still h.tree h.aliases)
    (.probed m.identity.text)).bind fun _ _ => hsearch) h hstill
  rw [hmore] at hprobe
  exact hprobe.1

theorem Finds.addLocation (hfinds : Finds catalog suffix locations m r) (location : String) :
    Finds catalog suffix locations m (r.addLocation location) := by
  obtain ⟨kept, hprefix, hsame⟩ := hfinds.locations
  have hlater := later_addLocation r location
  refine ⟨hlater.suffix.trans hfinds.suffix, hlater.catalog.trans hfinds.catalog,
    ⟨kept, hprefix.trans hlater.locations, hsame⟩, ?_⟩
  unfold Resolver.addLocation
  split <;> exact hfinds.kept

/-- Only the identity of the module is asked for under its text. -/
def Unmistaken (m : LoadedModule) (requested : Identity) : Prop :=
  requested.text = m.identity.text → requested = m.identity

theorem unmistaken_of_readable (hm : m.identity.Readable) {requested : Identity}
    (h : requested.Readable) : Unmistaken m requested :=
  h.eq_of_text hm

theorem Finds.keep (hfinds : Finds catalog suffix locations m r) {requested : Identity}
    (hrequested : Unmistaken m requested) {h : Host}
    (hshelved : Shelved catalog suffix locations m h) :
    Finds catalog suffix locations m (r.keep requested ((r.probe requested).result h)) := by
  refine ⟨hfinds.suffix, hfinds.catalog, hfinds.locations, fun outcome houtcome => ?_⟩
  rw [get?_keep] at houtcome
  split at houtcome
  · rename_i htext
    have hsame : requested = m.identity := hrequested htext.symm
    subst hsame
    obtain ⟨other, hother, hlike⟩ := hfinds.probe hshelved
    exact ⟨other, (Option.some.inj houtcome).symm.trans hother, hlike⟩
  · exact hfinds.kept outcome houtcome

variable (catalog suffix locations)

theorem yields_resolve_finds (hm : m.identity.Readable) (r : Resolver) {requested : Identity}
    (hrequested : Unmistaken m requested) :
    Yields (Shelved catalog suffix locations m) (r.resolve requested) fun answer =>
      r.Later answer.2 ∧
        (Finds catalog suffix locations m r → Finds catalog suffix locations m answer.2) := by
  have hstep : ∀ r' identity, (r.Later r' ∧
      (Finds catalog suffix locations m r → Finds catalog suffix locations m r')) →
      Unmistaken m identity → r'.isMemoized identity = false →
      Yields (Shelved catalog suffix locations m) (r'.probe identity) fun outcome =>
        (r.Later (r'.keep identity outcome) ∧
          (Finds catalog suffix locations m r →
            Finds catalog suffix locations m (r'.keep identity outcome))) ∧
        ∀ reference ∈ referencesOf outcome, Unmistaken m reference := by
    intro r' identity ⟨hlater, hfinds⟩ hidentity hnew h hshelved
    have hlasting := (lasting_shelved catalog suffix locations m).and_has h.tree
    obtain ⟨hfound, hafter, -⟩ :=
      yields_probe hlasting (fun _ h => h.2) r' identity h ⟨hshelved, rfl⟩
    have hkeep := (yields_probe_later h.tree hlater identity hnew h rfl).1.1
    refine ⟨⟨⟨hkeep, fun hr => (hfinds hr).keep hidentity hshelved⟩, ?_⟩, hafter⟩
    intro reference hreference
    cases houtcome : (r'.probe identity).result h with
    | none => simp [houtcome, referencesOf] at hreference
    | some found =>
        obtain ⟨-, path, hpath⟩ := hfound found houtcome
        rw [houtcome] at hreference
        exact unmistaken_of_readable hm
          (Catalog.readable_of_moduleIn hpath reference (by simpa [referencesOf] using hreference))
  exact (yields_resolve hstep ⟨Later.refl r, id⟩ hrequested).mono fun _ h => h.1

end Resolver

end PluginHost
