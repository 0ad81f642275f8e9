import PluginHost.Proofs.Registry.Transparency
import PluginHost.Proofs.Resolution.ExactMatch
import PluginHost.Proofs.Storage.Reordering

/-!
What a scan finds in module files. Each file that can be loaded gives one component for each factory
of its module, and each of these one pair for each of its capabilities; a file that cannot be loaded
gives a report and nothing else, wherever it stands among the others. So sources that differ in such
files only give the same pairs; in another order, if their folders give the names of other folders in
another order and one of these is therefore entered by another way.
-/

namespace PluginHost

open Host HostM

/-! What is to be built. -/

/-- A factory, and the text of the identity of its module. -/
structure Build where
  module : String
  factory : Factory

def LoadedModule.builds (m : LoadedModule) : List Build :=
  m.factories.map fun factory => ⟨m.identity.text, factory⟩

namespace Build

def component (build : Build) (serial : Nat) : Component :=
  (build.factory.construct serial).inModule build.module

/-- The components that are built in turn, the first one with this serial number. -/
def components (builds : List Build) (serial : Nat) : List Component :=
  (builds.zipIdx serial).map fun entry => entry.1.component entry.2

/-- One pair for each component and each of its capabilities. -/
def pairs (builds : List Build) (serial : Nat) : List (Capability × Component) :=
  (components builds serial).flatMap Component.registrations

theorem components_append (first rest : List Build) (serial : Nat) :
    components (first ++ rest) serial =
      components first serial ++ components rest (serial + first.length) := by
  simp [components, List.zipIdx_append]

theorem pairs_append (first rest : List Build) (serial : Nat) :
    pairs (first ++ rest) serial = pairs first serial ++ pairs rest (serial + first.length) := by
  rw [pairs, components_append, List.flatMap_append]
  rfl

/-- The same thing is built as two different ones. -/
def Twins (pair other : Capability × Component) : Prop :=
  pair.1 = other.1 ∧ Component.Twins pair.2 other.2

theorem twins_registrations {build : Build} (hsteady : build.factory.Steady) (m n : Nat) :
    List.Forall₂ Twins (build.component m).registrations (build.component n).registrations := by
  have hsame : (build.component m).capabilities = (build.component n).capabilities :=
    (hsteady m n).2
  rw [Component.registrations, Component.registrations, hsame, List.forall₂_map_left_iff,
    List.forall₂_map_right_iff, List.forall₂_same]
  exact fun capability _ => ⟨rfl, .built build.factory build.module m n⟩

theorem twins_pairs {builds : List Build} (hsteady : ∀ build ∈ builds, build.factory.Steady)
    (m n : Nat) : List.Forall₂ Twins (pairs builds m) (pairs builds n) := by
  induction builds generalizing m n with
  | nil => exact .nil
  | cons build rest ih =>
      obtain ⟨hfirst, hrest⟩ := List.forall_mem_cons.mp hsteady
      exact List.rel_append (twins_registrations hfirst m n) (ih hrest (m + 1) (n + 1))

/-- The same things built in another order. -/
theorem exists_twins_of_perm {first second : List Build} (hperm : first.Perm second) (m n : Nat) :
    ∃ others, others.Perm (pairs second n) ∧
      ((∀ build ∈ first, build.factory.Steady) → List.Forall₂ Twins (pairs first m) others) := by
  have hplaces : ∀ (builds : List Build) (n : Nat),
      List.Forall₂ (fun build place => place.1 = build) builds (builds.zipIdx n) := by
    intro builds
    induction builds with
    | nil => exact fun _ => .nil
    | cons build rest ih => exact fun n => .cons rfl (ih (n + 1))
  -- Each build takes the serial number that it has in the other order.
  obtain ⟨places, hsame, hplaces⟩ := List.perm_comp_forall₂ hperm (hplaces second n)
  refine ⟨(places.map fun place => place.1.component place.2).flatMap Component.registrations,
    (hplaces.map _).flatMap_right _, fun hsteady => ?_⟩
  clear hplaces hperm
  induction hsame generalizing m with
  | nil => exact .nil
  | @cons build place rest places hbuild _ ih =>
      obtain ⟨hfirst, hrest⟩ := List.forall_mem_cons.mp hsteady
      subst hbuild
      exact List.rel_append (twins_registrations hfirst m place.2) (ih (m + 1) hrest)

end Build

theorem Component.pairwise_capabilities (c : Component) :
    c.capabilities.Pairwise fun a b => compare a b = .lt :=
  List.pairwise_map.mpr c.roles.ascending

namespace Host

/-- Between `h` and `h'` these files have been read, these failures reported and so many components
built, and nothing else has been accessed. -/
structure Worked (h h' : Host) (readings : List Path) (reports : List String) (built : Nat) :
    Prop where
  spent : h.Spent h' 0 readings reports
  births : h'.births = h.births + built

theorem Worked.refl (h : Host) : h.Worked h [] [] 0 :=
  ⟨Spent.refl h, rfl⟩

theorem Worked.trans {h h' h'' : Host} {readings others : List Path}
    {reports messages : List String} {built more : Nat} (hfirst : h.Worked h' readings reports built)
    (hsecond : h'.Worked h'' others messages more) :
    h.Worked h'' (readings ++ others) (reports ++ messages) (built + more) :=
  ⟨hfirst.spent.trans hsecond.spent, by rw [hsecond.births, hfirst.births, Nat.add_assoc]⟩

end Host

/-! Building and loading. -/

theorem Factory.worked_create (f : Factory) (h : Host) :
    f.create.result h = f.construct h.births ∧ h.Worked (f.create.after h) [] [] 1 := by
  refine ⟨rfl, ⟨?_, rfl, ?_, ?_⟩, rfl⟩
  · simp [create, note, spend]
  · simp [create, note, Host.readings, Event.read?]
  · simp [create, note, Host.reports, Event.reported?]

theorem LoadedModule.worked_mapM (m : LoadedModule) (factories : List Factory) (h : Host) :
    (factories.mapM m.instantiate).result h =
        Build.components (factories.map fun factory => ⟨m.identity.text, factory⟩) h.births ∧
      h.Worked ((factories.mapM m.instantiate).after h) [] [] factories.length := by
  induction factories generalizing h with
  | nil => exact ⟨rfl, Worked.refl h⟩
  | cons factory rest ih =>
      obtain ⟨hresult, hworked⟩ := factory.worked_create h
      obtain ⟨hrest, hmore⟩ := ih (factory.create.after h)
      rw [hworked.births] at hrest
      rw [List.mapM_cons]
      constructor
      · change (m.instantiate factory).result h :: (rest.mapM m.instantiate).result _ = _
        have hfirst : (m.instantiate factory).result h =
            (⟨m.identity.text, factory⟩ : Build).component h.births := rfl
        rw [hfirst]
        change _ :: (rest.mapM m.instantiate).result (factory.create.after h) = _
        rw [hrest]
        rfl
      · have hboth := hworked.trans hmore
        rw [Nat.add_comm] at hboth
        exact hboth

theorem LoadedModule.worked_instantiateAll (m : LoadedModule) (h : Host) :
    m.instantiateAll.result h = Build.components m.builds h.births ∧
      h.Worked (m.instantiateAll.after h) [] [] m.builds.length := by
  have hlength : m.builds.length = m.factories.length := List.length_map ..
  rw [hlength]
  exact m.worked_mapM m.factories h

theorem Catalog.births_load (catalog : Catalog) (path : Path) (h : Host) :
    ((catalog.load path).after h).births = h.births := by
  have henter : ∀ entryPoint (h : Host), ((catalog.enter entryPoint).after h).births = h.births := by
    intro entryPoint h
    rw [enter]
    cases catalog.get? entryPoint <;> rfl
  rw [load, after_bind]
  cases Manifest.ofContents path ((Host.read path).result h) with
  | error failure => rfl
  | ok m =>
      dsimp only
      cases m.identityAt path with
      | error failure => rfl
      | ok identity =>
          cases m.referencesAt path with
          | error failure => rfl
          | ok references =>
              dsimp only
              rw [after_bind]
              cases (catalog.enter m.entryPoint).result ((Host.read path).after h) with
              | none => exact henter _ _
              | some factories => exact henter _ _

theorem Catalog.worked_load (catalog : Catalog) (path : Path) (h : Host) :
    (catalog.load path).result h = catalog.moduleFrom path (h.readingAt 0 path) ∧
      h.Worked ((catalog.load path).after h) [path] [] 0 := by
  obtain ⟨hresult, hspent⟩ := catalog.spent_load path h
  exact ⟨hresult, hspent, catalog.births_load path h⟩

namespace Scanning

/-- What is built of the files that can be loaded, in turn. -/
def buildsOf (loads : List (Path × Except Failure LoadedModule)) : List Build :=
  (loads.filterMap (·.2.toOption)).flatMap LoadedModule.builds

theorem worked_loadAll (catalog : Catalog) (paths : List Path) (h : Host) :
    (loadAll catalog paths).result h =
        Build.pairs (buildsOf (h.answers 0 catalog.moduleFrom paths)) h.births ∧
      h.Worked ((loadAll catalog paths).after h) paths
        (Resolver.failures (h.answers 0 catalog.moduleFrom paths))
        (buildsOf (h.answers 0 catalog.moduleFrom paths)).length := by
  induction paths generalizing h with
  | nil => exact ⟨rfl, Worked.refl h⟩
  | cons path rest ih =>
      obtain ⟨hresult, hloaded⟩ := catalog.worked_load path h
      rw [loadAll, result_bind, after_bind, hresult, answers_cons]
      cases catalog.moduleFrom path (h.readingAt 0 path) with
      | error failure =>
          have hreport : ((catalog.load path).after h).Worked
              ((report failure.message).after ((catalog.load path).after h)) [] [failure.message] 0 :=
            ⟨spent_report _ _, rfl⟩
          have hfailed := hloaded.trans hreport
          obtain ⟨hrest, hafter⟩ := ih ((report failure.message).after ((catalog.load path).after h))
          rw [hfailed.spent.answers, hfailed.births] at hrest
          rw [hfailed.spent.answers] at hafter
          have hboth := hfailed.trans hafter
          rw [Nat.zero_add] at hboth
          exact ⟨hrest, hboth⟩
      | ok m =>
          obtain ⟨hcomponents, hbuilt⟩ := m.worked_instantiateAll ((catalog.load path).after h)
          have hmodule := hloaded.trans hbuilt
          obtain ⟨hrest, hafter⟩ := ih (m.instantiateAll.after ((catalog.load path).after h))
          rw [hmodule.spent.answers, hmodule.births] at hrest
          rw [hmodule.spent.answers] at hafter
          have hbuilds : ∀ loads, buildsOf ((path, .ok m) :: loads) = m.builds ++ buildsOf loads :=
            fun _ => rfl
          have hboth := hmodule.trans hafter
          rw [Nat.zero_add] at hrest hboth
          rw [hbuilds, Build.pairs_append, List.length_append]
          refine ⟨?_, hboth⟩
          dsimp only
          rw [result_bind, result_bind, hcomponents, hrest, hloaded.births]
          rfl

/-! A source that can be scanned. -/

/-- The host of a scan once the generators have been asked, the folder of the source, and the module
files in it. -/
structure Source where
  host : Host
  mount : Mount
  files : List Path

/-- A scan of the location meets this source: it can be mounted, and its files enumerated. -/
structure Meets (suffix location : String) (r : Registry) (h : Host) (s : Source) : Prop where
  named : Text.allBlank location = false
  mounted : h.mount? location = some s.mount
  asked : s.host = (findTemplates s.mount r).after h
  listed : (Host.list s.mount.root suffix).result s.host = .ok s.files

namespace Source

/-- What comes of loading the files, in turn. -/
def loads (catalog : Catalog) (s : Source) : List (Path × Except Failure LoadedModule) :=
  s.host.answers 0 catalog.moduleFrom s.files

def builds (catalog : Catalog) (s : Source) : List Build :=
  buildsOf (s.loads catalog)

end Source

section

variable {catalog : Catalog} {suffix location : String} {r : Registry} {h : Host} {s : Source}

theorem meets_of_clear {mount : Mount} {files : List Path}
    (hnamed : Text.allBlank location = false) (hmounted : h.mount? location = some mount)
    (hclear : Storage.Disk.firstFault
      ((findTemplates mount r).after h).disk.prospect.listings = none)
    (hfiles : ((findTemplates mount r).after h).tree.listing mount.root suffix = files) :
    Meets suffix location r h ⟨(findTemplates mount r).after h, mount, files⟩ where
  named := hnamed
  mounted := hmounted
  asked := rfl
  listed := by rw [result_list_eq, hclear, ← hfiles]

theorem Meets.reading (hmeets : Meets suffix location r h s) : h.Reading s.host := by
  have houtlasts := Registry.outlasts_steps (fun _ => True)
    (Registry.lawful_lasting h.lasting_reading) Capability.generator r
  rw [hmeets.asked]
  exact (houtlasts.findTemplates h.lasting_reading .refl s.mount h (.refl h)).2

theorem Meets.files_eq (hmeets : Meets suffix location r h s) :
    s.files = h.tree.listing s.mount.root suffix := by
  have hlisted := hmeets.listed
  rw [result_list_eq] at hlisted
  split at hlisted
  · cases hlisted
  · rw [← hmeets.reading.tree]
    exact (Except.ok.inj hlisted).symm

theorem Meets.pairwise_files (hmeets : Meets suffix location r h s) :
    s.files.Pairwise fun a b => (compare a b).isLE := by
  rw [hmeets.files_eq, Storage.Tree.listing]
  split
  · exact List.pairwise_mergeSort isLE_trans isLE_total _
  · exact .nil

theorem Meets.loads_of_calm (hmeets : Meets suffix location r h s) (hcalm : h.Calm)
    (catalog : Catalog) :
    s.loads catalog = s.files.map fun path => (path, catalog.moduleIn h.tree path) := by
  have hreading := hmeets.reading
  simp only [Source.loads, answers, Resolver.readingAt_of_calm (hreading.calm hcalm), hreading.tree]
  conv_rhs => rw [← List.zipIdx_map_fst 0 s.files, List.map_map]
  rfl

theorem Meets.worked_findComponents (hmeets : Meets suffix location r h s) (catalog : Catalog) :
    (findComponents catalog suffix s.mount).result s.host =
        Build.pairs (s.builds catalog) s.host.births ∧
      s.host.Spent ((findComponents catalog suffix s.mount).after s.host) 1 s.files
        (Resolver.failures (s.loads catalog)) ∧
      ((findComponents catalog suffix s.mount).after s.host).births =
        s.host.births + (s.builds catalog).length := by
  have hlist := spent_list s.mount.root suffix s.host
  obtain ⟨hpairs, hworked⟩ :=
    worked_loadAll catalog s.files ((Host.list s.mount.root suffix).after s.host)
  have hspent := hlist.trans hworked.spent
  have hbirths := hworked.births
  rw [hlist.answers] at hpairs hspent hbirths
  rw [findComponents, result_bind, after_bind, hmeets.listed]
  exact ⟨hpairs, hspent, hbirths⟩

theorem Meets.scan_eq (hmeets : Meets suffix location r h s) (catalog : Catalog) :
    (∃ result, ((scan catalog suffix location r).result h).1 = .ok result ∧
        result.components = (findComponents catalog suffix s.mount).result s.host) ∧
      (scan catalog suffix location r).after h =
        (findComponents catalog suffix s.mount).after s.host := by
  rw [scan, hmeets.named, if_neg (by simp), result_bind, after_bind, result_get, after_get,
    hmeets.mounted, hmeets.asked]
  exact ⟨⟨_, rfl, rfl⟩, rfl⟩

end

/-! Two sources. -/

section

variable {catalog : Catalog} {path : Path} {kept : List String → Bool} {s s' : Source}

/-- What is built of a file when it has been read. -/
def buildsFrom (catalog : Catalog) (path : Path) (contents : Except Storage.Fault String) :
    List Build :=
  match catalog.moduleFrom path contents with
  | .ok m => m.builds
  | .error _ => []

/-- It depends on the text alone, wherever the file stands. -/
theorem buildsFrom_congr (catalog : Catalog) (path other : Path)
    {contents contents' : Except Storage.Fault String}
    (h : contents.toOption = contents'.toOption) :
    buildsFrom catalog path contents = buildsFrom catalog other contents' := by
  cases contents with
  | error fault =>
      cases contents' with
      | error fault' => rfl
      | ok text' => cases h
  | ok text =>
      obtain rfl := toOption_eq_some.mp h.symm
      simp only [buildsFrom, Catalog.moduleFrom, Manifest.ofContents]
      cases Json.decodeText Manifest.decode text with
      | error failure => rfl
      | ok m =>
          simp only [Except.mapError, bind, Except.bind, Manifest.identityAt,
            Manifest.referencesAt]
          cases m.identity with
          | error failure => rfl
          | ok identity =>
              cases m.referenceIdentities with
              | error failure => rfl
              | ok references =>
                  dsimp only
                  cases catalog.get? m.entryPoint with
                  | none => rfl
                  | some factories => rfl

theorem buildsOf_answers (h : Host) (k : Nat) (paths : List Path) :
    buildsOf (h.answers k catalog.moduleFrom paths) =
      (paths.zipIdx k).flatMap fun entry =>
        buildsFrom catalog entry.1 (h.readingAt entry.2 entry.1) := by
  induction paths generalizing k with
  | nil => rfl
  | cons path rest ih =>
      rw [answers_cons, List.zipIdx_cons, List.flatMap_cons, ← ih, buildsFrom]
      cases catalog.moduleFrom path (h.readingAt k path) with
      | ok m => rfl
      | error failure => rfl

/-- The files at the ways that are kept are read without a fault, and no other file can be loaded. -/
structure Source.Within (catalog : Catalog) (kept : List String → Bool) (s : Source) : Prop where
  read : ∀ way place, Storage.Tree.Plain way → kept way = true →
    (s.mount.root.spell way, place) ∈ s.files.zipIdx →
      (s.host.readingAt place (s.mount.root.spell way)).toOption =
        (s.host.tree.read (s.mount.root.spell way)).toOption
  rest : ∀ way place, Storage.Tree.Plain way → kept way = false →
    (s.mount.root.spell way, place) ∈ s.files.zipIdx →
      ∀ m, catalog.moduleFrom (s.mount.root.spell way)
        (s.host.readingAt place (s.mount.root.spell way)) ≠ .ok m

/-- Entries that give nothing can be left out, and places that make no difference. -/
theorem flatMap_zipIdx_eq {α β : Type} {p : α → Bool} {f : α × Nat → List β} {g : α → List β}
    {l : List α} {k : Nat} (hkept : ∀ entry ∈ l.zipIdx k, p entry.1 = true → f entry = g entry.1)
    (hrest : ∀ entry ∈ l.zipIdx k, p entry.1 = false → f entry = []) :
    (l.zipIdx k).flatMap f = (l.filter p).flatMap g := by
  induction l generalizing k with
  | nil => rfl
  | cons a l ih =>
      rw [List.zipIdx_cons] at hkept hrest ⊢
      obtain ⟨hfirst, hkept⟩ := List.forall_mem_cons.mp hkept
      obtain ⟨hnone, hrest⟩ := List.forall_mem_cons.mp hrest
      rw [List.flatMap_cons, ih hkept hrest]
      cases ha : p a with
      | true => rw [hfirst ha, List.filter_cons_of_pos ha, List.flatMap_cons]
      | false => rw [hnone ha, List.filter_cons_of_neg (by simp [ha]), List.nil_append]

theorem Source.Within.builds_eq (hwithin : s.Within catalog kept) {ways : List (List String)}
    (hfiles : s.files = ways.map s.mount.root.spell)
    (hways : ∀ way ∈ ways, Storage.Tree.Plain way) :
    s.builds catalog = (ways.filter kept).flatMap fun way =>
      buildsFrom catalog (s.mount.root.spell way) (s.host.tree.read (s.mount.root.spell way)) := by
  have hentry : ∀ entry ∈ ways.zipIdx, Storage.Tree.Plain entry.1 ∧
      (s.mount.root.spell entry.1, entry.2) ∈ s.files.zipIdx := by
    intro entry hentry
    rw [hfiles, List.zipIdx_map]
    exact ⟨hways _ (List.fst_mem_of_mem_zipIdx hentry), List.mem_map_of_mem hentry⟩
  rw [builds, loads, buildsOf_answers, hfiles, List.zipIdx_map, List.flatMap_map]
  apply flatMap_zipIdx_eq
  · intro entry hmem hkept
    obtain ⟨hplain, hfile⟩ := hentry entry hmem
    exact buildsFrom_congr catalog _ _ (hwithin.read entry.1 entry.2 hplain hkept hfile)
  · intro entry hmem hleft
    obtain ⟨hplain, hfile⟩ := hentry entry hmem
    have hnever := hwithin.rest entry.1 entry.2 hplain hleft hfile
    dsimp only [Prod.map, id, buildsFrom]
    split
    · rename_i m hm
      exact absurd hm (hnever m)
    · rfl

theorem Source.within_of_files (agree : Path → Bool)
    (hread : ∀ entry ∈ s.files.zipIdx, agree entry.1 = true →
      (s.host.readingAt entry.2 entry.1).toOption = (s.host.tree.read entry.1).toOption)
    (hrest : ∀ entry ∈ s.files.zipIdx, agree entry.1 = false →
      (catalog.moduleFrom entry.1 (s.host.readingAt entry.2 entry.1)).toOption.isNone = true) :
    s.Within catalog fun way => agree (s.mount.root.spell way) where
  read := fun _ _ _ hkept hmem => hread _ hmem hkept
  rest := by
    intro way place _ hleft hmem m hm
    have hnone := hrest _ hmem hleft
    dsimp only at hnone
    rw [hm] at hnone
    cases hnone

/-- The sources differ in files that cannot be loaded, at most. -/
structure Source.Alike (catalog : Catalog) (kept : List String → Bool) (s s' : Source) : Prop where
  common : s.host.tree.InCommon s.mount.root s'.host.tree s'.mount.root kept
  within : s.Within catalog kept
  within' : s'.Within catalog kept

theorem toOption_read_of_folder {t : Storage.Tree} (hfolder : t.isFolder path = true) :
    (t.read path).toOption = none := by
  cases hread : t.read path with
  | error fault => rfl
  | ok text => simp [Storage.Tree.not_folder_of_read hread] at hfolder

theorem Source.Alike.builds_eq (halike : s.Alike catalog kept s') {h h' : Host}
    {suffix location location' : String} {r r' : Registry}
    (hmeets : Meets suffix location r h s) (hmeets' : Meets suffix location' r' h' s')
    (hsound : h.tree.Sound) (hsound' : h'.tree.Sound) : s.builds catalog = s'.builds catalog := by
  have hcommon := halike.common
  rw [hmeets.reading.tree, hmeets'.reading.tree] at hcommon
  obtain ⟨ways, ways', hfiles, hfiles', hways, hways', hsame⟩ :=
    hcommon.listings hsound hsound' suffix
  rw [← hmeets.files_eq] at hfiles
  rw [← hmeets'.files_eq] at hfiles'
  rw [halike.within.builds_eq hfiles hways, halike.within'.builds_eq hfiles' hways', hsame]
  apply List.flatMap_congr
  intro way hway
  obtain ⟨hmem, hkept⟩ := List.mem_filter.mp hway
  apply buildsFrom_congr
  rcases halike.common.alike way (hways' way hmem) hkept with hfolders | hread
  · rw [toOption_read_of_folder hfolders.1, toOption_read_of_folder hfolders.2]
  · obtain ⟨text, hread, hread'⟩ := hread
    rw [hread, hread']

/-- What is built of a file of a source. -/
def Source.buildsAt (catalog : Catalog) (s : Source) (place : Path × Nat) : List Build :=
  buildsFrom catalog place.1 (s.host.readingAt place.2 place.1)

/-- The same path leads through the same folders and links to the files of both sources, in whatever
order these come, and the limits hide none. An entry that is in both is read to the same text, and one
that is in one of them only cannot be loaded; neither can one be loaded that is not read alike. -/
structure Source.Shuffled (catalog : Catalog) (s s' : Source) : Prop where
  root : s'.mount.root = s.mount.root
  scaffold : s.host.tree.Scaffold s'.host.tree
  scaffold' : s'.host.tree.Scaffold s.host.tree
  clear : s.host.tree.Clear s.mount.root s.host.tree.visitBound
  clear' : s'.host.tree.Clear s.mount.root s'.host.tree.visitBound
  both : ∀ place ∈ s.files.zipIdx, ∀ place' ∈ s'.files.zipIdx, ∀ f name,
    s.host.tree.Denotes place.1 f name → s'.host.tree.Denotes place'.1 f name →
      (s.host.readingAt place.2 place.1).toOption = (s'.host.readingAt place'.2 place'.1).toOption ∨
        s.buildsAt catalog place = [] ∧ s'.buildsAt catalog place' = []
  lone : ∀ place ∈ s.files.zipIdx, ∀ f name, s.host.tree.Denotes place.1 f name →
    name ∉ s'.host.tree.namesIn f → s.buildsAt catalog place = []
  lone' : ∀ place ∈ s'.files.zipIdx, ∀ f name, s'.host.tree.Denotes place.1 f name →
    name ∉ s.host.tree.namesIn f → s'.buildsAt catalog place = []

/-- This is so if all files of both sources stand in one folder with nothing else in it, and those of
the same name are read alike or cannot be loaded. -/
theorem Source.shuffled_of_flat (hroot : s'.mount.root = s.mount.root) {f : Storage.Address}
    (hflat : s.host.tree.Flat s.mount.root f) (hflat' : s'.host.tree.Flat s.mount.root f)
    (hscaffold : s.host.tree.Scaffold s'.host.tree) (hscaffold' : s'.host.tree.Scaffold s.host.tree)
    (hsound : s.host.tree.Sound) (hsound' : s'.host.tree.Sound)
    (hfiles : ∀ place ∈ s.files.zipIdx, place.1.parent = some s.mount.root)
    (hfiles' : ∀ place ∈ s'.files.zipIdx, place.1.parent = some s.mount.root)
    (hboth : ∀ place ∈ s.files.zipIdx, ∀ place' ∈ s'.files.zipIdx,
      place.1.fileName = place'.1.fileName →
        (s.host.readingAt place.2 place.1).toOption =
            (s'.host.readingAt place'.2 place'.1).toOption ∨
          s.buildsAt catalog place = [] ∧ s'.buildsAt catalog place' = [])
    (hlone : ∀ place ∈ s.files.zipIdx, ∀ name ∈ place.1.fileName,
      name ∉ s'.host.tree.namesIn f → s.buildsAt catalog place = [])
    (hlone' : ∀ place ∈ s'.files.zipIdx, ∀ name ∈ place.1.fileName,
      name ∉ s.host.tree.namesIn f → s'.buildsAt catalog place = []) :
    s.Shuffled catalog s' := by
  have hfolder : ∀ {t : Storage.Tree} {path : Path} {g : Storage.Address} {name : String},
      t.Flat s.mount.root f → path.parent = some s.mount.root → t.Denotes path g name → g = f := by
    intro t path g name hflat hpath hdenotes
    obtain ⟨parent, hparent, hg⟩ := hdenotes.parent
    obtain rfl := Option.some.inj (hpath.symm.trans hparent)
    exact hg.unique hflat.opens
  refine ⟨hroot, hscaffold, hscaffold', hflat.clear hsound _, hflat'.clear hsound' _, ?_, ?_, ?_⟩
  · intro place hplace place' hplace' g name hdenotes hdenotes'
    exact hboth place hplace place' hplace' (hdenotes.name.trans hdenotes'.name.symm)
  · intro place hplace g name hdenotes hnone
    rw [hfolder hflat (hfiles place hplace) hdenotes] at hnone
    exact hlone place hplace name hdenotes.name hnone
  · intro place hplace g name hdenotes hnone
    rw [hfolder hflat' (hfiles' place hplace) hdenotes] at hnone
    exact hlone' place hplace name hdenotes.name hnone

theorem Source.Shuffled.perm_builds (hshuffled : s.Shuffled catalog s') {h h' : Host}
    {suffix location location' : String} {r r' : Registry}
    (hmeets : Meets suffix location r h s) (hmeets' : Meets suffix location' r' h' s')
    (hsound : h.tree.Sound) (hsound' : h'.tree.Sound) :
    (s.builds catalog).Perm (s'.builds catalog) := by
  have htree := hmeets.reading.tree
  have htree' := hmeets'.reading.tree
  have hwalked : s.host.tree.Walked s.mount.root suffix s.files := by
    rw [hmeets.files_eq, ← htree]
    exact Storage.Tree.listing_walked (htree ▸ hsound) hshuffled.clear suffix
  have hwalked' : s'.host.tree.Walked s.mount.root suffix s'.files := by
    rw [hmeets'.files_eq, ← htree', hshuffled.root]
    exact Storage.Tree.listing_walked (htree' ▸ hsound') hshuffled.clear' suffix
  unfold builds loads
  rw [buildsOf_answers, buildsOf_answers]
  refine Storage.Tree.perm_of_walked hshuffled.scaffold hshuffled.scaffold' (htree ▸ hsound)
    (htree' ▸ hsound') hwalked hwalked' ?_ hshuffled.lone hshuffled.lone'
  intro place hplace place' hplace' f name hdenotes hdenotes'
  rcases hshuffled.both place hplace place' hplace' f name hdenotes hdenotes' with hsame | hnone
  · exact buildsFrom_congr catalog _ _ hsame
  · exact hnone.1.trans hnone.2.symm

end

/-- When a source can be mounted and its files enumerated, a scan gives one pair for each capability of
each component that is built, in the order of the files, of the factories of a module and of the
capabilities; it reports each file that cannot be loaded, and nothing else, once the generators have
been asked. A source that differs in files that cannot be loaded, at most, gives the same pairs, but
for the serial numbers of what is built: in the same order, if the folders give the names of what they
have in common in the same order, and otherwise in some order. -/
theorem scan_isolates (catalog : Catalog) (suffix location : String) (r : Registry) (h : Host)
    (s : Source) (hmeets : Meets suffix location r h s) :
    let scanned := scan catalog suffix location r
    let builds := s.builds catalog
    let pairs := Build.pairs builds s.host.births
    (∃ result, (scanned.result h).1 = .ok result ∧ result.components = pairs) ∧
    s.files = h.tree.listing s.mount.root suffix ∧
    s.files.Pairwise (fun a b => (compare a b).isLE) ∧
    (∀ component : Component, component.capabilities.Pairwise (fun a b => compare a b = .lt) ∧
      ∀ capability, capability ∈ component.capabilities ↔
        component.implements capability = true) ∧
    s.host.Spent (scanned.after h) 1 s.files (Resolver.failures (s.loads catalog)) ∧
    (scanned.after h).births = s.host.births + builds.length ∧
    (h.Calm → s.loads catalog = s.files.map fun path => (path, catalog.moduleIn h.tree path)) ∧
    ∀ location' r' h' s', Meets suffix location' r' h' s' → h.tree.Sound → h'.tree.Sound →
      ∃ result, ((scan catalog suffix location' r').result h').1 = .ok result ∧
        (∀ kept, s.Alike catalog kept s' →
          result.components = Build.pairs builds s'.host.births ∧
          ((∀ build ∈ builds, build.factory.Steady) →
            List.Forall₂ Build.Twins pairs result.components)) ∧
        (s.Shuffled catalog s' →
          ∃ others, others.Perm result.components ∧
            ((∀ build ∈ builds, build.factory.Steady) →
              List.Forall₂ Build.Twins pairs others)) := by
  intro scanned builds pairs
  obtain ⟨hresult, hafter⟩ := hmeets.scan_eq catalog
  obtain ⟨hpairs, hspent, hbirths⟩ := hmeets.worked_findComponents catalog
  rw [← hafter] at hspent hbirths
  rw [hpairs] at hresult
  refine ⟨hresult, hmeets.files_eq, hmeets.pairwise_files, fun component =>
    ⟨component.pairwise_capabilities, fun _ => Component.implements_iff.symm⟩, hspent, hbirths,
    fun hcalm => hmeets.loads_of_calm hcalm catalog, ?_⟩
  intro location' r' h' s' hmeets' hsound hsound'
  obtain ⟨⟨result, hresult', hcomponents⟩, -⟩ := hmeets'.scan_eq catalog
  obtain ⟨hpairs', -⟩ := hmeets'.worked_findComponents catalog
  rw [hpairs'] at hcomponents
  refine ⟨result, hresult', fun kept halike => ?_, fun hshuffled => ?_⟩
  · rw [hcomponents, ← halike.builds_eq hmeets hmeets' hsound hsound']
    exact ⟨rfl, fun hsteady => Build.twins_pairs hsteady _ _⟩
  · rw [hcomponents]
    exact Build.exists_twins_of_perm (hshuffled.perm_builds hmeets hmeets' hsound hsound') _ _

/-- Module files on a shelf. -/
def shelf (files : List (String × String)) (reads : List (Option Storage.Fault)) : Host where
  disk.tree.limits := .usual
  disk.tree.entries := ⟨⟨(["shelf"], .folder) :: files.map fun file =>
    (["shelf", file.1], .file (.text file.2))⟩, .empty⟩
  disk.tree.here := []
  disk.prospect := { Storage.Prospect.clear with reads }
  aliases := []
  trace := []
  births := 0
  now := ⟨2024, 1, 1, 0, 0, 0, 0⟩

theorem scaffold_shelf (files files' : List (String × String))
    (reads reads' : List (Option Storage.Fault)) :
    (shelf files reads).tree.Scaffold (shelf files' reads').tree := by
  refine Storage.Tree.scaffold_of_entries rfl rfl fun entry hentry hnofile => ?_
  rcases List.mem_cons.mp hentry with rfl | hfile
  · rfl
  · obtain ⟨file, -, rfl⟩ := List.mem_map.mp hfile
    exact absurd rfl (hnofile _)

theorem flat_shelf (files : List (String × String)) (reads : List (Option Storage.Fault)) :
    (shelf files reads).tree.Flat ⟨"/shelf"⟩ ["shelf"] := by
  refine ⟨rfl, rfl, fun name hname => ?_⟩
  have hthere := Storage.Tree.get?_ne_none_of_mem_keys (Storage.Tree.mem_namesIn.mp hname)
  obtain ⟨entry, hentry⟩ := Option.ne_none_iff_exists'.mp hthere
  rw [Storage.Tree.get?, if_neg (by simp)] at hentry
  rcases List.mem_cons.mp (Table.mem_entries_of_get? hentry) with heq | hfile
  · simp at heq
  · obtain ⟨file, -, heq⟩ := List.mem_map.mp hfile
    refine ⟨.text file.2, ?_⟩
    rw [Storage.Tree.get?, if_neg (by simp), hentry]
    exact congrArg some (Prod.mk.inj heq).2.symm

/-- Two modules among files that cannot be loaded, each for another reason. -/
def worn : Host :=
  shelf [
    ("a.module", "\x7b"),
    ("b.module", "\x7b\"name\": \"Chalk\", \"entry_point\": \"chalk\"\x7d"),
    ("c.module", "\x7b\"name\": \"Ink\", \"entry_point\": \"ink\"\x7d"),
    ("d.module", "\x7b\"name\": \"Wax\", \"entry_point\": \"ink\", \"public_key\": \"abc\"\x7d"),
    ("e.module", "\x7b\"name\": \"Soot\", \"entry_point\": \"ink\"\x7d"),
    ("f.module", "\x7b\"name\": \"Tar\", \"entry_point\": \"ink\", \"references\": [\",\"]\x7d"),
    ("g.module", "\x7b\"name\": \"Lines\", \"entry_point\": \"lines\"\x7d")]
    [none, none, none, none, some (.other "read fault")]

/-- The same modules and one such file. -/
def tidy : Host :=
  shelf [
    ("d.module", "wax"),
    ("c.module", "\x7b\"name\": \"Ink\", \"entry_point\": \"ink\"\x7d"),
    ("g.module", "\x7b\"name\": \"Lines\", \"entry_point\": \"lines\"\x7d")]
    []

/-- Both shelves give the same three pairs, from two of the three components that are built. -/
theorem scan_isolates_shelf :
    let pen : Blueprint := ⟨"Pen", .ofNat 1, ["write", "draw"], none, none, [], ""⟩
    let idle : Blueprint := ⟨"Idle", .ofNat 2, [], none, none, [], ""⟩
    let ruler : Blueprint := ⟨"Ruler", .ofNat 3, ["draw"], none, none, [], ""⟩
    let maker : Blueprint :=
      ⟨"Maker", .ofNat 4, [Capability.generator], none, some "no paper", [], ""⟩
    let catalog : Catalog :=
      ⟨[("ink", [pen.factory, idle.factory]), ("lines", [ruler.factory])]⟩
    let r := ((Registry.new (.new ".module" .strict catalog) (.new ⟨"/components.json"⟩)).addAll
      (maker.factory.construct 0).registrations).2
    let scanned := scan catalog ".module" "/shelf" r
    let found (h : Host) := (scanned.result h).1.toOption.map fun result =>
      result.components.map fun pair => (pair.1, pair.2.typeReference.text, pair.2.serial)
    let pairs := [("draw", "Pen, Ink, Culture=neutral, PublicKey=null", some 0),
      ("write", "Pen, Ink, Culture=neutral, PublicKey=null", some 0),
      ("draw", "Ruler, Lines, Culture=neutral, PublicKey=null", some 2)]
    found worn = some pairs ∧ found tidy = some pairs ∧
      (∃ s s' : Source, Meets ".module" "/shelf" r worn s ∧ Meets ".module" "/shelf" r tidy s' ∧
        s.Shuffled catalog s') ∧
      (scanned.after worn).reports = [
        "Generator 00000000-0000-0000-0000-000000000004 failed on /shelf: no paper",
        "Failed to load module /shelf/a.module: <json syntax>",
        "Failed to load module /shelf/b.module: entry point 'chalk' is not registered",
        "Failed to load module /shelf/d.module: Invalid module identity 'Wax': " ++
          "public key is not valid hex: Odd number of digits",
        "Failed to load module /shelf/e.module: read fault",
        "Failed to load module /shelf/f.module: Invalid module identity ',': " ++
          "'' is not a valid module name"] := by
  intro pen idle ruler maker catalog r scanned found pairs
  let mount : Mount := ⟨"/shelf", ⟨"/shelf"⟩⟩
  let asked (h : Host) : Host := (findTemplates mount r).after h
  let s : Source := ⟨asked worn, mount,
    [⟨"/shelf/a.module"⟩, ⟨"/shelf/b.module"⟩, ⟨"/shelf/c.module"⟩, ⟨"/shelf/d.module"⟩,
      ⟨"/shelf/e.module"⟩, ⟨"/shelf/f.module"⟩, ⟨"/shelf/g.module"⟩]⟩
  let s' : Source := ⟨asked tidy, mount,
    [⟨"/shelf/c.module"⟩, ⟨"/shelf/d.module"⟩, ⟨"/shelf/g.module"⟩]⟩
  have hlisted : (asked worn).tree.listing mount.root ".module" = s.files := by
    rw [Storage.Tree.listing_eq_insertionSort]
    decide +kernel
  have hlisted' : (asked tidy).tree.listing mount.root ".module" = s'.files := by
    rw [Storage.Tree.listing_eq_insertionSort]
    decide +kernel
  have hmeets : Meets ".module" "/shelf" r worn s :=
    meets_of_clear (by decide) (by decide +kernel) (by decide +kernel) hlisted
  have hmeets' : Meets ".module" "/shelf" r tidy s' :=
    meets_of_clear (by decide) (by decide +kernel) (by decide +kernel) hlisted'
  have hsound : worn.tree.Sound := by decide +kernel
  have hsound' : tidy.tree.Sound := by decide +kernel
  have htree : s.host.tree = worn.tree := hmeets.reading.tree
  have htree' : s'.host.tree = tidy.tree := hmeets'.reading.tree
  let agree : Path → Bool := worn.tree.agreesAt tidy.tree
  have hwithin : s.Within catalog fun way => agree (s.mount.root.spell way) :=
    Source.within_of_files agree (by decide +kernel) (by decide +kernel)
  have hwithin' : s'.Within catalog fun way => agree (s'.mount.root.spell way) :=
    Source.within_of_files agree (by decide +kernel) (by decide +kernel)
  have hcommon : s.host.tree.InCommon s.mount.root s'.host.tree s'.mount.root
      fun way => agree (s.mount.root.spell way) := by
    rw [htree, htree']
    refine (scaffold_shelf _ _ _ _).inCommon (scaffold_shelf _ _ _ _) mount.root
      fun way hway hfolder => ?_
    obtain rfl := (flat_shelf _ _).eq_nil hway hfolder
    decide +kernel
  have hshuffled : s.Shuffled catalog s' := by
    apply Source.shuffled_of_flat (show s'.mount.root = s.mount.root from rfl)
    · rw [htree]
      exact flat_shelf _ _
    · rw [htree']
      exact flat_shelf _ _
    · rw [htree, htree']
      exact scaffold_shelf _ _ _ _
    · rw [htree, htree']
      exact scaffold_shelf _ _ _ _
    · rw [htree]
      exact hsound
    · rw [htree']
      exact hsound'
    · decide +kernel
    · decide +kernel
    · decide +kernel
    · rw [htree']
      decide +kernel
    · rw [htree]
      decide +kernel
  obtain ⟨⟨result, hresult, hpairs⟩, -, -, -, hspent, -, -, hsame⟩ :=
    scan_isolates catalog ".module" "/shelf" r worn s hmeets
  obtain ⟨result', hresult', halike, -⟩ := hsame "/shelf" r tidy s' hmeets' hsound hsound'
  obtain ⟨hpairs', -⟩ := halike _ ⟨hcommon, hwithin, hwithin'⟩
  have hfound : ∀ {h result}, (scanned.result h).1 = .ok result → found h =
      some (result.components.map fun pair => (pair.1, pair.2.typeReference.text, pair.2.serial)) :=
    fun hresult => by
      dsimp only [found]
      rw [hresult]
      rfl
  refine ⟨?_, ?_, ⟨s, s', hmeets, hmeets', hshuffled⟩, ?_⟩
  · rw [hfound hresult, hpairs]
    decide +kernel
  · rw [hfound hresult', hpairs']
    decide +kernel
  · rw [hspent.reports]
    decide +kernel

end Scanning

end PluginHost
