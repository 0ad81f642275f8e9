import Mathlib.Algebra.GroupWithZero.Nat
import PluginHost.Proofs.Resolution.Closure
import PluginHost.Proofs.Storage.Listing

/-!
What a search does, location by location. A `Visit` says what a location has to offer, whichever of
the accesses to it fail: what the files of the name are identified as, and what comes of loading
those that are selected, the best first. The search answers with the first module that a visit
finds, and reports what has failed until then.
-/

namespace PluginHost

/-- The elements of a list as far as the first one of a kind, this one included. -/
def upTo {α : Type} (p : α → Bool) (l : List α) : List α :=
  l.take (l.findIdx p + 1)

theorem upTo_cons_of_pos {α : Type} {p : α → Bool} {a : α} (h : p a = true) (l : List α) :
    upTo p (a :: l) = [a] := by
  simp [upTo, List.findIdx_cons, h]

theorem upTo_cons_of_neg {α : Type} {p : α → Bool} {a : α} (h : p a = false) (l : List α) :
    upTo p (a :: l) = a :: upTo p l := by
  simp [upTo, List.findIdx_cons, h]

/-! Accesses in turn. -/

def Event.reported? : Event → Option String
  | .reported message => some message
  | _ => none

def Event.read? : Event → Option Path
  | .read path => some path
  | _ => none

namespace Host

open HostM

/-- The failures that have been reported, in turn. -/
def reports (h : Host) : List String :=
  h.trace.filterMap Event.reported?

/-- The files that have been read, in turn. -/
def readings (h : Host) : List Path :=
  h.trace.filterMap Event.read?

/-- What reading a file answers after `k` other readings. -/
def readingAt (h : Host) (k : Nat) (path : Path) : Except Storage.Fault String :=
  match h.disk.prospect.reads[k]?.join with
  | some fault => .error fault
  | none => h.tree.read path

/-- What comes of reading some files in turn, after `k` other readings. -/
def answers {β : Type} (h : Host) (k : Nat) (ask : Path → Except Storage.Fault String → β)
    (paths : List Path) : List (Path × β) :=
  (paths.zipIdx k).map fun entry => (entry.1, ask entry.1 (h.readingAt entry.2 entry.1))

theorem answers_cons {β : Type} (h : Host) (k : Nat) (ask : Path → Except Storage.Fault String → β)
    (path : Path) (rest : List Path) :
    h.answers k ask (path :: rest) =
      (path, ask path (h.readingAt k path)) :: h.answers (k + 1) ask rest :=
  rfl

theorem map_fst_answers {β : Type} (h : Host) (k : Nat)
    (ask : Path → Except Storage.Fault String → β) (paths : List Path) :
    (h.answers k ask paths).map Prod.fst = paths := by
  simp [answers, Function.comp_def, List.zipIdx_map_fst]

/-- What the next accesses meet after some listings and readings. -/
def spend (h : Host) (listings readings : Nat) : Storage.Prospect :=
  { h.disk.prospect with
    reads := h.disk.prospect.reads.drop readings
    listings := h.disk.prospect.listings.drop listings }

/-- Between `h` and `h'` so many folders have been listed, these files read and these failures
reported, and nothing else has been accessed. -/
structure Spent (h h' : Host) (listings : Nat) (readings : List Path) (reports : List String) :
    Prop where
  disk : h'.disk = { h.disk with prospect := h.spend listings readings.length }
  aliases : h'.aliases = h.aliases
  readings : h'.readings = h.readings ++ readings
  reports : h'.reports = h.reports ++ reports

variable {h h' h'' : Host} {listings more : Nat} {readings others : List Path}
  {reports messages : List String}

theorem Spent.refl (h : Host) : h.Spent h 0 [] [] :=
  ⟨by simp [spend], rfl, by simp, by simp⟩

theorem Spent.trans (hfirst : h.Spent h' listings readings reports)
    (hsecond : h'.Spent h'' more others messages) :
    h.Spent h'' (listings + more) (readings ++ others) (reports ++ messages) := by
  refine ⟨?_, hsecond.aliases.trans hfirst.aliases, ?_, ?_⟩
  · rw [hsecond.disk, hfirst.disk]
    simp [spend, hfirst.disk, List.drop_drop]
  · rw [hsecond.readings, hfirst.readings, List.append_assoc]
  · rw [hsecond.reports, hfirst.reports, List.append_assoc]

theorem Spent.tree (hspent : h.Spent h' listings readings reports) : h'.tree = h.tree := by
  rw [Host.tree, hspent.disk]
  rfl

theorem Spent.readingAt (hspent : h.Spent h' listings readings reports) (k : Nat) (path : Path) :
    h'.readingAt k path = h.readingAt (readings.length + k) path := by
  unfold Host.readingAt
  rw [hspent.tree, hspent.disk]
  simp only [spend, List.getElem?_drop]

theorem Spent.answers {β : Type} (hspent : h.Spent h' listings readings reports) (k : Nat)
    (ask : Path → Except Storage.Fault String → β) (paths : List Path) :
    h'.answers k ask paths = h.answers (readings.length + k) ask paths := by
  induction paths generalizing k with
  | nil => rfl
  | cons path rest ih =>
      rw [answers_cons, answers_cons, hspent.readingAt, ih, Nat.add_assoc]

theorem spent_note {event : Event} (hreported : event.reported? = none) (hread : event.read? = none)
    (h : Host) : h.Spent ((note event).after h) 0 [] [] := by
  refine ⟨by simp [note, spend], rfl, ?_, ?_⟩
  · simp [note, Host.readings, hread]
  · simp [note, Host.reports, hreported]

theorem spent_report (message : String) (h : Host) :
    h.Spent ((report message).after h) 0 [] [message] :=
  ⟨by simp [report, note, spend], rfl, by simp [report, note, Host.readings, Event.read?],
    by simp [report, note, Host.reports, Event.reported?]⟩

theorem result_read_eq (path : Path) (h : Host) :
    (read path).result h = h.readingAt 0 path := by
  simp only [read, note, result_bind, after_modify, result_modifyGet, Storage.Disk.read,
    Storage.Disk.firstFault, Host.readingAt, List.head?_eq_getElem?]
  cases h.disk.prospect.reads[0]?.join <;> rfl

theorem spent_read (path : Path) (h : Host) : h.Spent ((read path).after h) 0 [path] [] := by
  refine ⟨?_, rfl, ?_, ?_⟩
  · simp only [read, note, after_bind, after_modify, after_modifyGet, Storage.Disk.read, spend]
    split <;> simp
  · simp [read, note, Host.readings, Event.read?]
  · simp [read, note, Host.reports, Event.reported?]

theorem result_list_eq (folder : Path) (suffix : String) (h : Host) :
    (list folder suffix).result h =
      match Storage.Disk.firstFault h.disk.prospect.listings with
      | some fault => .error fault
      | none => .ok (h.tree.listing folder suffix) := by
  simp only [list, result_modifyGet, Storage.Disk.list]
  cases Storage.Disk.firstFault h.disk.prospect.listings <;> rfl

theorem spent_list (folder : Path) (suffix : String) (h : Host) :
    h.Spent ((list folder suffix).after h) 1 [] [] := by
  refine ⟨?_, rfl, ?_, ?_⟩
  · simp only [list, after_modifyGet, Storage.Disk.list, spend]
    split <;> simp
  · simp [list, Host.readings]
  · simp [list, Host.reports]

end Host

open Host HostM

/-! Identifying and loading, given what reading the file has answered. -/

namespace Catalog

def identityFrom (path : Path) (contents : Except Storage.Fault String) : Except Failure Identity :=
  (Manifest.ofContents path contents).bind fun m => m.identityAt path

def moduleFrom (catalog : Catalog) (path : Path) (contents : Except Storage.Fault String) :
    Except Failure LoadedModule := do
  let m ← Manifest.ofContents path contents
  let identity ← m.identityAt path
  let references ← m.referencesAt path
  match catalog.get? m.entryPoint with
  | none => .error (missingEntry path m.entryPoint)
  | some factories => .ok ⟨identity, path, references, factories⟩

theorem spent_identify (path : Path) (h : Host) :
    (identify path).result h = identityFrom path (h.readingAt 0 path) ∧
      h.Spent ((identify path).after h) 0 [path] [] := by
  refine ⟨?_, spent_read path h⟩
  rw [← result_read_eq]
  rfl

theorem spent_enter (catalog : Catalog) (entryPoint : String) (h : Host) :
    (catalog.enter entryPoint).result h = catalog.get? entryPoint ∧
      h.Spent ((catalog.enter entryPoint).after h) 0 [] [] := by
  rw [enter]
  cases catalog.get? entryPoint with
  | none => exact ⟨rfl, Spent.refl h⟩
  | some factories => exact ⟨rfl, spent_note rfl rfl h⟩

theorem spent_load (catalog : Catalog) (path : Path) (h : Host) :
    (catalog.load path).result h = catalog.moduleFrom path (h.readingAt 0 path) ∧
      h.Spent ((catalog.load path).after h) 0 [path] [] := by
  have hread := spent_read path h
  rw [load, result_bind, after_bind, result_read_eq, moduleFrom]
  cases Manifest.ofContents path (h.readingAt 0 path) with
  | error failure => exact ⟨rfl, hread⟩
  | ok m =>
      dsimp only [bind, Except.bind]
      cases m.identityAt path with
      | error failure => exact ⟨rfl, hread⟩
      | ok identity =>
          cases m.referencesAt path with
          | error failure => exact ⟨rfl, hread⟩
          | ok references =>
              obtain ⟨hresult, hspent⟩ := spent_enter catalog m.entryPoint ((read path).after h)
              have hboth := hread.trans hspent
              dsimp only
              change (_ >>= _ : HostM _).result _ = _ ∧ h.Spent ((_ >>= _ : HostM _).after _) _ _ _
              rw [result_bind, after_bind, hresult]
              cases catalog.get? m.entryPoint with
              | none => exact ⟨rfl, hboth⟩
              | some factories => exact ⟨rfl, hboth⟩

end Catalog

namespace Resolver

/-! Several files in turn. -/

def candidatesOf (identified : List (Path × Except Failure Identity)) : List Candidate :=
  identified.filterMap fun answer => answer.2.toOption.map fun identity => ⟨answer.1, identity⟩

def failures {α : Type} (answers : List (Path × Except Failure α)) : List String :=
  answers.filterMap fun answer =>
    match answer.2 with
    | .ok _ => none
    | .error failure => some failure.message

def isLoaded (answer : Path × Except Failure LoadedModule) : Bool :=
  answer.2.toOption.isSome

theorem spent_identifyAll (paths : List Path) (h : Host) :
    (identifyAll paths).result h = candidatesOf (h.answers 0 Catalog.identityFrom paths) ∧
      h.Spent ((identifyAll paths).after h) 0 paths
        (failures (h.answers 0 Catalog.identityFrom paths)) := by
  induction paths generalizing h with
  | nil => exact ⟨rfl, Spent.refl h⟩
  | cons path rest ih =>
      obtain ⟨hresult, hspent⟩ := Catalog.spent_identify path h
      rw [identifyAll, result_bind, after_bind, hresult, answers_cons]
      cases Catalog.identityFrom path (h.readingAt 0 path) with
      | ok identity =>
          obtain ⟨hrest, hafter⟩ := ih ((Catalog.identify path).after h)
          rw [hspent.answers] at hrest hafter
          refine ⟨?_, hspent.trans hafter⟩
          rw [result_bind, hrest]
          rfl
      | error failure =>
          have hfailed := hspent.trans
            (spent_report failure.message ((Catalog.identify path).after h))
          obtain ⟨hrest, hafter⟩ :=
            ih ((report failure.message).after ((Catalog.identify path).after h))
          rw [hfailed.answers] at hrest hafter
          exact ⟨hrest, hfailed.trans hafter⟩

theorem spent_loadFirst (catalog : Catalog) (paths : List Path) (h : Host) :
    (loadFirst catalog paths).result h =
        (h.answers 0 catalog.moduleFrom paths).findSome? (·.2.toOption) ∧
      h.Spent ((loadFirst catalog paths).after h) 0
        ((upTo isLoaded (h.answers 0 catalog.moduleFrom paths)).map Prod.fst)
        (failures (upTo isLoaded (h.answers 0 catalog.moduleFrom paths))) := by
  induction paths generalizing h with
  | nil => exact ⟨rfl, Spent.refl h⟩
  | cons path rest ih =>
      obtain ⟨hresult, hspent⟩ := Catalog.spent_load catalog path h
      rw [loadFirst, result_bind, after_bind, hresult, answers_cons]
      cases catalog.moduleFrom path (h.readingAt 0 path) with
      | ok module =>
          rw [upTo_cons_of_pos (p := isLoaded) rfl]
          exact ⟨rfl, hspent⟩
      | error failure =>
          have hfailed := hspent.trans
            (spent_report failure.message ((catalog.load path).after h))
          obtain ⟨hrest, hafter⟩ :=
            ih ((report failure.message).after ((catalog.load path).after h))
          rw [hfailed.answers] at hrest hafter
          rw [upTo_cons_of_neg (p := isLoaded) rfl]
          exact ⟨hrest, hfailed.trans hafter⟩

end Resolver

/-! One location. -/

/-- What a location has to offer to a search. -/
inductive Visit where
  | unmountable
  | unlisted (report : String)
  /-- What the files of the name are identified as, in the order of paths, and what comes of loading
  those that are selected, the last one first. -/
  | searched (identified : List (Path × Except Failure Identity))
      (loads : List (Path × Except Failure LoadedModule))

namespace Visit

/-- The module of the last selected file that can be loaded. -/
def found : Visit → Option LoadedModule
  | .searched _ loads => loads.findSome? (·.2.toOption)
  | _ => none

/-- All files that cannot be identified, and then the selected ones that cannot be loaded, from the
last one on as far as one that can. -/
def reports : Visit → List String
  | .unmountable => []
  | .unlisted report => [report]
  | .searched identified loads =>
      Resolver.failures identified ++ Resolver.failures (upTo Resolver.isLoaded loads)

def readings : Visit → List Path
  | .searched identified loads =>
      identified.map Prod.fst ++ (upTo Resolver.isLoaded loads).map Prod.fst
  | _ => []

def listings : Visit → Nat
  | .unmountable => 0
  | _ => 1

end Visit

/-- The host when this visit is over, but for its trace. -/
def Host.past (h : Host) (visit : Visit) : Host :=
  { h with disk := { h.disk with prospect := h.spend visit.listings visit.readings.length } }

namespace Resolver

variable (r : Resolver) (requested : Identity)

/-- The files that have the name of the module, of all files below a folder. -/
def named (tree : Storage.Tree) (root : Path) : List Path :=
  (tree.listing root "").filter fun path =>
    path.isNamed (requested.name ++ r.suffix) && tree.isThere path

def visit (h : Host) (location : String) : Visit :=
  match h.mount? location with
  | none => .unmountable
  | some mount =>
      match Storage.Disk.firstFault h.disk.prospect.listings with
      | some fault => .unlisted (enumerationReport location fault)
      | none =>
          let files := r.named requested h.tree mount.root
          let identified := h.answers 0 Catalog.identityFrom files
          let selected := Selection.select r.policy requested (candidatesOf identified)
          .searched identified (h.answers files.length r.catalog.moduleFrom selected.reverse)

/-- Visits to some locations in turn, whether or not one has found something. -/
def visits (h : Host) : List String → List Visit
  | [] => []
  | location :: rest =>
      r.visit requested h location :: visits (h.past (r.visit requested h location)) rest

variable {r requested}

theorem named_eq (tree : Storage.Tree) (root : Path) :
    (tree.listing root r.suffix).filter (fun path =>
      path.isNamed (requested.name ++ r.suffix) && tree.isThere path) =
        r.named requested tree root := by
  refine Storage.Tree.filter_listing_of_suffix tree root fun path hpath => ?_
  exact Path.hasSuffix_of_isNamed (Bool.and_eq_true_iff.mp hpath).1

theorem visit_congr {h h' : Host} (hdisk : h'.disk = h.disk) (haliases : h'.aliases = h.aliases)
    (location : String) : r.visit requested h' location = r.visit requested h location := by
  have htree : h'.tree = h.tree := congrArg Storage.Disk.tree hdisk
  have hanswers : ∀ {β : Type} (k : Nat) (ask : Path → Except Storage.Fault String → β) paths,
      h'.answers k ask paths = h.answers k ask paths := by
    intro β k ask paths
    simp only [answers, readingAt, hdisk, htree]
  simp only [visit, mount?, hanswers, hdisk, haliases, htree]

theorem visits_congr {h h' : Host} (hdisk : h'.disk = h.disk) (haliases : h'.aliases = h.aliases)
    (locations : List String) :
    r.visits requested h' locations = r.visits requested h locations := by
  induction locations generalizing h h' with
  | nil => rfl
  | cons location rest ih =>
      rw [visits, visits, visit_congr hdisk haliases]
      refine congrArg _ (ih ?_ haliases)
      simp only [past, spend, hdisk]

theorem spent_probeLocation (r : Resolver) (requested : Identity) (location : String) (h : Host) :
    let visit := r.visit requested h location
    (r.probeLocation requested location).result h = visit.found ∧
      h.Spent ((r.probeLocation requested location).after h) visit.listings visit.readings
        visit.reports := by
  rw [probeLocation, result_bind, after_bind, result_get, after_get, visit]
  cases h.mount? location with
  | none => exact ⟨rfl, Spent.refl h⟩
  | some mount =>
      have hlist := spent_list mount.root r.suffix h
      dsimp only
      rw [result_bind, after_bind, result_list_eq]
      cases Storage.Disk.firstFault h.disk.prospect.listings with
      | some fault => exact ⟨rfl, hlist.trans (spent_report _ _)⟩
      | none =>
          dsimp only
          rw [result_bind, after_bind, result_get, after_get, hlist.tree, named_eq]
          obtain ⟨hidentified, hidentifying⟩ := spent_identifyAll
            (r.named requested h.tree mount.root) ((list mount.root r.suffix).after h)
          rw [hlist.answers] at hidentified hidentifying
          have hbefore := hlist.trans hidentifying
          rw [result_bind, after_bind, hidentified]
          obtain ⟨hloaded, hloading⟩ := spent_loadFirst r.catalog
            (Selection.select r.policy requested (candidatesOf (h.answers 0 Catalog.identityFrom
              (r.named requested h.tree mount.root)))).reverse
            ((identifyAll (r.named requested h.tree mount.root)).after
              ((list mount.root r.suffix).after h))
          rw [hbefore.answers] at hloaded hloading
          refine ⟨hloaded, ?_⟩
          have hall := hbefore.trans hloading
          simpa [Visit.listings, Visit.readings, Visit.reports, map_fst_answers] using hall

/-! All locations. -/

def Visit.isFinding (visit : Visit) : Bool :=
  visit.found.isSome

theorem spent_probeLocations (r : Resolver) (requested : Identity) (locations : List String)
    (h : Host) :
    let visits := r.visits requested h locations
    let made := upTo Visit.isFinding visits
    (r.probeLocations requested locations).result h = visits.findSome? Visit.found ∧
      h.Spent ((r.probeLocations requested locations).after h) (made.map Visit.listings).sum
        (made.flatMap Visit.readings) (made.flatMap Visit.reports) := by
  induction locations generalizing h with
  | nil => exact ⟨rfl, Spent.refl h⟩
  | cons location rest ih =>
      obtain ⟨hresult, hspent⟩ := spent_probeLocation r requested location h
      dsimp only
      rw [probeLocations, result_bind, after_bind, hresult, visits, List.findSome?_cons]
      cases hfound : (r.visit requested h location).found with
      | some module =>
          rw [upTo_cons_of_pos (by simp [Visit.isFinding, hfound])]
          exact ⟨rfl, by simpa using hspent⟩
      | none =>
          -- The trace and what has been reported make no difference to what is visited next.
          have hnext : r.visits requested ((r.probeLocation requested location).after h) rest =
              r.visits requested (h.past (r.visit requested h location)) rest := by
            refine visits_congr ?_ ?_ rest
            · exact hspent.disk
            · exact hspent.aliases
          obtain ⟨hrest, hafter⟩ := ih ((r.probeLocation requested location).after h)
          rw [hnext] at hrest hafter
          rw [upTo_cons_of_neg (by simp [Visit.isFinding, hfound]), List.map_cons, List.sum_cons,
            List.flatMap_cons, List.flatMap_cons]
          exact ⟨hrest, hspent.trans hafter⟩

theorem spent_probe (r : Resolver) (requested : Identity) (h : Host) :
    let visits := r.visits requested h r.locations
    let made := upTo Visit.isFinding visits
    (r.probe requested).result h = visits.findSome? Visit.found ∧
      h.Spent ((r.probe requested).after h) (made.map Visit.listings).sum
        (made.flatMap Visit.readings) (made.flatMap Visit.reports) := by
  have hnote : h.Spent ((note (.probed requested.text)).after h) 0 [] [] := spent_note rfl rfl h
  have hnext : r.visits requested ((note (.probed requested.text)).after h) r.locations =
      r.visits requested h r.locations := by
    refine visits_congr ?_ ?_ r.locations <;> rfl
  obtain ⟨hresult, hspent⟩ :=
    spent_probeLocations r requested r.locations ((note (.probed requested.text)).after h)
  rw [hnext] at hresult hspent
  exact ⟨hresult, by simpa [probe] using hnote.trans hspent⟩

/-! Without faults no location depends on those before it. -/

theorem readingAt_of_calm {h : Host} (hcalm : h.Calm) (k : Nat) (path : Path) :
    h.readingAt k path = h.tree.read path := by
  unfold Host.readingAt
  cases hmet : h.disk.prospect.reads[k]? with
  | none => rfl
  | some met =>
      rw [hcalm.1 met (List.mem_of_getElem? hmet)]
      rfl

theorem calm_past {h : Host} (hcalm : h.Calm) (visit : Visit) : (h.past visit).Calm :=
  ⟨fun met hmet => hcalm.1 met (List.mem_of_mem_drop hmet),
    fun met hmet => hcalm.2 met (List.mem_of_mem_drop hmet)⟩

theorem visit_past_of_calm {h : Host} (hcalm : h.Calm) (passed : Visit) (location : String) :
    r.visit requested (h.past passed) location = r.visit requested h location := by
  have hanswers : ∀ {β : Type} (k : Nat) (ask : Path → Except Storage.Fault String → β) paths,
      (h.past passed).answers k ask paths = h.answers k ask paths := by
    intro β k ask paths
    simp only [answers, readingAt_of_calm hcalm, readingAt_of_calm (calm_past hcalm passed)]
    rfl
  simp only [visit, mount?, hanswers, firstFault_of_calm hcalm.2,
    firstFault_of_calm (calm_past hcalm passed).2]
  rfl

theorem visit_of_calm {h : Host} (hcalm : h.Calm) {location : String} {root : Path}
    (hmount : (h.mount? location).map Mount.root = some root) {files : List Path}
    (hfiles : r.named requested h.tree root = files) :
    r.visit requested h location = .searched (h.answers 0 Catalog.identityFrom files)
      (h.answers files.length r.catalog.moduleFrom (Selection.select r.policy requested
        (candidatesOf (h.answers 0 Catalog.identityFrom files))).reverse) := by
  obtain ⟨mount, hmounted, rfl⟩ := Option.map_eq_some_iff.mp hmount
  simp only [visit, hmounted, firstFault_of_calm hcalm.2, hfiles]

theorem visits_of_calm {h : Host} (hcalm : h.Calm) (locations : List String) :
    r.visits requested h locations = locations.map (r.visit requested h) := by
  induction locations generalizing h with
  | nil => rfl
  | cons location rest ih =>
      rw [visits, ih (calm_past hcalm _), List.map_cons]
      refine congrArg _ (List.map_congr_left fun other _ => visit_past_of_calm hcalm _ other)

/-- After the search for a request its references are resolved, and nothing else. -/
theorem resolves_references (r : Resolver) (requested : Identity)
    (hnew : r.isMemoized requested = false) (h : Host) :
    Resolves (r.keep requested ((r.probe requested).result h)) ((r.probe requested).after h)
      (referencesOf ((r.probe requested).result h)) ((r.resolve requested).result h).2
      ((r.resolve requested).after h) := by
  have hall := resolve_resolves r requested h
  generalize ((r.resolve requested).result h).2 = after at hall ⊢
  generalize (r.resolve requested).after h = host at hall ⊢
  cases hall with
  | known hknown _ => simp [hknown] at hnew
  | searched _ hreferences hrest =>
      cases hrest
      exact hreferences

/-- A request for which nothing is kept is answered with the first module that a visit to the
locations, in their order, finds, and with none if no visit finds one. Until then the folders of the
locations are listed, their files read and all failures reported as the visits say; what follows is
the resolution of the references. -/
theorem resolve_visits (r : Resolver) (requested : Identity)
    (hnew : r.isMemoized requested = false) (h : Host) :
    let visits := r.visits requested h r.locations
    let made := upTo Visit.isFinding visits
    let searched := (r.probe requested).after h
    let answer := (r.resolve requested).result h
    answer.1 = visits.findSome? Visit.found ∧
      h.Spent searched (made.map Visit.listings).sum (made.flatMap Visit.readings)
        (made.flatMap Visit.reports) ∧
      Resolves (r.keep requested answer.1) searched (referencesOf answer.1) answer.2
        ((r.resolve requested).after h) ∧
      (h.Calm → visits = r.locations.map (r.visit requested h)) ∧
      ∀ root, (h.tree.listing root r.suffix).filter (fun path =>
        path.isNamed (requested.name ++ r.suffix) && h.tree.isThere path) =
          r.named requested h.tree root := by
  intro visits made searched answer
  obtain ⟨hfound, hspent⟩ := spent_probe r requested h
  have hreferences := resolves_references r requested hnew h
  have houtcome : answer.1 = (r.probe requested).result h := by
    have hkept : answer.2.memo.get? requested.text = some ((r.probe requested).result h) :=
      hreferences.later.kept _ _ (by rw [get?_keep, if_pos rfl])
    rw [(resolve_keeps r requested h).2.2, hkept]
    rfl
  refine ⟨houtcome.trans hfound, hspent, ?_, fun hcalm => visits_of_calm hcalm r.locations,
    named_eq h.tree⟩
  rw [houtcome]
  exact hreferences

/-- A folder that cannot be listed at first, one with a file that is no manifest, one with a file that
cannot be read again when it is to be loaded, and two with a proper one. -/
def stalls : Host where
  disk.tree.limits := .usual
  disk.tree.entries := ⟨⟨[
    (["shut"], .folder),
    (["odd"], .folder),
    (["odd", "ink.MODULE"], .file (.text "\x7b\"version\": \"2.1\"\x7d")),
    (["torn"], .folder),
    (["torn", "Ink.module"], .file (.text
      "\x7b\"name\": \"Ink\", \"version\": \"2.1.5\", \"entry_point\": \"ink\"\x7d")),
    (["pack"], .folder),
    (["pack", "Ink.module"], .file (.text
      "\x7b\"name\": \"Ink\", \"version\": \"2.1\", \"entry_point\": \"ink\"\x7d")),
    (["spare"], .folder),
    (["spare", "Ink.module"], .file (.text
      "\x7b\"name\": \"Ink\", \"version\": \"2.1\", \"entry_point\": \"ink\"\x7d"))]⟩, .empty⟩
  disk.tree.here := []
  disk.prospect := { Storage.Prospect.clear with
    listings := [some (.other "enumerate fault")]
    reads := [none, none, some (.other "read fault")] }
  aliases := []
  trace := []
  births := 0
  now := ⟨2024, 1, 1, 0, 0, 0, 0⟩

/-- Every location but the last two fails in its own way, and the last one is left alone. -/
theorem resolve_visits_stalls :
    let requested : Identity := ⟨"Ink", some ⟨2, 1, 0, 0⟩, none, none⟩
    let r : Resolver := { new ".module" .strict ⟨[("ink", [])]⟩ with
      locations := ["/gone", "/shut", "/odd", "/torn", "/pack", "/spare"] }
    let searched := (r.probe requested).after stalls
    r.isMemoized requested = false ∧
      (((r.resolve requested).result stalls).1.map fun m => m.path.text) =
        some "/pack/Ink.module" ∧
      searched.reports = ["Failed to enumerate probing location /shut: enumerate fault",
        "Failed to load module /odd/ink.MODULE: missing field `name`",
        "Failed to load module /torn/Ink.module: read fault"] ∧
      searched.readings.map Path.text = ["/odd/ink.MODULE", "/torn/Ink.module",
        "/torn/Ink.module", "/pack/Ink.module", "/pack/Ink.module"] ∧
      searched.disk.prospect = .clear := by
  intro requested r searched
  have hnew : r.isMemoized requested = false := by decide +kernel
  obtain ⟨hanswer, hspent, -⟩ := resolve_visits r requested hnew stalls
  refine ⟨hnew, ?_, ?_, ?_, ?_⟩
  · rw [hanswer]
    decide +kernel
  · rw [hspent.reports]
    decide +kernel
  · rw [hspent.readings]
    decide +kernel
  · rw [hspent.disk]
    decide +kernel

end Resolver

end PluginHost
