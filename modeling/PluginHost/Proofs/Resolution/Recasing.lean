import PluginHost.Proofs.Module.LetterCase
import PluginHost.Proofs.Resolution.Fitting
import PluginHost.Proofs.Resolution.Visits
import PluginHost.Proofs.Storage.Renaming

/-!
Letter case makes no difference to a resolution. However a request spells a name and a culture, the
same candidates are selected for it, so every visit to a location goes the same way. And where files
are called otherwise, or their manifests spell names and cultures otherwise, the same files are
identified, selected and loaded, as long as they stand in the same order.
-/

namespace PluginHost

open Host HostM

variable {recase : Path → Path} {requested requested' candidate candidate' : Identity}

theorem sameLetters_append {a b : String} (h : Text.SameLetters a b) (tail : String) :
    Text.SameLetters (a ++ tail) (b ++ tail) := by
  unfold Text.SameLetters Text.lower
  rw [String.toList_append, String.toList_append, List.map_append, List.map_append]
  exact congrArg (· ++ _) h

theorem Path.isNamed_recased {path path' : Path} {name name' : String}
    (hfile : Option.Rel Text.SameLetters path.fileName path'.fileName)
    (hname : Text.SameLetters name name') : path'.isNamed name' = path.isNamed name := by
  have hsame : ∀ {file file' : Option String}, Option.Rel Text.SameLetters file file' →
      (file'.any fun file => Text.sameLetters file name') =
        file.any fun file => Text.sameLetters file name := by
    intro file file' hrel
    cases hrel with
    | none => rfl
    | some hletters =>
        rw [Option.any_some, Option.any_some, Bool.eq_iff_iff, Text.sameLetters_iff,
          Text.sameLetters_iff]
        exact ⟨fun h => (hletters.trans h).trans hname.symm,
          fun h => (hletters.symm.trans h).trans hname⟩
  exact hsame hfile

/-! Selecting. -/

/-- The candidate that a file is if it is called otherwise or spells its identity otherwise. -/
structure Candidate.Recased (recase : Path → Path) (c c' : Candidate) : Prop where
  path : c'.path = recase c.path
  identity : c.identity.Recased c'.identity

namespace Selection

variable (h : requested.Recased requested')
include h

theorem judge_recased (hc : candidate.Recased candidate') (policy : CulturePolicy)
    (pins : Pins) :
    judge policy requested' candidate' pins = judge policy requested candidate pins := by
  have hname : requested'.SameName candidate' ↔ requested.SameName candidate :=
    ⟨fun k => Eq.trans h.name (Eq.trans k hc.name.symm),
      fun k => Eq.trans h.name.symm (Eq.trans k hc.name)⟩
  have hculture : requested'.SameCulture candidate' ↔ requested.SameCulture candidate :=
    ⟨fun k => Eq.trans h.culture (Eq.trans k hc.culture.symm),
      fun k => Eq.trans h.culture.symm (Eq.trans k hc.culture)⟩
  have hkey : keyAccepted requested' candidate' = keyAccepted requested candidate := by
    rw [keyAccepted, keyAccepted, h.publicKey, hc.publicKey]
  have haccepted : cultureAccepted policy requested' candidate' pins =
      cultureAccepted policy requested candidate pins := by
    unfold cultureAccepted
    rw [decide_eq_decide.mpr hculture]
  rw [judge, judge, decide_eq_decide.mpr hname, decide_eq_decide.mpr hculture, hkey, haccepted,
    h.version, hc.version]

theorem selectFrom_recased {candidates candidates' : List Candidate}
    (hcandidates : List.Forall₂ (Candidate.Recased recase) candidates candidates')
    (policy : CulturePolicy) (pins : Pins) :
    selectFrom policy requested' pins candidates' =
      (selectFrom policy requested pins candidates).map recase := by
  induction hcandidates generalizing pins with
  | nil => rfl
  | cons hfirst _ ih =>
      rw [selectFrom, selectFrom, judge_recased h hfirst.identity]
      split
      · exact ih pins
      · rw [List.map_cons, hfirst.path, ih]

theorem select_recased {candidates candidates' : List Candidate}
    (hcandidates : List.Forall₂ (Candidate.Recased recase) candidates candidates')
    (policy : CulturePolicy) :
    select policy requested' candidates' = (select policy requested candidates).map recase :=
  selectFrom_recased h hcandidates policy .none

theorem select_of_recased (candidates : List Candidate) (policy : CulturePolicy) :
    select policy requested' candidates = select policy requested candidates := by
  have hsame : List.Forall₂ (Candidate.Recased id) candidates candidates :=
    List.forall₂_same.mpr fun c _ => ⟨rfl, .refl c.identity⟩
  rw [select_recased h hsame, List.map_id]

end Selection

/-! Identifying and loading. -/

/-- The same module from a file that is called otherwise or spells its identity otherwise. -/
structure LoadedModule.Recased (recase : Path → Path) (m m' : LoadedModule) : Prop where
  identity : m.identity.Recased m'.identity
  path : m'.path = recase m.path
  references : m'.references = m.references
  factories : m'.factories = m.factories

namespace Catalog

variable {contents contents' : Except Storage.Fault String}
  (h : Agree Manifest.SameText contents contents')
include h

theorem agree_identityFrom (path path' : Path) :
    Agree Identity.Recased (identityFrom path contents) (identityFrom path' contents') :=
  (Manifest.agree_ofContents h path path').bind fun _ _ hm => hm.identityAt path path'

theorem agree_moduleFrom (catalog : Catalog) (path : Path) :
    Agree (LoadedModule.Recased recase) (catalog.moduleFrom path contents)
      (catalog.moduleFrom (recase path) contents') := by
  refine (Manifest.agree_ofContents h path (recase path)).bind fun m m' hm => ?_
  refine (hm.identityAt path (recase path)).bind fun identity identity' hidentity => ?_
  refine (hm.referencesAt path (recase path)).bind fun references references' hreferences => ?_
  subst hreferences
  rw [hm.entryPoint]
  cases catalog.get? m.entryPoint with
  | none => exact .error _ _
  | some factories => exact .ok ⟨hidentity, rfl, rfl, rfl⟩

end Catalog

/-- What comes of reading two files of which one is called what `recase` makes of the other. -/
structure SameAnswer {α : Type} (recase : Path → Path) (R : α → α → Prop)
    (a a' : Path × Except Failure α) : Prop where
  path : a'.1 = recase a.1
  outcome : Agree R a.2 a'.2

/-! Hosts. -/

/-- Below `dir` stand the same files in both trees, but for the letter case of their names and of what
their manifests say of name and culture. -/
structure Storage.Tree.Recased (t t' : Storage.Tree) (recase : Path → Path) (dir : Path) : Prop
    extends t.Renamed t' recase dir where
  names : ∀ path ∈ t.listing dir "",
    Option.Rel Text.SameLetters path.fileName (recase path).fileName
  there : ∀ path ∈ t.listing dir "", t'.isThere (recase path) = t.isThere path
  texts : ∀ path ∈ t.listing dir "",
    Agree Manifest.SameText (t.read path) (t'.read (recase path))

/-- The same faults are to be met, the locations are the same folders, and below them stand the same
files but for letter case. -/
structure Host.Recased (h h' : Host) (recase : Path → Path) (locations : List String) :
    Prop where
  sound : h.tree.Sound
  sound' : h'.tree.Sound
  prospect : h'.disk.prospect = h.disk.prospect
  mounts : ∀ location ∈ locations, h'.mount? location = h.mount? location
  files : ∀ location ∈ locations, ∀ mount, h.mount? location = some mount →
    h.tree.Recased h'.tree recase mount.root

namespace Host

variable {h h' : Host} {locations : List String}

theorem forall₂_answers {α : Type} {R : α → α → Prop}
    (ask : Path → Except Storage.Fault String → Except Failure α)
    (hprospect : h'.disk.prospect = h.disk.prospect)
    (hask : ∀ path contents contents', Agree Manifest.SameText contents contents' →
      Agree R (ask path contents) (ask (recase path) contents')) {paths : List Path}
    (hpaths : ∀ path ∈ paths, Agree Manifest.SameText (h.tree.read path)
      (h'.tree.read (recase path))) (k : Nat) :
    List.Forall₂ (SameAnswer recase R) (h.answers k ask paths)
      (h'.answers k ask (paths.map recase)) := by
  induction paths generalizing k with
  | nil => exact .nil
  | cons path rest ih =>
      obtain ⟨hfirst, hrest⟩ := List.forall_mem_cons.mp hpaths
      rw [List.map_cons, answers_cons, answers_cons]
      refine .cons ⟨rfl, hask path _ _ ?_⟩ (ih hrest (k + 1))
      unfold readingAt
      rw [hprospect]
      cases h.disk.prospect.reads[k]?.join with
      | some fault => exact .error fault fault
      | none => exact hfirst

end Host

/-! Visits. -/

/-- Two visits that meet the same files, but for letter case, and the same faults. -/
inductive Visit.Recased (recase : Path → Path) : Visit → Visit → Prop
  | unmountable : Recased recase .unmountable .unmountable
  | unlisted (report : String) : Recased recase (.unlisted report) (.unlisted report)
  | searched {identified identified' : List (Path × Except Failure Identity)}
      {loads loads' : List (Path × Except Failure LoadedModule)}
      (hidentified : List.Forall₂ (SameAnswer recase Identity.Recased) identified identified')
      (hloads : List.Forall₂ (SameAnswer recase (LoadedModule.Recased recase)) loads loads') :
      Recased recase (.searched identified loads) (.searched identified' loads')

theorem rel_findSome? {α β β' : Type} {R : α → α → Prop} {S : β → β' → Prop} {f : α → Option β}
    {f' : α → Option β'} (hf : ∀ a a', R a a' → Option.Rel S (f a) (f' a')) {l l' : List α}
    (h : List.Forall₂ R l l') : Option.Rel S (l.findSome? f) (l'.findSome? f') := by
  induction h with
  | nil => exact .none
  | @cons a a' _ _ hfirst _ ih =>
      have hhead := hf a a' hfirst
      rw [List.findSome?_cons, List.findSome?_cons]
      generalize f a = x at hhead
      generalize f' a' = x' at hhead
      cases hhead with
      | none => exact ih
      | some hfound => exact .some hfound

theorem isSome_of_rel {α β : Type} {R : α → β → Prop} {x : Option α} {y : Option β}
    (h : Option.Rel R x y) : y.isSome = x.isSome := by
  cases h <;> rfl

theorem forall₂_upTo {α β : Type} {R : α → β → Prop} {p : α → Bool} {q : β → Bool}
    (hp : ∀ a b, R a b → q b = p a) {l : List α} {l' : List β} (h : List.Forall₂ R l l') :
    List.Forall₂ R (upTo p l) (upTo q l') := by
  induction h with
  | nil => exact .nil
  | @cons a b _ _ hfirst _ ih =>
      cases hkind : p a with
      | true =>
          rw [upTo_cons_of_pos hkind, upTo_cons_of_pos ((hp a b hfirst).trans hkind)]
          exact .cons hfirst .nil
      | false =>
          rw [upTo_cons_of_neg hkind, upTo_cons_of_neg ((hp a b hfirst).trans hkind)]
          exact .cons hfirst ih

namespace Visit

variable {visit visit' : Visit}

theorem Recased.rel_found (h : visit.Recased recase visit') :
    Option.Rel (LoadedModule.Recased recase) visit.found visit'.found := by
  cases h with
  | unmountable => exact .none
  | unlisted report => exact .none
  | searched _ hloads => exact rel_findSome? (fun a a' ha => ha.outcome.rel_toOption) hloads

theorem Recased.listings (h : visit.Recased recase visit') :
    visit'.listings = visit.listings := by
  cases h <;> rfl

theorem Recased.length_readings (h : visit.Recased recase visit') :
    visit'.readings.length = visit.readings.length := by
  cases h with
  | unmountable => rfl
  | unlisted report => rfl
  | searched hidentified hloads =>
      have hmade := forall₂_upTo (p := Resolver.isLoaded) (q := Resolver.isLoaded)
        (fun a a' ha => isSome_of_rel ha.outcome.rel_toOption) hloads
      simp only [readings, List.length_append, List.length_map, hidentified.length_eq,
        hmade.length_eq]

end Visit

namespace Resolver

variable {r : Resolver} {h h' : Host} {locations : List String}

theorem forall₂_candidatesOf {identified identified' : List (Path × Except Failure Identity)}
    (hidentified : List.Forall₂ (SameAnswer recase Identity.Recased) identified identified') :
    List.Forall₂ (Candidate.Recased recase) (candidatesOf identified)
      (candidatesOf identified') := by
  induction hidentified with
  | nil => exact .nil
  | @cons a a' _ _ hfirst _ ih =>
      obtain ⟨path, outcome⟩ := a
      obtain ⟨path', outcome'⟩ := a'
      obtain ⟨rfl, houtcome⟩ := hfirst
      cases houtcome with
      | ok hidentity => exact .cons ⟨rfl, hidentity⟩ ih
      | error failure failure' => exact ih

theorem mem_of_mem_select_answers {files : List Path} {k : Nat} {path : Path}
    (hpath : path ∈ Selection.select r.policy requested
      (candidatesOf (h.answers k Catalog.identityFrom files))) : path ∈ files := by
  obtain ⟨candidate, hcandidate, rfl, -⟩ := Selection.exists_of_mem_select hpath
  obtain ⟨answer, hanswer, hsome⟩ := List.mem_filterMap.mp hcandidate
  obtain ⟨identity, -, rfl⟩ := Option.map_eq_some_iff.mp hsome
  rw [← map_fst_answers h k Catalog.identityFrom files]
  exact List.mem_map_of_mem hanswer

/-! One host. -/

theorem visit_of_recased (hrequested : requested.Recased requested') (h : Host)
    (location : String) : r.visit requested' h location = r.visit requested h location := by
  have hname := sameLetters_append hrequested.name r.suffix
  have hsame : ∀ file : Option String, Option.Rel Text.SameLetters file file := by
    intro file
    cases file with
    | none => exact .none
    | some name => exact .some (.refl name)
  have hnamed : ∀ tree root, r.named requested' tree root = r.named requested tree root := by
    intro tree root
    simp only [named, Path.isNamed_recased (hsame _) hname]
  simp only [visit, hnamed, Selection.select_of_recased hrequested]

theorem visits_of_recased (hrequested : requested.Recased requested') (h : Host)
    (locations : List String) :
    r.visits requested' h locations = r.visits requested h locations := by
  induction locations generalizing h with
  | nil => rfl
  | cons location rest ih => rw [visits, visits, visit_of_recased hrequested, ih]

/-! Two hosts. -/

/-- The files that are called like the module stand in the same order when they are called
otherwise. -/
def KeepsOrder (r : Resolver) (requested : Identity) (h : Host) (recase : Path → Path)
    (locations : List String) : Prop :=
  ∀ location ∈ locations, ∀ mount, h.mount? location = some mount →
    ∀ a ∈ r.named requested h.tree mount.root, ∀ b ∈ r.named requested h.tree mount.root,
      compare (recase a) (recase b) = compare a b

section

variable (hrequested : requested.Recased requested')
include hrequested

theorem named_recased {root : Path} (hsound : h.tree.Sound) (hsound' : h'.tree.Sound)
    (hfiles : h.tree.Recased h'.tree recase root)
    (horder : ∀ a ∈ r.named requested h.tree root, ∀ b ∈ r.named requested h.tree root,
      compare (recase a) (recase b) = compare a b) :
    r.named requested' h'.tree root = (r.named requested h.tree root).map recase := by
  refine hfiles.toRenamed.filter_listing hsound hsound' (fun path hpath => ?_) horder
  rw [hfiles.there path hpath,
    Path.isNamed_recased (hfiles.names path hpath) (sameLetters_append hrequested.name r.suffix)]

theorem visit_recased (hhosts : h.Recased h' recase locations)
    (horder : r.KeepsOrder requested h recase locations) {location : String}
    (hlocation : location ∈ locations) :
    (r.visit requested h location).Recased recase (r.visit requested' h' location) := by
  unfold visit
  rw [hhosts.mounts location hlocation, hhosts.prospect]
  cases hmount : h.mount? location with
  | none => exact .unmountable
  | some mount =>
      cases Storage.Disk.firstFault h.disk.prospect.listings with
      | some fault => exact .unlisted _
      | none =>
          have hfiles := hhosts.files location hlocation mount hmount
          have hnamed := named_recased hrequested hhosts.sound hhosts.sound' hfiles
            (horder location hlocation mount hmount)
          have htexts : ∀ path ∈ r.named requested h.tree mount.root,
              Agree Manifest.SameText (h.tree.read path) (h'.tree.read (recase path)) :=
            fun path hpath => hfiles.texts path (List.mem_filter.mp hpath).1
          have hidentified := forall₂_answers Catalog.identityFrom hhosts.prospect
            (fun path _ _ hcontents => Catalog.agree_identityFrom hcontents path (recase path))
            htexts 0
          have hselected := Selection.select_recased hrequested
            (forall₂_candidatesOf hidentified) r.policy
          dsimp only
          rw [hnamed, hselected, List.length_map, ← List.map_reverse]
          refine .searched hidentified (forall₂_answers r.catalog.moduleFrom hhosts.prospect
            (fun path _ _ hcontents => Catalog.agree_moduleFrom hcontents r.catalog path)
            (fun path hpath => ?_) _)
          exact htexts path (mem_of_mem_select_answers (List.mem_reverse.mp hpath))

/-- After visits that go the same way the hosts still differ in letter case only. -/
theorem visits_recased (hhosts : h.Recased h' recase locations)
    (horder : r.KeepsOrder requested h recase locations) {rest : List String}
    (hrest : ∀ location ∈ rest, location ∈ locations) :
    List.Forall₂ (Visit.Recased recase) (r.visits requested h rest)
      (r.visits requested' h' rest) := by
  induction rest generalizing h h' with
  | nil => exact .nil
  | cons location rest ih =>
      obtain ⟨hlocation, hrest⟩ := List.forall_mem_cons.mp hrest
      have hvisit := visit_recased hrequested hhosts horder hlocation
      refine .cons hvisit (ih ?_ horder hrest)
      refine ⟨hhosts.sound, hhosts.sound', ?_, hhosts.mounts, hhosts.files⟩
      simp only [past, spend, hhosts.prospect, hvisit.listings, hvisit.length_readings]

end

/-! Resolving. -/

/-- A request for which nothing is kept is answered with what a search finds. -/
theorem result_resolve_of_new (hnew : r.isMemoized requested = false) (h : Host) :
    ((r.resolve requested).result h).1 =
      (r.visits requested h r.locations).findSome? Visit.found := by
  have hkept : ((r.resolve requested).result h).2.memo.get? requested.text =
      some ((r.probe requested).result h) :=
    (resolves_references r requested hnew h).later.kept _ _ (by rw [get?_keep, if_pos rfl])
  rw [(resolve_keeps r requested h).2.2, hkept, Option.join_some]
  exact (spent_probe r requested h).1

/-- Two requests that differ in letter case have the same candidates selected, whatever the
candidates, and are answered alike by a new resolver, whatever the files and faults. And if the files
that can be met are called otherwise or spell their identities otherwise, the same ones are
identified, selected and loaded for either request, as long as those that are called like the module
stand in the same order. -/
theorem resolve_recased (suffix : String) (policy : CulturePolicy) (catalog : Catalog)
    (locations : List String) (hrequested : requested.Recased requested') :
    let r : Resolver := { new suffix policy catalog with locations }
    (∀ candidates, Selection.select policy requested' candidates =
      Selection.select policy requested candidates) ∧
    (∀ h, ((r.resolve requested').result h).1 = ((r.resolve requested).result h).1) ∧
    (∀ recase candidates candidates',
      List.Forall₂ (Candidate.Recased recase) candidates candidates' →
      Selection.select policy requested' candidates' =
        (Selection.select policy requested candidates).map recase) ∧
    ∀ h h' recase, Host.Recased h h' recase locations →
      r.KeepsOrder requested h recase locations →
      List.Forall₂ (Visit.Recased recase) (r.visits requested h locations)
        (r.visits requested' h' locations) ∧
      Option.Rel (LoadedModule.Recased recase) ((r.resolve requested).result h).1
        ((r.resolve requested').result h').1 := by
  intro r
  refine ⟨fun candidates => Selection.select_of_recased hrequested candidates policy,
    fun h => ?_, fun recase candidates candidates' hcandidates =>
      Selection.select_recased hrequested hcandidates policy,
    fun h h' recase hhosts horder => ?_⟩
  · rw [result_resolve_of_new (r := r) rfl, result_resolve_of_new (r := r) rfl,
      visits_of_recased hrequested]
  · have hvisits := visits_recased hrequested hhosts horder fun _ hlocation => hlocation
    refine ⟨hvisits, ?_⟩
    rw [result_resolve_of_new (r := r) rfl, result_resolve_of_new (r := r) rfl]
    exact rel_findSome? (fun _ _ hvisit => hvisit.rel_found) hvisits

/-- A folder with one module, in this file and with this name and culture. -/
def inkpot (file name culture : String) : Host where
  disk.tree.limits := .usual
  disk.tree.entries := ⟨⟨[(["pack"], .folder), (["pack", file], .file (.text
    ("\x7b\"name\": \"" ++ name ++ "\", \"culture\": \"" ++ culture ++
      "\", \"entry_point\": \"ink\"\x7d")))]⟩, .empty⟩
  disk.tree.here := []
  disk.prospect := .clear
  aliases := []
  trace := []
  births := 0
  now := ⟨2024, 1, 1, 0, 0, 0, 0⟩

theorem scaffold_inkpot (file name culture file' name' culture' : String) :
    (inkpot file name culture).tree.Scaffold (inkpot file' name' culture').tree := by
  refine Storage.Tree.scaffold_of_entries rfl rfl fun entry hentry hkind => ?_
  rcases List.mem_cons.mp hentry with rfl | hentry
  · rfl
  · obtain rfl := List.mem_singleton.mp hentry
    exact absurd rfl (hkind _)

theorem mount?_inkpot : (inkpot "Ink.module" "Ink" "de-AT").mount? "/pack" =
    some ⟨"/pack", ⟨"/pack"⟩⟩ := by
  decide +kernel

theorem recased_inkpot :
    Host.Recased (inkpot "Ink.module" "Ink" "de-AT") (inkpot "INK.Module" "iNK" "DE-at")
      (fun _ => ⟨"/pack/INK.Module"⟩) ["/pack"] where
  sound := by decide +kernel
  sound' := by decide +kernel
  prospect := rfl
  mounts := by decide +kernel
  files := by
    intro location hlocation mount hmount
    obtain rfl := List.mem_singleton.mp hlocation
    obtain rfl := Option.some.inj (mount?_inkpot.symm.trans hmount)
    have hlisting : (inkpot "Ink.module" "Ink" "de-AT").tree.listing ⟨"/pack"⟩ "" =
        [⟨"/pack/Ink.module"⟩] := by
      rw [Storage.Tree.listing_eq_insertionSort]
      decide +kernel
    have hflat : (inkpot "Ink.module" "Ink" "de-AT").tree.Flat ⟨"/pack"⟩ ["pack"] := by
      refine ⟨by decide +kernel, by decide +kernel, fun name hname => ?_⟩
      have hnames : (inkpot "Ink.module" "Ink" "de-AT").tree.namesIn ["pack"] = ["Ink.module"] := by
        decide +kernel
      obtain rfl := List.mem_singleton.mp (hnames ▸ hname)
      exact ⟨_, rfl⟩
    refine ⟨(scaffold_inkpot ..).renamed (scaffold_inkpot ..) (fun way hway hfolder => ?_)
      fun way hway hfolder => ?_, ?_, ?_, ?_⟩
    · obtain rfl := hflat.eq_nil hway hfolder
      decide +kernel
    · obtain rfl := hflat.eq_nil hway hfolder
      decide +kernel
    · rw [hlisting]
      exact List.forall_mem_singleton.mpr (.some (by decide +kernel))
    · rw [hlisting]
      decide +kernel
    · rw [hlisting]
      have hfirst : Json.decodeText Manifest.decode
          "\x7b\"name\": \"Ink\", \"culture\": \"de-AT\", \"entry_point\": \"ink\"\x7d" =
            .ok ⟨"Ink", none, some "de-AT", none, "ink", []⟩ := by decide +kernel
      have hsecond : Json.decodeText Manifest.decode
          "\x7b\"name\": \"iNK\", \"culture\": \"DE-at\", \"entry_point\": \"ink\"\x7d" =
            .ok ⟨"iNK", none, some "DE-at", none, "ink", []⟩ := by decide +kernel
      have hmanifests : Manifest.Recased ⟨"Ink", none, some "de-AT", none, "ink", []⟩
          ⟨"iNK", none, some "DE-at", none, "ink", []⟩ :=
        ⟨by decide, .some (by decide), rfl, rfl, rfl, rfl⟩
      refine List.forall_mem_singleton.mpr ?_
      have hread : (inkpot "Ink.module" "Ink" "de-AT").tree.read ⟨"/pack/Ink.module"⟩ = .ok
          "\x7b\"name\": \"Ink\", \"culture\": \"de-AT\", \"entry_point\": \"ink\"\x7d" := by
        decide +kernel
      have hread' : (inkpot "INK.Module" "iNK" "DE-at").tree.read ⟨"/pack/INK.Module"⟩ = .ok
          "\x7b\"name\": \"iNK\", \"culture\": \"DE-at\", \"entry_point\": \"ink\"\x7d" := by
        decide +kernel
      rw [hread, hread']
      exact .ok (.recased hfirst hsecond hmanifests)

/-- The module is found under two spellings, and also when its file and its manifest have others. -/
theorem resolve_recased_inkpot :
    let requested : Identity := ⟨"Ink", none, some "de-AT", none⟩
    let other : Identity := ⟨"ink", none, some "DE-AT", none⟩
    let r : Resolver := { new ".module" .strict ⟨[("ink", [])]⟩ with locations := ["/pack"] }
    let first := inkpot "Ink.module" "Ink" "de-AT"
    let second := inkpot "INK.Module" "iNK" "DE-at"
    ((r.resolve requested).result first).1.map LoadedModule.path = some ⟨"/pack/Ink.module"⟩ ∧
      ((r.resolve other).result first).1.map LoadedModule.path = some ⟨"/pack/Ink.module"⟩ ∧
      ((r.resolve other).result second).1.map LoadedModule.path = some ⟨"/pack/INK.Module"⟩ := by
  intro requested other r first second
  have hrequested : requested.Recased other := ⟨by decide, by decide, rfl, rfl⟩
  obtain ⟨-, hrequests, -, hhosts⟩ :=
    resolve_recased ".module" .strict ⟨[("ink", [])]⟩ ["/pack"] hrequested
  have hfound : ((r.resolve requested).result first).1.map LoadedModule.path =
      some ⟨"/pack/Ink.module"⟩ := by
    rw [result_resolve_of_new (r := r) rfl]
    decide +kernel
  have horder : r.KeepsOrder requested first (fun _ => ⟨"/pack/INK.Module"⟩) ["/pack"] := by
    intro location hlocation mount hmount
    obtain rfl := List.mem_singleton.mp hlocation
    obtain rfl := Option.some.inj (mount?_inkpot.symm.trans hmount)
    have hnamed : r.named requested first.tree ⟨"/pack"⟩ = [⟨"/pack/Ink.module"⟩] := by
      decide +kernel
    rw [hnamed]
    decide +kernel
  refine ⟨hfound, ?_, ?_⟩
  · rw [hrequests first]
    exact hfound
  · obtain ⟨-, hmodule⟩ := hhosts first second _ recased_inkpot horder
    generalize ((r.resolve requested).result first).1 = found at hfound hmodule
    generalize ((r.resolve other).result second).1 = found' at hmodule ⊢
    cases hmodule with
    | none => simp at hfound
    | some h => rw [Option.map_some, h.path]

end Resolver

end PluginHost
