import PluginHost.Proofs.Resolution.Visits
import PluginHost.Proofs.Storage.Spelling
import PluginHost.Template.Finding

/-!
What the shipped generator finds: the templates that the configuration files describe, in the order
of paths, and with each of them its own localization files. A configuration file that describes
nothing is passed over, and nothing else changes with it.
-/

namespace PluginHost

open HostM Text

theorem forall₂_filterMap {α β : Type} (f : α → Option β) (l : List α) :
    List.Forall₂ (fun a b => f a = some b) (l.filter fun a => (f a).isSome) (l.filterMap f) := by
  induction l with
  | nil => exact .nil
  | cons a l ih =>
      cases ha : f a with
      | none => simpa [ha] using ih
      | some b => simpa [ha] using ih

theorem exists_of_forall₂ {α β : Type} {R : α → β → Prop} {l : List α} {m : List β}
    (h : List.Forall₂ R l m) : ∀ b ∈ m, ∃ a ∈ l, R a b := by
  induction h with
  | nil => simp
  | cons hfirst _ ih =>
      intro b hb
      rcases List.mem_cons.mp hb with rfl | hb
      · exact ⟨_, List.mem_cons_self, hfirst⟩
      · obtain ⟨a, ha, hab⟩ := ih b hb
        exact ⟨a, List.mem_cons_of_mem _ ha, hab⟩

namespace Generator

/-! Which files are looked for. -/

/-- A file that may describe a template, in the folder for it. -/
structure ConfigFile (path : Path) : Prop where
  name : ∃ name, path.fileName = some name ∧ SameLetters name "template.json"
  folder : ∃ folder name, path.parent = some folder ∧ folder.fileName = some name ∧
    SameLetters name ".template.config"

/-- A localization file of the template with configuration file `config`: it stands in the folder
for them beside `config`, and is named after its locale. -/
structure StringsFile (config file : Path) (locale : String) : Prop where
  place : ∃ home folder, config.parent = some home ∧ file.parent = some folder ∧
    folder.components = home.components ++ [.name "localize"]
  name : ∃ head tail, file.fileName = some (head ++ locale ++ tail) ∧
    SameLetters head "templatestrings." ∧ SameLetters tail ".json"
  locale_ne : locale ≠ ""

variable {path config file : Path} {locale : String}

theorem isNamed_iff {name : String} :
    path.isNamed name = true ↔ ∃ file, path.fileName = some file ∧ SameLetters file name := by
  simp [Path.isNamed, Option.any_eq_true]

theorem isConfig_iff : isConfig path = true ↔ ConfigFile path := by
  have hfolder : path.parent.any (·.isNamed configFolder) = true ↔
      ∃ folder name, path.parent = some folder ∧ folder.fileName = some name ∧
        SameLetters name ".template.config" := by
    simp only [Option.any_eq_true, isNamed_iff, exists_and_left]
    rfl
  rw [isConfig, Bool.and_eq_true, isNamed_iff, hfolder]
  exact ⟨fun ⟨name, folder⟩ => ⟨name, folder⟩, fun h => ⟨h.name, h.folder⟩⟩

instance (path : Path) : Decidable (ConfigFile path) :=
  decidable_of_iff _ isConfig_iff

theorem localeOf_eq_some_iff : localeOf file = some locale ↔
    (∃ head tail, file.fileName = some (head ++ locale ++ tail) ∧
      SameLetters head "templatestrings." ∧ SameLetters tail ".json") ∧ locale ≠ "" := by
  have hhead : lower "templatestrings.".toList = stringsHead.toList := by decide
  have htail : lower ".json".toList = jsonSuffix.toList := by decide
  unfold localeOf SameLetters
  simp only [hhead, htail, Option.bind_eq_some_iff, Option.ite_none_right_eq_some,
    Option.ite_none_left_eq_some, List.isPrefixOf_iff_prefix, List.isSuffixOf_iff_suffix,
    Option.some.injEq]
  constructor
  · rintro ⟨name, hfile, ⟨hfront, hback⟩, hne, rfl⟩
    obtain ⟨head, tail, hname, hlow, hend⟩ :=
      (between_affixes_iff hne).mp ⟨hfront, hback, by simp only [String.length_toList]⟩
    refine ⟨⟨.ofList head, .ofList tail, ?_, by simpa using hlow, by simpa using hend⟩, ?_⟩
    · rw [hfile, ← String.ofList_append, ← String.ofList_append, ← hname, String.ofList_toList]
    · exact fun hempty => hne (by simpa using hempty)
  · rintro ⟨⟨head, tail, hfile, hlow, hend⟩, hne⟩
    have hmiddle : locale.toList ≠ [] := fun hnil => hne (Path.toList_eq_nil_iff.mp hnil)
    obtain ⟨hfront, hback, heq⟩ := (between_affixes_iff hmiddle).mpr
      ⟨head.toList, tail.toList, rfl, hlow, hend⟩
    simp only [String.length_toList] at heq
    refine ⟨_, hfile, ?_⟩
    simp only [String.toList_append, heq, hmiddle, hfront, hback, String.ofList_toList,
      not_false_eq_true, and_self]

theorem components_localize (home : Path) :
    (home.join localizeFolder).components = home.components ++ [.name "localize"] := by
  by_cases hempty : home.text = ""
  · obtain rfl : home = ⟨""⟩ := by
      cases home
      exact congrArg _ hempty
    decide
  · exact Path.components_join (by decide) hempty

/-- The locale of a localization file of this template. -/
def localeIn (config file : Path) : Option String :=
  if config.parent.any (fun home => file.parent.any (·.same (home.join localizeFolder))) then
    localeOf file
  else none

theorem localeIn_eq_some_iff :
    localeIn config file = some locale ↔ StringsFile config file locale := by
  have hplace : config.parent.any (fun home =>
        file.parent.any (·.same (home.join localizeFolder))) = true ↔
      ∃ home folder, config.parent = some home ∧ file.parent = some folder ∧
        folder.components = home.components ++ [.name "localize"] := by
    simp only [Option.any_eq_true, Path.same, beq_iff_eq, components_localize, exists_and_left]
  rw [localeIn, Option.ite_none_right_eq_some, hplace, localeOf_eq_some_iff]
  exact ⟨fun ⟨place, name, locale_ne⟩ => ⟨place, name, locale_ne⟩,
    fun h => ⟨h.place, h.name, h.locale_ne⟩⟩

instance (config file : Path) : Decidable (∃ locale, StringsFile config file locale) :=
  decidable_of_iff ((localeIn config file).isSome = true) <| by
    simp only [Option.isSome_iff_exists, localeIn_eq_some_iff]

/-- The prefix and the suffix of such a name do not overlap. -/
theorem StringsFile.isNamed_eq_false (h : StringsFile config file locale) :
    file.isNamed "templatestrings.json" = false := by
  obtain ⟨-, ⟨head, tail, hfile, hhead, htail⟩, hne⟩ := h
  have hlength {a b : String} (hsame : SameLetters a b) : a.length = b.length := by
    simpa only [lower, List.length_map, String.length_toList] using congrArg List.length hsame
  have hpositive : 0 < locale.length := Nat.pos_of_ne_zero (by simpa using hne)
  rw [Bool.eq_false_iff]
  intro hnamed
  obtain ⟨name, hname, hsame⟩ := isNamed_iff.mp hnamed
  obtain rfl := Option.some.inj (hname.symm.trans hfile)
  have hall := hlength hsame
  rw [String.length_append, String.length_append, hlength hhead, hlength htail] at hall
  have hsum : "templatestrings.json".length < "templatestrings.".length + ".json".length := by
    decide
  omega

theorem ConfigFile.hasSuffix (h : ConfigFile path) : path.hasSuffix jsonSuffix = true := by
  have hnamed : path.isNamed ("template" ++ jsonSuffix) = true := isNamed_iff.mpr h.name
  exact Path.hasSuffix_of_isNamed hnamed

theorem StringsFile.hasSuffix (h : StringsFile config file locale) :
    file.hasSuffix jsonSuffix = true := by
  obtain ⟨-, ⟨head, tail, hfile, -, htail⟩, -⟩ := h
  have hsame : SameLetters (head ++ locale ++ tail) (head ++ locale ++ jsonSuffix) := by
    simp only [SameLetters, lower, String.toList_append, List.map_append] at htail ⊢
    rw [htail, jsonSuffix]
  exact Path.hasSuffix_of_isNamed (isNamed_iff.mpr ⟨_, hfile, hsame⟩)

/-! What is found. -/

/-- The template that a configuration file describes, if it can be read and is one. -/
def configFrom (contents : Except Storage.Fault String) : Option TemplateConfig :=
  contents.toOption.bind fun text => (Json.decodeText TemplateConfig.decode text).toOption

/-- The configuration files that describe a template, read one after another, and what they say. -/
def described (h : Host) (configs : List Path) : List (Path × TemplateConfig) :=
  (h.answers 0 (fun _ => configFrom) configs).filterMap fun answer => answer.2.map (answer.1, ·)

/-- The entry for a localization file of a template. -/
structure Localizes (mount : Mount) (template : Path × TemplateConfig) (file : Path)
    (localization : Localization) : Prop where
  locale : StringsFile template.1 file localization.locale
  identity : localization.identity = template.2.identity
  mountUri : localization.mountUri = mount.uri
  configPath : localization.configPath = file

/-- What is found are these templates, and template by template its localization files, in the order
of `files`. -/
structure Finds (mount : Mount) (files : List Path) (entries : List (Path × TemplateConfig))
    (found : Found) : Prop where
  templates : found.templates = entries.map fun entry => templateOf mount entry.1 entry.2
  localizations : ∃ groups, found.localizations = groups.flatten ∧
    List.Forall₂ (fun entry group => List.Forall₂ (Localizes mount entry)
      (files.filter fun file => ∃ locale, StringsFile entry.1 file locale) group) entries groups

variable {mount : Mount} {files : List Path} {h : Host}

theorem localizationsOf_localizes (mount : Mount) (files : List Path)
    (template : Path × TemplateConfig) :
    List.Forall₂ (Localizes mount template)
      (files.filter fun file => ∃ locale, StringsFile template.1 file locale)
      (localizationsOf mount files template.1 template.2.identity) := by
  let entry (file : Path) : Option Localization := (localeIn template.1 file).map fun locale =>
    ⟨locale, template.2.identity, mount.uri, file⟩
  have hentries : localizationsOf mount files template.1 template.2.identity =
      files.filterMap entry := by
    unfold localizationsOf entry localeIn
    cases template.1.parent with
    | none => simp
    | some home =>
        dsimp only
        rw [List.filterMap_filter]
        congr 1
        funext file
        rw [Option.any_some]
        split <;> rfl
  have hfiles : (files.filter fun file => ∃ locale, StringsFile template.1 file locale) =
      files.filter fun file => (entry file).isSome := by
    refine List.filter_congr fun file _ => Bool.eq_iff_iff.mpr ?_
    simp only [decide_eq_true_eq, entry, Option.isSome_map, Option.isSome_iff_exists,
      localeIn_eq_some_iff]
  rw [hentries, hfiles]
  refine (forall₂_filterMap entry files).imp fun file localization hentry => ?_
  obtain ⟨locale, hlocale, rfl⟩ := Option.map_eq_some_iff.mp hentry
  exact ⟨localeIn_eq_some_iff.mp hlocale, rfl, rfl, rfl⟩

theorem described_cons (h : Host) (path : Path) (rest : List Path) :
    described h (path :: rest) =
      ((configFrom ((Host.read path).result h)).map (path, ·)).toList ++
        described ((Host.read path).after h) rest := by
  rw [described, described, Host.answers_cons, (Host.spent_read path h).answers,
    Host.result_read_eq, List.filterMap_cons]
  cases configFrom (h.readingAt 0 path) <;> rfl

theorem result_findIn_cons (mount : Mount) (files : List Path) (path : Path) (rest : List Path)
    (h : Host) :
    (findIn mount files (path :: rest)).result h =
      match configFrom ((Host.read path).result h) with
      | none => (findIn mount files rest).result ((Host.read path).after h)
      | some config =>
          ⟨[templateOf mount path config], localizationsOf mount files path config.identity⟩ ++
            (findIn mount files rest).result ((Host.read path).after h) := by
  rw [findIn, result_bind]
  cases (Host.read path).result h with
  | error fault => rfl
  | ok text =>
      simp only [configFrom, Except.toOption, Option.bind_some]
      cases Json.decodeText TemplateConfig.decode text <;> rfl

theorem result_findIn (mount : Mount) (files configs : List Path) (h : Host) :
    (findIn mount files configs).result h =
      ⟨(described h configs).map fun entry => templateOf mount entry.1 entry.2,
        (described h configs).flatMap fun entry =>
          localizationsOf mount files entry.1 entry.2.identity⟩ := by
  induction configs generalizing h with
  | nil => rfl
  | cons path rest ih =>
      rw [result_findIn_cons, described_cons, ih]
      cases configFrom ((Host.read path).result h) <;> rfl

/-- Configuration files that no longer describe anything are left out, and the others stay. -/
theorem described_of_broken {h h' : Host} {broken : Path → Bool} {configs : List Path}
    (hbroken : ∀ k path, configs[k]? = some path → configFrom (h'.readingAt k path) =
      if broken path then none else configFrom (h.readingAt k path)) :
    described h' configs = (described h configs).filter fun entry => !broken entry.1 := by
  induction configs generalizing h h' with
  | nil => rfl
  | cons path rest ih =>
      have hfirst := hbroken 0 path rfl
      have hrest : described ((Host.read path).after h') rest =
          (described ((Host.read path).after h) rest).filter fun entry => !broken entry.1 := by
        refine ih fun k other hother => ?_
        have hnext := hbroken (k + 1) other hother
        rw [(Host.spent_read path h').readingAt, (Host.spent_read path h).readingAt]
        rwa [List.length_singleton, Nat.add_comm]
      rw [described_cons, described_cons, hrest, Host.result_read_eq, Host.result_read_eq, hfirst]
      cases hpath : broken path with
      | true => cases configFrom (h.readingAt 0 path) <;> simp [hpath]
      | false => cases configFrom (h.readingAt 0 path) <;> simp [hpath]

/-- Configuration files and localization files are not missing when only files of their suffix are
listed. -/
theorem finds_findIn (mount : Mount) (t : Storage.Tree) (configs : List Path) (h : Host) :
    Finds mount (t.listing mount.root "") (described h configs)
      ((findIn mount (t.listing mount.root jsonSuffix) configs).result h) := by
  have hfiles (config : Path) :
      ((t.listing mount.root jsonSuffix).filter fun file =>
        ∃ locale, StringsFile config file locale) =
          (t.listing mount.root "").filter fun file => ∃ locale, StringsFile config file locale := by
    refine Storage.Tree.filter_listing_of_suffix t mount.root fun file hfile => ?_
    obtain ⟨locale, hstrings⟩ := of_decide_eq_true hfile
    exact hstrings.hasSuffix
  rw [result_findIn]
  refine ⟨rfl, _, List.flatMap_def .., ?_⟩
  rw [List.forall₂_map_right_iff, List.forall₂_same]
  intro entry _
  rw [← hfiles]
  exact localizationsOf_localizes mount _ entry

theorem Finds.localizes {entries : List (Path × TemplateConfig)} {found : Found}
    (hfinds : Finds mount files entries found) :
    ∀ localization ∈ found.localizations, ∃ entry ∈ entries,
      Localizes mount entry localization.configPath localization := by
  obtain ⟨groups, hgroups, hall⟩ := hfinds.localizations
  rw [hgroups]
  intro localization hmem
  obtain ⟨group, hgroup, hmem⟩ := List.mem_flatten.mp hmem
  obtain ⟨entry, hentry, howns⟩ := exists_of_forall₂ hall group hgroup
  obtain ⟨file, -, hlocalizes⟩ := exists_of_forall₂ howns localization hmem
  obtain rfl := hlocalizes.configPath
  exact ⟨entry, hentry, hlocalizes⟩

theorem list_eq_ok {folder : Path} {suffix : String} :
    (Host.list folder suffix).result h = .ok files ↔
      Storage.Disk.firstFault h.disk.prospect.listings = none ∧
        h.tree.listing folder suffix = files := by
  rw [Host.result_list_eq]
  cases Storage.Disk.firstFault h.disk.prospect.listings <;> simp

theorem result_finder (id : Uuid) (mount : Mount) (h : Host)
    (hfiles : (Host.list mount.root "").result h = .ok files) :
    ∃ found, (finder.run id mount).result h = .ok found ∧
      Finds mount files (described h (files.filter fun path => ConfigFile path)) found := by
  obtain ⟨hfault, rfl⟩ := list_eq_ok.mp hfiles
  have hlist : (Host.list mount.root jsonSuffix).result h =
      .ok (h.tree.listing mount.root jsonSuffix) := list_eq_ok.mpr ⟨hfault, rfl⟩
  have hconfigs : (h.tree.listing mount.root jsonSuffix).filter isConfig =
      (h.tree.listing mount.root "").filter fun path => ConfigFile path := by
    rw [Storage.Tree.filter_listing_of_suffix _ _ fun path hpath =>
      (isConfig_iff.mp hpath).hasSuffix]
    exact List.filter_congr fun path _ => Bool.eq_iff_iff.mpr (by simp [isConfig_iff])
  have hfinds := finds_findIn mount h.tree
    ((h.tree.listing mount.root "").filter fun path => ConfigFile path)
    ((Host.list mount.root jsonSuffix).after h)
  have hafter : described ((Host.list mount.root jsonSuffix).after h) = described h := by
    funext configs
    exact congrArg _ ((Host.spent_list mount.root jsonSuffix h).answers 0 _ configs)
  rw [hafter] at hfinds
  refine ⟨_, ?_, hfinds⟩
  change (find mount).result h = _
  rw [find, result_bind, hlist, ← hconfigs]
  rfl

/-- For every mount whose files can be listed, the generator finds what the configuration files
among them describe, in the order of paths, each template with the localization files of its own. If
some of these configuration files cannot be read or are broken instead, then what the others describe
is still found, and nothing else. -/
theorem finder_finds (id : Uuid) (mount : Mount) (h : Host) {files : List Path}
    (hfiles : (Host.list mount.root "").result h = .ok files) :
    let configs := files.filter fun path => ConfigFile path
    files.Pairwise (fun a b => (compare a b).isLE = true) ∧
    ∃ found, (finder.run id mount).result h = .ok found ∧
      Finds mount files (described h configs) found ∧
      (∀ localization ∈ found.localizations,
        localization.configPath.isNamed "templatestrings.json" = false) ∧
      ∀ (broken : Path → Bool) (h' : Host), (Host.list mount.root "").result h' = .ok files →
        (∀ k path, configs[k]? = some path → configFrom (h'.readingAt k path) =
          if broken path then none else configFrom (h.readingAt k path)) →
        ∃ rest, (finder.run id mount).result h' = .ok rest ∧
          Finds mount files ((described h configs).filter fun entry => !broken entry.1) rest := by
  intro configs
  obtain ⟨found, hrun, hfinds⟩ := result_finder id mount h hfiles
  refine ⟨?_, found, hrun, hfinds, fun localization hmem => ?_, fun broken h' hagain hbroken => ?_⟩
  · obtain ⟨-, rfl⟩ := list_eq_ok.mp hfiles
    unfold Storage.Tree.listing
    split
    · exact List.pairwise_mergeSort isLE_trans isLE_total _
    · exact .nil
  · obtain ⟨entry, -, hlocalizes⟩ := hfinds.localizes localization hmem
    exact hlocalizes.locale.isNamed_eq_false
  · rw [← described_of_broken hbroken]
    exact result_finder id mount h' hagain

/-- Two templates, the first with a localization file and one that is named after no locale, and a
file for templates that describes none. -/
def shelf : Host where
  disk.tree.limits := .usual
  disk.tree.entries := ⟨⟨[
    (["ink"], .folder),
    (["ink", ".Template.Config"], .folder),
    (["ink", ".Template.Config", "template.JSON"], .file (.text
      ("\x7b\"identity\": \"Acme.Ink\", \"name\": \"Ink\", \"shortName\": \"ink\", " ++
        "\"tags\": \x7b\"kind\": \"wet\"\x7d\x7d"))),
    (["ink", ".Template.Config", "localize"], .folder),
    (["ink", ".Template.Config", "localize", "TemplateStrings.de-DE.Json"], .file (.text "")),
    (["ink", ".Template.Config", "localize", "templatestrings.json"], .file (.text "")),
    (["odd"], .folder),
    (["odd", ".template.config"], .folder),
    (["odd", ".template.config", "template.json"], .file (.text "\x7b broken")),
    (["pen"], .folder),
    (["pen", ".template.config"], .folder),
    (["pen", ".template.config", "template.json"], .file (.text
      "\x7b\"identity\": \"Pen\", \"name\": \"Pen\"\x7d"))]⟩, .empty⟩
  disk.tree.here := []
  disk.prospect := .clear
  aliases := []
  trace := []
  births := 0
  now := ⟨2024, 1, 1, 0, 0, 0, 0⟩

/-- The first template is left out when its file cannot be read, and only this one. -/
theorem finder_finds_shelf :
    let mount : Mount := ⟨"/", ⟨"/"⟩⟩
    let torn : Host := { shelf with disk.prospect.reads := [some (.other "read fault")] }
    let ink : TemplateInfo := ⟨"Acme.Ink", "Ink", ["ink"], none, .ofList [("kind", "wet")], finderId,
      "/", ⟨"/ink/.Template.Config/template.JSON"⟩⟩
    let pen : TemplateInfo := ⟨"Pen", "Pen", [], none, .empty, finderId, "/",
      ⟨"/pen/.template.config/template.json"⟩⟩
    ∃ found rest, (finder.run (.ofNat 1) mount).result shelf = .ok found ∧
      found.templates = [ink, pen] ∧
      found.localizations = [⟨"de-DE", "Acme.Ink", "/",
        ⟨"/ink/.Template.Config/localize/TemplateStrings.de-DE.Json"⟩⟩] ∧
      (finder.run (.ofNat 1) mount).result torn = .ok rest ∧ rest.templates = [pen] := by
  intro mount torn ink pen
  let first : Path := ⟨"/ink/.Template.Config/template.JSON"⟩
  let configs : List Path := [first, ⟨"/odd/.template.config/template.json"⟩,
    ⟨"/pen/.template.config/template.json"⟩]
  let files : List Path := [⟨"/ink/.Template.Config/localize/TemplateStrings.de-DE.Json"⟩,
    ⟨"/ink/.Template.Config/localize/templatestrings.json"⟩] ++ configs
  have hlisting : shelf.tree.listing mount.root "" = files := by
    rw [Storage.Tree.listing_eq_insertionSort]
    decide +kernel
  have hconfigs : (files.filter fun path => ConfigFile path) = configs := by decide +kernel
  obtain ⟨-, found, hrun, hfinds, -, hbroken⟩ :=
    finder_finds (.ofNat 1) mount shelf (list_eq_ok.mpr ⟨rfl, hlisting⟩)
  rw [hconfigs] at hfinds hbroken
  have hreadings : ∀ k path, configs[k]? = some path → configFrom (torn.readingAt k path) =
      if path == first then none else configFrom (shelf.readingAt k path) := by
    intro k path hpath
    have hall : ∀ entry ∈ configs.zipIdx, configFrom (torn.readingAt entry.2 entry.1) =
        if entry.1 == first then none else configFrom (shelf.readingAt entry.2 entry.1) := by
      decide +kernel
    exact hall (path, k) (List.mem_zipIdx_iff_getElem?.mpr hpath)
  obtain ⟨rest, hagain, hrest⟩ :=
    hbroken (· == first) torn (list_eq_ok.mpr ⟨rfl, hlisting⟩) hreadings
  refine ⟨found, rest, hrun, ?_, ?_, hagain, ?_⟩
  · rw [hfinds.templates]
    decide +kernel
  · have hvalue : ((finder.run (.ofNat 1) mount).result shelf).toOption.map Found.localizations =
        some [⟨"de-DE", "Acme.Ink", "/",
          ⟨"/ink/.Template.Config/localize/TemplateStrings.de-DE.Json"⟩⟩] := by
      change ((find mount).result shelf).toOption.map Found.localizations = _
      rw [find, result_bind, Host.result_list_eq, Storage.Tree.listing_eq_insertionSort]
      decide +kernel
    simpa [hrun, Except.toOption] using hvalue
  · rw [hrest.templates]
    decide +kernel

end Generator

end PluginHost
