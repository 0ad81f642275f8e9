import PluginHost.Module.Loading
import PluginHost.Proofs.Host.Effects
import PluginHost.Proofs.Module.IdentityText
import PluginHost.Proofs.Outcome

/-!
What the files of a tree say of modules. Identifying and loading a file read the same manifest, so a
module that is loaded has the identity that its file was identified with.
-/

namespace PluginHost

open HostM

namespace Manifest

def inTree (tree : Storage.Tree) (path : Path) : Except Failure Manifest :=
  ofContents path (tree.read path)

theorem exists_parse_of_references {m : Manifest} {references : List Identity}
    (h : m.referenceIdentities = .ok references) :
    ∀ reference ∈ references, ∃ s ∈ m.references, Identity.parse s = .ok reference :=
  exists_mem_of_mapM h

theorem readable_of_references {m : Manifest} {references : List Identity}
    (h : m.referenceIdentities = .ok references) :
    ∀ reference ∈ references, reference.Readable := by
  intro reference hreference
  obtain ⟨s, -, hparse⟩ := exists_parse_of_references h reference hreference
  exact ⟨s, hparse⟩

theorem cultureOf_of_identity {m : Manifest} {identity : Identity}
    (h : m.identity = .ok identity) {culture : String}
    (hculture : identity.culture = some culture) :
    Identity.cultureOf culture.toList = some culture := by
  have hdeclared : identity.culture =
      m.culture.bind fun culture => Identity.cultureOf culture.toList := by
    unfold Manifest.identity at h
    cases hkey : m.publicKey with
    | none =>
        rw [hkey] at h
        cases h
        rfl
    | some key =>
        cases hdecode : Text.Hex.decode key.toList with
        | error fault => simp [hkey, hdecode] at h
        | ok octets =>
            simp only [hkey, hdecode, Except.ok.injEq] at h
            rw [← h]
  rw [hdeclared] at hculture
  obtain ⟨declared, -, hof⟩ := Option.bind_eq_some_iff.mp hculture
  exact Identity.cultureOf_toList hof

end Manifest

namespace Catalog

def identityIn (tree : Storage.Tree) (path : Path) : Except Failure Identity :=
  (Manifest.inTree tree path).bind fun m => m.identityAt path

/-- The module that a file holds. -/
def moduleIn (catalog : Catalog) (tree : Storage.Tree) (path : Path) :
    Except Failure LoadedModule := do
  let m ← Manifest.inTree tree path
  let identity ← m.identityAt path
  let references ← m.referencesAt path
  match catalog.get? m.entryPoint with
  | none => .error (missingEntry path m.entryPoint)
  | some factories => .ok ⟨identity, path, references, factories⟩

theorem moduleIn_eq_ok {catalog : Catalog} {tree : Storage.Tree} {path : Path}
    {module : LoadedModule} (h : catalog.moduleIn tree path = .ok module) :
    ∃ m, Manifest.inTree tree path = .ok m ∧ m.identityAt path = .ok module.identity ∧
      m.referencesAt path = .ok module.references ∧ module.path = path ∧
      catalog.get? m.entryPoint = some module.factories := by
  unfold moduleIn at h
  obtain ⟨m, hm, h⟩ := bind_eq_ok.mp h
  obtain ⟨identity, hidentity, h⟩ := bind_eq_ok.mp h
  obtain ⟨references, hreferences, h⟩ := bind_eq_ok.mp h
  cases hentry : catalog.get? m.entryPoint with
  | none => simp [hentry] at h
  | some factories =>
      simp only [hentry, Except.ok.injEq] at h
      subst h
      exact ⟨m, hm, hidentity, hreferences, rfl, hentry⟩

theorem moduleIn_of_inTree {catalog : Catalog} {tree : Storage.Tree} {path : Path} {m : Manifest}
    {identity : Identity} {references : List Identity} {factories : List Factory}
    (hm : Manifest.inTree tree path = .ok m) (hidentity : m.identityAt path = .ok identity)
    (hreferences : m.referencesAt path = .ok references)
    (hentry : catalog.get? m.entryPoint = some factories) :
    catalog.moduleIn tree path = .ok ⟨identity, path, references, factories⟩ := by
  simp only [moduleIn, hm, hidentity, hreferences, hentry, bind, Except.bind]

theorem identityIn_of_moduleIn {catalog : Catalog} {tree : Storage.Tree} {path : Path}
    {module : LoadedModule} (h : catalog.moduleIn tree path = .ok module) :
    identityIn tree path = .ok module.identity := by
  obtain ⟨m, hm, hidentity, _⟩ := moduleIn_eq_ok h
  simp only [identityIn, hm, Except.bind, hidentity]

theorem readable_of_moduleIn {catalog : Catalog} {tree : Storage.Tree} {path : Path}
    {module : LoadedModule} (h : catalog.moduleIn tree path = .ok module) :
    ∀ reference ∈ module.references, reference.Readable := by
  obtain ⟨m, _, _, hreferences, _⟩ := moduleIn_eq_ok h
  exact Manifest.readable_of_references (mapError_eq_ok.mp hreferences)

theorem plain_of_moduleIn {catalog : Catalog} {tree : Storage.Tree} {path : Path}
    {module : LoadedModule} (h : catalog.moduleIn tree path = .ok module)
    (hname : Identity.isName module.identity.name.toList = true)
    (hcomma : ∀ culture, module.identity.culture = some culture → ',' ∉ culture.toList) :
    module.identity.Plain := by
  obtain ⟨m, _, hidentity, _⟩ := moduleIn_eq_ok h
  have hread : m.identity = .ok module.identity := mapError_eq_ok.mp hidentity
  exact ⟨hname, fun culture hculture =>
    ⟨hcomma culture hculture, Manifest.cultureOf_of_identity hread hculture⟩⟩

variable {I : Host → Prop} {tree : Storage.Tree}

theorem ofContents_of_read {path : Path} {contents : Except Storage.Fault String} {m : Manifest}
    (hcontents : ∀ text, contents = .ok text → tree.read path = .ok text)
    (h : Manifest.ofContents path contents = .ok m) : Manifest.inTree tree path = .ok m := by
  cases contents with
  | error fault => simp [Manifest.ofContents] at h
  | ok text => rw [Manifest.inTree, hcontents text rfl, h]

theorem yields_identify (hI : Host.Lasting I) (htree : ∀ h, I h → h.tree = tree) (path : Path) :
    Yields I (identify path) fun identified =>
      ∀ identity, identified = .ok identity → identityIn tree path = .ok identity := by
  refine (Host.yields_read hI htree path).bind fun contents hcontents => Yields.pure ?_
  intro identity hidentity
  cases hm : Manifest.ofContents path contents with
  | error failure => simp [hm, Except.bind] at hidentity
  | ok m => rwa [identityIn, ofContents_of_read hcontents hm, ← hm]

theorem yields_enter (hI : Host.Lasting I) (catalog : Catalog) (entryPoint : String) :
    Yields I (catalog.enter entryPoint) fun factories => factories = catalog.get? entryPoint := by
  rw [enter]
  cases hentry : catalog.get? entryPoint with
  | none => exact Yields.pure rfl
  | some factories => exact (Host.yields_note hI _).bind fun _ _ => Yields.pure rfl

theorem yields_load (hI : Host.Lasting I) (htree : ∀ h, I h → h.tree = tree) (catalog : Catalog)
    (path : Path) :
    Yields I (catalog.load path) fun loaded =>
      ∀ module, loaded = .ok module → catalog.moduleIn tree path = .ok module := by
  refine (Host.yields_read hI htree path).bind fun contents hcontents => ?_
  cases hm : Manifest.ofContents path contents with
  | error failure => exact Yields.pure fun _ h => by cases h
  | ok m =>
      have hin : Manifest.inTree tree path = .ok m := ofContents_of_read hcontents hm
      dsimp only
      cases hidentity : m.identityAt path with
      | error failure => exact Yields.pure fun _ h => by cases h
      | ok identity =>
          cases hreferences : m.referencesAt path with
          | error failure => exact Yields.pure fun _ h => by cases h
          | ok references =>
              refine (yields_enter hI catalog m.entryPoint).bind fun factories hfactories => ?_
              cases factories with
              | none => exact Yields.pure fun _ h => by cases h
              | some factories =>
                  refine Yields.pure fun module hmodule => ?_
                  simp only [Except.ok.injEq] at hmodule
                  subst hmodule
                  simp [moduleIn, hin, hidentity, hreferences, ← hfactories, bind, Except.bind]

/-! Without faults the answers are what the files say. -/

theorem result_identify_of_calm {h : Host} (hcalm : h.Calm) (path : Path) :
    (identify path).result h = identityIn h.tree path := by
  simp only [identify, bind_pure_comp, result_map, Host.result_read_of_calm hcalm]
  rfl

theorem result_load_of_calm {h : Host} (hcalm : h.Calm) (catalog : Catalog) (path : Path) :
    (catalog.load path).result h = catalog.moduleIn h.tree path := by
  have hread : (catalog.load path).result h = _ := result_bind (Host.read path) _ h
  rw [hread, Host.result_read_of_calm hcalm, moduleIn, Manifest.inTree]
  cases Manifest.ofContents path (h.tree.read path) with
  | error failure => rfl
  | ok m =>
      dsimp only [bind, Except.bind]
      cases m.identityAt path with
      | error failure => rfl
      | ok identity =>
          cases m.referencesAt path with
          | error failure => rfl
          | ok references =>
              dsimp only
              rw [enter]
              cases catalog.get? m.entryPoint with
              | none => rfl
              | some factories => rfl

/-! What a module that was loaded is called. -/

/-- The text of its identity, by which its components refer to it, names the module again exactly if
the file gives it the name of a module, and a culture without a comma. -/
theorem parse_text_iff_of_load {catalog : Catalog} {path : Path} {h : Host} {module : LoadedModule}
    (hload : (catalog.load path).result h = .ok module) :
    Identity.parse module.identity.text = .ok module.identity ↔
      Identity.isName module.identity.name.toList = true ∧
        ∀ culture, module.identity.culture = some culture → ',' ∉ culture.toList := by
  have hmodule : catalog.moduleIn h.tree path = .ok module :=
    (yields_load (Host.lasting_has h.tree) (fun _ hhas => hhas) catalog path h rfl).1 module hload
  constructor
  · intro hparse
    have hplain := Identity.plain_of_parse hparse
    exact ⟨hplain.name, fun culture hculture => (hplain.culture culture hculture).1⟩
  · rintro ⟨hname, hcomma⟩
    exact (plain_of_moduleIn hmodule hname hcomma).parse_text

/-- Three modules of one entry point: one with a proper name, one with a blank in its name, and one
with a comma in its culture. -/
def inkwell : Host where
  disk.tree.limits := .usual
  disk.tree.entries := ⟨⟨[
    (["pack"], .folder),
    (["pack", "Ink.module"], .file (.text ("\x7b\"name\": \"Ink\", \"version\": \"2.1\", " ++
      "\"culture\": \" de-AT\", \"public_key\": \"00FF\", \"entry_point\": \"ink\"\x7d"))),
    (["pack", "Fine Ink.module"], .file (.text
      "\x7b\"name\": \"Fine Ink\", \"entry_point\": \"ink\"\x7d")),
    (["pack", "Red.module"], .file (.text ("\x7b\"name\": \"Red\", " ++
      "\"culture\": \"de, Version=9\", \"entry_point\": \"ink\"\x7d")))]⟩, .empty⟩
  disk.tree.here := []
  disk.prospect := .clear
  aliases := []
  trace := []
  births := 0
  now := ⟨2024, 1, 1, 0, 0, 0, 0⟩

theorem parse_text_iff_of_load_inkwell :
    ∃ module, (Catalog.load ⟨[("ink", [])]⟩ ⟨"/pack/Ink.module"⟩).result inkwell = .ok module ∧
      module.identity = ⟨"Ink", some ⟨2, 1, 0, 0⟩, some "de-AT", some [0, 255]⟩ ∧
      Identity.parse module.identity.text = .ok module.identity := by
  have hloaded : ((Catalog.load ⟨[("ink", [])]⟩ ⟨"/pack/Ink.module"⟩).result inkwell).toOption.map
      LoadedModule.identity = some ⟨"Ink", some ⟨2, 1, 0, 0⟩, some "de-AT", some [0, 255]⟩ := by
    decide +kernel
  obtain ⟨module, hload, hidentity⟩ := map_toOption_eq_some.mp hloaded
  refine ⟨module, hload, hidentity, (parse_text_iff_of_load hload).mpr ⟨?_, ?_⟩⟩
  · rw [hidentity]
    decide
  · rw [hidentity]
    decide

/-- The loader takes both other files. The text of the first identity cannot be read, that of the
second is read as the identity of another module. -/
theorem load_unreadable_inkwell :
    (∃ module, (Catalog.load ⟨[("ink", [])]⟩ ⟨"/pack/Fine Ink.module"⟩).result inkwell =
        .ok module ∧ ∀ identity, Identity.parse module.identity.text ≠ .ok identity) ∧
    ∃ module, (Catalog.load ⟨[("ink", [])]⟩ ⟨"/pack/Red.module"⟩).result inkwell = .ok module ∧
      ∃ other, Identity.parse module.identity.text = .ok other ∧ other ≠ module.identity := by
  have hfine : ((Catalog.load ⟨[("ink", [])]⟩ ⟨"/pack/Fine Ink.module"⟩).result inkwell).toOption.map
      (fun module => (Identity.parse module.identity.text).toOption) = some none := by
    decide +kernel
  have hred : ((Catalog.load ⟨[("ink", [])]⟩ ⟨"/pack/Red.module"⟩).result inkwell).toOption.map
      (fun module => (module.identity.culture,
        (Identity.parse module.identity.text).toOption.map Identity.culture)) =
          some (some "de, Version=9", some (some "de")) := by
    decide +kernel
  obtain ⟨fine, hfine, hunread⟩ := map_toOption_eq_some.mp hfine
  obtain ⟨red, hred, hcultures⟩ := map_toOption_eq_some.mp hred
  obtain ⟨hculture, hother⟩ := Prod.mk.inj hcultures
  obtain ⟨other, hparse, hdifferent⟩ := map_toOption_eq_some.mp hother
  refine ⟨⟨fine, hfine, fun identity hread => ?_⟩, red, hred, other, hparse, fun hsame => ?_⟩
  · rw [hread] at hunread
    cases hunread
  · rw [hsame, hculture] at hdifferent
    exact absurd hdifferent (by decide)

end Catalog

end PluginHost
