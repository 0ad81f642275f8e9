import Mathlib.Data.List.Forall2
import PluginHost.Proofs.Module.Loading

/-!
When module files can be identified and when they can be loaded. Both read the manifest in the file,
and loading only asks for more, so whatever is loaded has been identified as the same module.
Whatever goes wrong is a failure to load this file, and then it has been read and nothing else has
been done.
-/

namespace PluginHost

open HostM

variable {ε α β : Type}

/-- A list of stages succeeds with the values that they yield, in order. -/
theorem mapM_eq_ok_iff {f : α → Except ε β} {items : List α} {values : List β} :
    items.mapM f = .ok values ↔
      List.Forall₂ (fun item value => f item = .ok value) items values := by
  induction items generalizing values with
  | nil =>
      rw [List.forall₂_nil_left_iff]
      exact ⟨fun h => (Except.ok.inj h).symm, fun h => h ▸ rfl⟩
  | cons item rest ih =>
      rw [List.mapM_cons, List.forall₂_cons_left_iff]
      constructor
      · intro h
        obtain ⟨value, hvalue, h⟩ := bind_eq_ok.mp h
        obtain ⟨more, hmore, h⟩ := bind_eq_ok.mp h
        exact ⟨value, more, hvalue, ih.mp hmore, (Except.ok.inj h).symm⟩
      · rintro ⟨value, more, hvalue, hmore, rfl⟩
        exact bind_eq_ok.mpr ⟨value, hvalue, bind_eq_ok.mpr ⟨more, ih.mpr hmore, rfl⟩⟩

theorem exists_mapM_iff {f : α → Except ε β} {items : List α} :
    (∃ values, items.mapM f = .ok values) ↔ ∀ item ∈ items, ∃ value, f item = .ok value := by
  simp only [mapM_eq_ok_iff]
  induction items with
  | nil => simp
  | cons item rest ih =>
      rw [List.forall_mem_cons, ← ih]
      constructor
      · rintro ⟨values, h⟩
        cases h with
        | cons hvalue hmore => exact ⟨⟨_, hvalue⟩, _, hmore⟩
      · rintro ⟨⟨value, hvalue⟩, more, hmore⟩
        exact ⟨value :: more, .cons hvalue hmore⟩

namespace Manifest

/-- The public key, if there is one, is an even number of hexadecimal digits. -/
def KeyReadable (m : Manifest) : Prop :=
  ∀ key, m.publicKey = some key →
    key.toList.length % 2 = 0 ∧ ∀ c ∈ key.toList, Text.Hex.isDigit c = true

/-- The manifest has what it takes to be loaded. -/
structure Complete (m : Manifest) (catalog : Catalog) : Prop where
  key : m.KeyReadable
  references : ∀ s ∈ m.references, ∃ reference, Identity.parse s = .ok reference
  entry : ∃ factories, catalog.get? m.entryPoint = some factories

theorem exists_identity_iff {m : Manifest} :
    (∃ identity, m.identity = .ok identity) ↔ m.KeyReadable := by
  unfold identity KeyReadable
  cases hkey : m.publicKey with
  | none => simp
  | some key =>
      simp only [Option.some.injEq, forall_eq', ← Text.Hex.decode_isOk]
      cases Text.Hex.decode key.toList <;> simp

theorem exists_references_iff {m : Manifest} :
    (∃ references, m.referenceIdentities = .ok references) ↔
      ∀ s ∈ m.references, ∃ reference, Identity.parse s = .ok reference :=
  exists_mapM_iff

variable {path : Path} {m : Manifest} {failure : Failure}

theorem ofContents_eq_ok {contents : Except Storage.Fault String} :
    ofContents path contents = .ok m ↔
      ∃ text, contents = .ok text ∧ Json.decodeText decode text = .ok m := by
  cases contents with
  | error fault => simp [ofContents]
  | ok text => simp [ofContents, mapError_eq_ok]

/-! Every failure is one to load the file. -/

theorem failure_of_ofContents {contents : Except Storage.Fault String}
    (h : ofContents path contents = .error failure) :
    ∃ reason, failure = .moduleLoad path reason := by
  cases contents with
  | error fault => exact ⟨_, (Except.error.inj h).symm⟩
  | ok text =>
      obtain ⟨error, -, heq⟩ := mapError_eq_error.mp h
      exact ⟨_, heq.symm⟩

theorem failure_of_identityAt (h : m.identityAt path = .error failure) :
    ∃ reason, failure = .moduleLoad path reason := by
  obtain ⟨inner, -, heq⟩ := mapError_eq_error.mp h
  exact ⟨_, heq.symm⟩

theorem failure_of_referencesAt (h : m.referencesAt path = .error failure) :
    ∃ reason, failure = .moduleLoad path reason := by
  obtain ⟨inner, -, heq⟩ := mapError_eq_error.mp h
  exact ⟨_, heq.symm⟩

end Manifest

namespace Catalog

variable {catalog : Catalog} {path : Path} {h : Host} {module : LoadedModule} {failure : Failure}

theorem trace_read (h : Host) (path : Path) :
    ((Host.read path).after h).trace = h.trace ++ [.read path] := by
  simp only [Host.read, Host.note, after_bind, after_modify, after_modifyGet]

theorem identify_eq_ok {identity : Identity} :
    (identify path).result h = .ok identity ↔ ∃ text m, (Host.read path).result h = .ok text ∧
      Json.decodeText Manifest.decode text = .ok m ∧ m.identity = .ok identity := by
  have hidentify : (identify path).result h =
      Manifest.ofContents path ((Host.read path).result h) >>= fun m => m.identityAt path := rfl
  simp only [hidentify, bind_eq_ok, Manifest.ofContents_eq_ok, Manifest.identityAt, mapError_eq_ok]
  constructor
  · rintro ⟨m, ⟨text, hread, hdecode⟩, hidentity⟩
    exact ⟨text, m, hread, hdecode, hidentity⟩
  · rintro ⟨text, m, hread, hdecode, hidentity⟩
    exact ⟨m, ⟨text, hread, hdecode⟩, hidentity⟩

/-- A file that is not identified has been read, and nothing else has been done. -/
theorem identify_eq_error (hfails : (identify path).result h = .error failure) :
    (∃ reason, failure = .moduleLoad path reason) ∧
      ((identify path).after h).trace = h.trace ++ [.read path] := by
  refine ⟨?_, trace_read h path⟩
  rcases bind_eq_error.mp hfails with hcontents | ⟨m, -, hidentity⟩
  · exact Manifest.failure_of_ofContents hcontents
  · exact Manifest.failure_of_identityAt hidentity

/-- What loading comes to: it fails after reading, or the entry point is entered. -/
inductive Attempt (catalog : Catalog) (path : Path) (h : Host) :
    Except Failure LoadedModule → Host → Prop
  | fails {reason : String}
      (hunfit : ∀ text m, (Host.read path).result h = .ok text →
        Json.decodeText Manifest.decode text = .ok m → ¬ m.Complete catalog) :
      Attempt catalog path h (.error (.moduleLoad path reason)) ((Host.read path).after h)
  | loads {text : String} {m : Manifest} {identity : Identity} {references : List Identity}
      {factories : List Factory} (hread : (Host.read path).result h = .ok text)
      (hdecode : Json.decodeText Manifest.decode text = .ok m)
      (hidentity : m.identity = .ok identity) (hreferences : m.referenceIdentities = .ok references)
      (hentry : catalog.get? m.entryPoint = some factories) :
      Attempt catalog path h (.ok ⟨identity, path, references, factories⟩)
        ((Host.note (.entered m.entryPoint)).after ((Host.read path).after h))

theorem Attempt.of_unfit {m : Manifest} {reason : String}
    (hm : Manifest.ofContents path ((Host.read path).result h) = .ok m)
    (hunfit : ¬ m.Complete catalog) :
    Attempt catalog path h (.error (.moduleLoad path reason)) ((Host.read path).after h) := by
  obtain ⟨text, hread, hdecode⟩ := Manifest.ofContents_eq_ok.mp hm
  refine .fails fun text' m' hread' hdecode' => ?_
  obtain rfl := Except.ok.inj (hread.symm.trans hread')
  obtain rfl := Except.ok.inj (hdecode.symm.trans hdecode')
  exact hunfit

theorem attempt_load (catalog : Catalog) (path : Path) (h : Host) :
    Attempt catalog path h ((catalog.load path).result h) ((catalog.load path).after h) := by
  rw [load, result_bind, after_bind]
  cases hm : Manifest.ofContents path ((Host.read path).result h) with
  | error failure =>
      obtain ⟨reason, rfl⟩ := Manifest.failure_of_ofContents hm
      refine .fails fun text m hread hdecode => ?_
      have hok : Manifest.ofContents path ((Host.read path).result h) = .ok m :=
        Manifest.ofContents_eq_ok.mpr ⟨text, hread, hdecode⟩
      cases hm.symm.trans hok
  | ok m =>
      dsimp only
      cases hidentity : m.identityAt path with
      | error failure =>
          obtain ⟨reason, rfl⟩ := Manifest.failure_of_identityAt hidentity
          refine .of_unfit hm fun hcomplete => ?_
          obtain ⟨identity, hok⟩ := Manifest.exists_identity_iff.mpr hcomplete.key
          cases hidentity.symm.trans (mapError_eq_ok.mpr hok)
      | ok identity =>
          cases hreferences : m.referencesAt path with
          | error failure =>
              obtain ⟨reason, rfl⟩ := Manifest.failure_of_referencesAt hreferences
              refine .of_unfit hm fun hcomplete => ?_
              obtain ⟨references, hok⟩ := Manifest.exists_references_iff.mpr hcomplete.references
              cases hreferences.symm.trans (mapError_eq_ok.mpr hok)
          | ok references =>
              dsimp only
              rw [enter]
              cases hentry : catalog.get? m.entryPoint with
              | none =>
                  refine .of_unfit hm fun hcomplete => ?_
                  obtain ⟨factories, hsome⟩ := hcomplete.entry
                  cases hentry.symm.trans hsome
              | some factories =>
                  obtain ⟨text, hread, hdecode⟩ := Manifest.ofContents_eq_ok.mp hm
                  exact .loads hread hdecode (mapError_eq_ok.mp hidentity)
                    (mapError_eq_ok.mp hreferences) hentry

theorem load_eq_ok (hload : (catalog.load path).result h = .ok module) :
    ∃ text m, (Host.read path).result h = .ok text ∧
      Json.decodeText Manifest.decode text = .ok m ∧ m.Complete catalog ∧
      m.identity = .ok module.identity ∧
      List.Forall₂ (fun s reference => Identity.parse s = .ok reference) m.references
        module.references := by
  have hattempt := attempt_load catalog path h
  generalize (catalog.load path).after h = after at hattempt
  rw [hload] at hattempt
  cases hattempt with
  | @loads text m identity references factories hread hdecode hidentity hreferences hentry =>
      exact ⟨text, m, hread, hdecode,
        ⟨Manifest.exists_identity_iff.mp ⟨_, hidentity⟩,
          Manifest.exists_references_iff.mp ⟨_, hreferences⟩, _, hentry⟩,
        hidentity, mapM_eq_ok_iff.mp hreferences⟩

theorem exists_load_iff :
    (∃ module, (catalog.load path).result h = .ok module) ↔
      ∃ text m, (Host.read path).result h = .ok text ∧
        Json.decodeText Manifest.decode text = .ok m ∧ m.Complete catalog := by
  constructor
  · rintro ⟨module, hload⟩
    obtain ⟨text, m, hread, hdecode, hcomplete, -⟩ := load_eq_ok hload
    exact ⟨text, m, hread, hdecode, hcomplete⟩
  · rintro ⟨text, m, hread, hdecode, hcomplete⟩
    have hattempt := attempt_load catalog path h
    generalize (catalog.load path).result h = result, (catalog.load path).after h = after
      at hattempt ⊢
    cases hattempt with
    | fails hunfit => exact absurd hcomplete (hunfit text m hread hdecode)
    | loads => exact ⟨_, rfl⟩

/-- A file that is not loaded has been read, and nothing else has been done. -/
theorem load_eq_error (hfails : (catalog.load path).result h = .error failure) :
    (∃ reason, failure = .moduleLoad path reason) ∧
      ((catalog.load path).after h).trace = h.trace ++ [.read path] := by
  have hattempt := attempt_load catalog path h
  generalize (catalog.load path).after h = after at hattempt
  rw [hfails] at hattempt
  cases hattempt with
  | fails => exact ⟨⟨_, rfl⟩, trace_read h path⟩

/-- Identifying and loading a file agree: what loading asks for includes what identifying asks for,
and a module that is loaded has the identity that its file has for whoever reads the same there. -/
theorem load_identify_agree (catalog : Catalog) (path : Path) (h : Host) :
    ((∃ identity, (identify path).result h = .ok identity) ↔
      ∃ text m, (Host.read path).result h = .ok text ∧
        Json.decodeText Manifest.decode text = .ok m ∧ m.KeyReadable) ∧
    ((∃ module, (catalog.load path).result h = .ok module) ↔
      ∃ text m, (Host.read path).result h = .ok text ∧
        Json.decodeText Manifest.decode text = .ok m ∧ m.Complete catalog) ∧
    (∀ module, (catalog.load path).result h = .ok module →
      (∀ h', (Host.read path).result h' = (Host.read path).result h →
        (identify path).result h' = .ok module.identity) ∧
      ∃ text m, (Host.read path).result h = .ok text ∧
        Json.decodeText Manifest.decode text = .ok m ∧
        List.Forall₂ (fun s reference => Identity.parse s = .ok reference) m.references
          module.references) ∧
    (∀ failure, (identify path).result h = .error failure →
      (∃ reason, failure = .moduleLoad path reason) ∧
        ((identify path).after h).trace = h.trace ++ [.read path]) ∧
    ∀ failure, (catalog.load path).result h = .error failure →
      (∃ reason, failure = .moduleLoad path reason) ∧
        ((catalog.load path).after h).trace = h.trace ++ [.read path] := by
  refine ⟨?_, exists_load_iff, fun module hload => ?_, fun _ => identify_eq_error,
    fun _ => load_eq_error⟩
  · simp only [identify_eq_ok, ← Manifest.exists_identity_iff]
    constructor
    · rintro ⟨identity, text, m, hread, hdecode, hidentity⟩
      exact ⟨text, m, hread, hdecode, identity, hidentity⟩
    · rintro ⟨text, m, hread, hdecode, identity, hidentity⟩
      exact ⟨identity, text, m, hread, hdecode, hidentity⟩
  · obtain ⟨text, m, hread, hdecode, -, hidentity, hreferences⟩ := load_eq_ok hload
    exact ⟨fun h' hsame => identify_eq_ok.mpr ⟨text, m, hsame.trans hread, hdecode, hidentity⟩,
      text, m, hread, hdecode, hreferences⟩

theorem load_identify_agree_inkwell :
    ∃ module, (Catalog.load ⟨[("ink", [])]⟩ ⟨"/pack/Ink.module"⟩).result inkwell = .ok module ∧
      module.identity = ⟨"Ink", some ⟨2, 1, 0, 0⟩, some "de-AT", some [0, 255]⟩ ∧
      (identify ⟨"/pack/Ink.module"⟩).result inkwell = .ok module.identity := by
  have hloaded : ((Catalog.load ⟨[("ink", [])]⟩ ⟨"/pack/Ink.module"⟩).result inkwell).toOption.map
      LoadedModule.identity = some ⟨"Ink", some ⟨2, 1, 0, 0⟩, some "de-AT", some [0, 255]⟩ := by
    decide +kernel
  obtain ⟨module, hload, hidentity⟩ := map_toOption_eq_some.mp hloaded
  have hagree := load_identify_agree ⟨[("ink", [])]⟩ ⟨"/pack/Ink.module"⟩ inkwell
  exact ⟨module, hload, hidentity, (hagree.2.2.1 module hload).1 inkwell rfl⟩

end Catalog

end PluginHost
