import Mathlib.Data.Option.Basic
import PluginHost.Proofs.Outcome
import PluginHost.Proofs.Text
import PluginHost.Module.Loading

/-!
Identities and manifests that differ in the letter case of names and cultures. From such manifests
such identities are read, and nothing else changes: what fails for one fails for the other.
-/

namespace PluginHost

/-- Both computations fail, for whatever reasons, or both come to values that are related. -/
inductive Agree {ε ε' α β : Type} (R : α → β → Prop) : Except ε α → Except ε' β → Prop
  | ok {a : α} {b : β} (h : R a b) : Agree R (.ok a) (.ok b)
  | error (e : ε) (e' : ε') : Agree R (.error e) (.error e')

namespace Agree

variable {ε ε' α α' β β' : Type} {R : α → α' → Prop} {S : β → β' → Prop} {x : Except ε α}
  {x' : Except ε' α'}

theorem bind (h : Agree R x x') {f : α → Except ε β} {f' : α' → Except ε' β'}
    (hf : ∀ a a', R a a' → Agree S (f a) (f' a')) : Agree S (x.bind f) (x'.bind f') := by
  cases h with
  | ok h => exact hf _ _ h
  | error e e' => exact .error e e'

theorem mapError {δ δ' : Type} (h : Agree R x x') (f : ε → δ) (f' : ε' → δ') :
    Agree R (x.mapError f) (x'.mapError f') := by
  cases h with
  | ok h => exact .ok h
  | error e e' => exact .error _ _

theorem rel_toOption (h : Agree R x x') : Option.Rel R x.toOption x'.toOption := by
  cases h with
  | ok h => exact .some h
  | error e e' => exact .none

theorem refl (x : Except ε α) : Agree Eq x x := by
  cases x with
  | ok a => exact .ok rfl
  | error e => exact .error e e

end Agree

namespace Identity

/-- The same but for the letter case of name and culture. -/
structure Recased (a b : Identity) : Prop where
  name : a.SameName b
  culture : a.SameCulture b
  version : b.version = a.version
  publicKey : b.publicKey = a.publicKey

theorem Recased.refl (a : Identity) : a.Recased a :=
  ⟨Text.SameLetters.refl a.name, rfl, rfl, rfl⟩

theorem sameCulture_of_lower {a b : List Char} (h : Text.lower a = Text.lower b) :
    (cultureOf a).map (fun c => Text.lower c.toList) =
      (cultureOf b).map fun c => Text.lower c.toList := by
  have hlower : Text.lower (Text.trim a) = Text.lower (Text.trim b) := by
    rw [← Text.trim_lower, ← Text.trim_lower, h]
  have hempty : Text.trim a = [] ↔ Text.trim b = [] := by
    have hlength := congrArg List.length hlower
    simp only [Text.lower, List.length_map] at hlength
    rw [← List.length_eq_zero_iff, hlength, List.length_eq_zero_iff]
  simp only [cultureOf, hempty, hlower]
  split
  · rfl
  · simp [hlower]

end Identity

namespace Manifest

/-- The same but for the letter case of name and culture. -/
structure Recased (m m' : Manifest) : Prop where
  name : Text.SameLetters m.name m'.name
  culture : Option.Rel Text.SameLetters m.culture m'.culture
  version : m'.version = m.version
  publicKey : m'.publicKey = m.publicKey
  entryPoint : m'.entryPoint = m.entryPoint
  references : m'.references = m.references

theorem Recased.refl (m : Manifest) : m.Recased m := by
  refine ⟨Text.SameLetters.refl m.name, ?_, rfl, rfl, rfl, rfl⟩
  cases m.culture with
  | none => exact .none
  | some culture => exact .some (Text.SameLetters.refl culture)

/-- The same text, or the texts of two manifests that differ in letter case. -/
inductive SameText : String → String → Prop
  | same (text : String) : SameText text text
  | recased {text text' : String} {m m' : Manifest} (hm : Json.decodeText decode text = .ok m)
      (hm' : Json.decodeText decode text' = .ok m') (h : m.Recased m') : SameText text text'

variable {m m' : Manifest}

theorem Recased.identity (h : m.Recased m') :
    Agree Identity.Recased m.identity m'.identity := by
  have hcultures : ∀ {c c' : Option String}, Option.Rel Text.SameLetters c c' →
      (c.bind fun c => Identity.cultureOf c.toList).map (fun c => Text.lower c.toList) =
        (c'.bind fun c => Identity.cultureOf c.toList).map fun c => Text.lower c.toList := by
    intro c c' hrel
    cases hrel with
    | none => rfl
    | some hletters => exact Identity.sameCulture_of_lower hletters
  have hculture := hcultures h.culture
  unfold Manifest.identity
  rw [h.publicKey, h.version]
  cases m.publicKey with
  | none => exact .ok ⟨h.name, hculture, rfl, rfl⟩
  | some key =>
      dsimp only
      cases Text.Hex.decode key.toList with
      | ok octets => exact .ok ⟨h.name, hculture, rfl, rfl⟩
      | error fault => exact .error _ _

theorem Recased.identityAt (h : m.Recased m') (path path' : Path) :
    Agree Identity.Recased (m.identityAt path) (m'.identityAt path') :=
  h.identity.mapError _ _

theorem Recased.referencesAt (h : m.Recased m') (path path' : Path) :
    Agree Eq (m.referencesAt path) (m'.referencesAt path') := by
  unfold Manifest.referencesAt referenceIdentities
  rw [h.references]
  exact (Agree.refl _).mapError _ _

theorem agree_ofContents {contents contents' : Except Storage.Fault String}
    (h : Agree SameText contents contents') (path path' : Path) :
    Agree Recased (ofContents path contents) (ofContents path' contents') := by
  cases h with
  | error fault fault' => exact .error _ _
  | ok h =>
      refine Agree.mapError ?_ _ _
      cases h with
      | same =>
          cases Json.decodeText decode _ with
          | ok m => exact .ok (.refl m)
          | error fault => exact .error fault fault
      | recased hm hm' h =>
          rw [hm, hm']
          exact .ok h

end Manifest

end PluginHost
