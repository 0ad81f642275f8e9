import PluginHost.Proofs.Module.IdentityText
import PluginHost.Proofs.Resolution.Run

/-!
Resolution is sound. Outcomes are kept under the texts of identities, and identities that can be
read have different texts; so what is kept for a request was found for it and fits it, however the
files have changed since.
-/

namespace PluginHost

namespace Resolver

open HostM

/-- Every module that is kept for an identity which can be read fits this identity. -/
def Sound (policy : CulturePolicy) (r : Resolver) : Prop :=
  r.policy = policy ∧ ∀ requested : Identity, requested.Readable → ∀ module,
    r.memo.get? requested.text = some (some module) → Fits policy requested module.identity

variable {policy : CulturePolicy}

theorem sound_new (suffix : String) (policy : CulturePolicy) (catalog : Catalog) :
    Sound policy (new suffix policy catalog) :=
  ⟨rfl, fun _ _ _ h => by cases h⟩

theorem Sound.addLocation {r : Resolver} (h : Sound policy r) (location : String) :
    Sound policy (r.addLocation location) := by
  rw [Resolver.addLocation]
  split <;> exact h

/-- The text of another readable identity is another key, so keeping an outcome that fits does not
touch what is kept for others. -/
theorem Sound.keep {r : Resolver} (h : Sound policy r) {requested : Identity}
    (hrequested : requested.Readable) {outcome : Option LoadedModule}
    (hfits : ∀ module, outcome = some module → Fits policy requested module.identity) :
    Sound policy (r.keep requested outcome) := by
  refine ⟨h.1, fun other hother module hmodule => ?_⟩
  rw [get?_keep] at hmodule
  split at hmodule
  · rename_i htext
    rw [hother.eq_of_text hrequested htext]
    exact hfits module (Option.some.inj hmodule)
  · exact h.2 other hother module hmodule

theorem Sound.yields_resolve {r : Resolver} (h : Sound policy r) {requested : Identity}
    (hrequested : requested.Readable) (tree : Storage.Tree) :
    Yields (Host.Has tree) (r.resolve requested) fun answer =>
      Sound policy answer.2 ∧ answer.1 = (answer.2.memo.get? requested.text).join := by
  refine Resolver.yields_resolve (R := Identity.Readable) ?_ h hrequested
  intro r requested hr hrequested _
  refine (yields_probe (Host.lasting_has tree) (fun _ => id) r requested).mono ?_
  intro outcome houtcome
  refine ⟨hr.keep hrequested fun module hmodule => hr.1 ▸ (houtcome module hmodule).1, ?_⟩
  intro reference hreference
  cases outcome with
  | none => simp [referencesOf] at hreference
  | some module =>
      obtain ⟨path, hpath⟩ := (houtcome module rfl).2
      exact Catalog.readable_of_moduleIn hpath reference (by simpa [referencesOf] using hreference)

theorem Sound.perform {r : Resolver} (h : Sound policy r) {action : Action}
    (haction : action.Readable) (host : Host) : Sound policy ((r.perform action).result host) := by
  cases action with
  | addLocation location => exact h.addLocation location
  | resolve requested => exact ((h.yields_resolve haction host.tree) host rfl).1.1
  | outside surroundings => exact h

theorem Sound.run {r : Resolver} (h : Sound policy r) {actions : List Action}
    (hactions : ∀ action ∈ actions, action.Readable) (host : Host) :
    Sound policy ((r.run actions).result host) :=
  run_induction (fun _ _ hr haction => hr.perform haction) h hactions host

/-- Whatever a resolver has done before, and whatever has happened to the files, a module that it
answers with fits the request, and so does every module that it keeps for any identity, be it asked
for or referred to. -/
theorem resolve_fits (suffix : String) (policy : CulturePolicy) (catalog : Catalog) (h : Host)
    (actions : List Action) (hactions : ∀ action ∈ actions, action.Readable)
    (requested : Identity) (hrequested : requested.Readable) :
    let before := (new suffix policy catalog).run actions
    let answer := ((before.result h).resolve requested).result (before.after h)
    (∀ module, answer.1 = some module → Fits policy requested module.identity) ∧
      ∀ other : Identity, other.Readable → ∀ module,
        answer.2.memo.get? other.text = some (some module) → Fits policy other module.identity := by
  intro before answer
  have hbefore : Sound policy (before.result h) := (sound_new suffix policy catalog).run hactions h
  obtain ⟨⟨hsound, hanswer⟩, -⟩ := hbefore.yields_resolve hrequested _ (before.after h) rfl
  refine ⟨fun module hmodule => ?_, hsound.2⟩
  rw [hanswer, Option.join_eq_some_iff] at hmodule
  exact hsound.2 requested hrequested module hmodule

def shelves : Storage.Disk where
  tree.limits := .usual
  tree.entries := ⟨⟨[
    (["low"], .folder),
    (["low", "Ink.module"], .file (.text
      "\x7b\"name\": \"Ink\", \"version\": \"1.0\", \"entry_point\": \"ink\"\x7d")),
    (["high"], .folder),
    (["high", "ink.module"], .file (.text
      "\x7b\"name\": \"ink\", \"version\": \"1.2\", \"entry_point\": \"ink\"\x7d"))]⟩, .empty⟩
  tree.here := []
  prospect := .clear

/-- The module of the higher version is found, and still answered after all files are gone. -/
theorem resolve_fits_shelves :
    let requested : Identity := ⟨"Ink", some ⟨1, 1, 0, 0⟩, none, none⟩
    let now : Timestamp := ⟨2024, 1, 1, 0, 0, 0, 0⟩
    let bare : Storage.Disk := ⟨⟨.usual, .empty, []⟩, .clear⟩
    let actions : List Action :=
      [.addLocation "/low", .addLocation "/high", .resolve requested, .outside ⟨bare, [], now⟩]
    let before := (new ".module" .strict ⟨[("ink", [])]⟩).run actions
    let h : Host := ⟨shelves, [], [], 0, now⟩
    (∀ action ∈ actions, action.Readable) ∧ requested.Readable ∧ ∃ module,
      (((before.result h).resolve requested).result (before.after h)).1 = some module ∧
        Fits .strict requested module.identity := by
  intro requested now bare actions before h
  have hrequested : requested.Readable :=
    Identity.readable_iff_plain.mpr ⟨by decide, by simp [requested]⟩
  have hactions : ∀ action ∈ actions, action.Readable := by
    simp [actions, Action.Readable, hrequested]
  have hfound :
      (((before.result h).resolve requested).result (before.after h)).1.isSome = true := by
    decide +kernel
  obtain ⟨module, hmodule⟩ := Option.isSome_iff_exists.mp hfound
  refine ⟨hactions, hrequested, module, hmodule, ?_⟩
  exact (resolve_fits ".module" .strict ⟨[("ink", [])]⟩ h actions hactions requested hrequested).1
    module hmodule

end Resolver

end PluginHost
