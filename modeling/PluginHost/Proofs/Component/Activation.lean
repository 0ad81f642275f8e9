import PluginHost.Proofs.Collection
import PluginHost.Proofs.Resolution.Keeping

/-!
Activation of type references. The first activation of a reference settles the outcome for its
module, and with it the factory that this one and all later activations run.
-/

namespace PluginHost

theorem Component.implements_iff {c : Component} {capability : Capability} :
    c.implements capability = true ↔ capability ∈ c.capabilities := by
  simp [implements, capabilities, SortedMap.contains, SortedMap.mem_keys_iff,
    Option.isSome_iff_exists]

theorem Factory.Steady.implements {f : Factory} (h : f.Steady) (m n : Nat) (module : String)
    (capability : Capability) :
    ((f.construct m).inModule module).implements capability =
      ((f.construct n).inModule module).implements capability := by
  have hsame : (f.construct m).capabilities = (f.construct n).capabilities := (h m n).2
  rw [Bool.eq_iff_iff, Component.implements_iff, Component.implements_iff]
  change capability ∈ (f.construct m).capabilities ↔ capability ∈ (f.construct n).capabilities
  rw [hsame]

theorem Version.parse_error {s : String} {failure : Failure} (h : parse s = .error failure) :
    ∃ value reason, failure = .invalidIdentity value reason := by
  unfold parse at h
  cases hread : Version.read s.toList with
  | ok version =>
      rw [hread] at h
      cases h
  | error fault =>
      rw [hread] at h
      cases h
      exact ⟨_, _, rfl⟩

namespace Identity

theorem assign_error {whole : String} {identity : Identity} {key value : List Char}
    {failure : Failure} (h : assign whole identity key value = .error failure) :
    ∃ value reason, failure = .invalidIdentity value reason := by
  simp only [assign] at h
  split at h
  · cases hversion : Version.parse (String.ofList (Text.trim value)) with
    | ok version => simp [hversion, Except.map] at h
    | error fault =>
        simp only [hversion, Except.map, Except.error.injEq] at h
        exact h ▸ Version.parse_error hversion
  · split at h
    · cases h
    · split at h
      · split at h
        · cases h
        · split at h
          · cases h
          · exact ⟨_, _, (Except.error.inj h).symm⟩
      · exact ⟨_, _, (Except.error.inj h).symm⟩

theorem assignParts_error {whole : String} {identity : Identity} {parts : List (List Char)}
    {failure : Failure} (h : assignParts whole identity parts = .error failure) :
    ∃ value reason, failure = .invalidIdentity value reason := by
  induction parts generalizing identity with
  | nil => cases h
  | cons part rest ih =>
      cases hcut : Text.cut '=' part with
      | none =>
          simp only [assignParts, hcut, Except.error.injEq] at h
          exact ⟨_, _, h.symm⟩
      | some pair =>
          obtain ⟨key, value⟩ := pair
          cases hassign : assign whole identity key value with
          | error fault =>
              simp only [assignParts, hcut, hassign, bind, Except.bind, Except.error.injEq] at h
              exact h ▸ assign_error hassign
          | ok next =>
              simp only [assignParts, hcut, hassign, bind, Except.bind] at h
              exact ih h

theorem parse_error {s : String} {failure : Failure} (h : parse s = .error failure) :
    ∃ value reason, failure = .invalidIdentity value reason := by
  simp only [parse] at h
  split at h
  · exact assignParts_error h
  · exact ⟨_, _, (Except.error.inj h).symm⟩

end Identity

namespace Resolver

open HostM

/-- The module and the factory that a type reference leads to, as far as is kept. -/
def source? (r : Resolver) (reference : TypeReference) : Option (LoadedModule × Factory) :=
  reference.module.bind fun module =>
    (Identity.parse module).toOption.bind fun identity =>
      (r.memo.get? identity.text).join.bind fun loaded =>
        (loaded.factory? reference.typeName).map fun factory => (loaded, factory)

/-- Nothing has to be searched for in order to activate the type reference. -/
def Settled (r : Resolver) (reference : TypeReference) : Prop :=
  ∀ module identity, reference.module = some module → Identity.parse module = .ok identity →
    r.isMemoized identity = true

theorem Later.settled {r r' : Resolver} (h : r.Later r') {reference : TypeReference}
    (hsettled : r.Settled reference) : r'.Settled reference :=
  fun module identity hmodule hparse => h.isMemoized (hsettled module identity hmodule hparse)

theorem Later.source?_eq {r r' : Resolver} (h : r.Later r') {reference : TypeReference}
    (hsettled : r.Settled reference) : r'.source? reference = r.source? reference := by
  simp only [source?]
  cases hmodule : reference.module with
  | none => rfl
  | some module =>
      cases hparse : Identity.parse module with
      | error failure => simp [hparse, Except.toOption]
      | ok identity =>
          obtain ⟨outcome, houtcome⟩ := get?_of_isMemoized (hsettled module identity hmodule hparse)
          simp [hparse, Except.toOption, houtcome, h.kept _ _ houtcome]

/-- What an activation answers, given what the resolver then keeps. -/
inductive Activated (r : Resolver) (reference : TypeReference) : Except Failure Component → Prop
  | built {loaded : LoadedModule} {factory : Factory}
      (hsource : r.source? reference = some (loaded, factory)) (serial : Nat) :
      Activated r reference (.ok ((factory.construct serial).inModule loaded.identity.text))
  | failed {failure : Failure} (hsource : r.source? reference = none)
      (hother : ∀ id, failure ≠ .activation id "no type reference recorded") :
      Activated r reference (.error failure)

theorem result_instantiate (loaded : LoadedModule) (factory : Factory) (h : Host) :
    (loaded.instantiate factory).result h =
      (factory.construct h.births).inModule loaded.identity.text :=
  rfl

theorem module_ne_no (rest : String) : "module " ++ rest ≠ "no type reference recorded" := by
  intro h
  have hlist := congrArg String.toList h
  simp at hlist

theorem activate_settles (r : Resolver) (reference : TypeReference) (h : Host) :
    let answer := (r.activate reference).result h
    r.Later answer.2 ∧ answer.2.Settled reference ∧
      Activated answer.2 reference answer.1 := by
  cases hmodule : reference.module with
  | none =>
      simp only [activate, hmodule, result_pure]
      refine ⟨Later.refl r, fun _ _ h => by simp [hmodule] at h, ?_⟩
      exact .failed (by simp [source?, hmodule]) (by simp [Activation.noModule])
  | some module =>
      cases hparse : Identity.parse module with
      | error failure =>
          simp only [activate, hmodule, hparse, result_pure]
          refine ⟨Later.refl r, ?_, .failed ?_ fun id heq => ?_⟩
          · intro other identity hother hidentity
            rw [hmodule, Option.some.injEq] at hother
            subst hother
            simp [hparse] at hidentity
          · simp [source?, hmodule, hparse, Except.toOption]
          · obtain ⟨value, reason, hfailure⟩ := Identity.parse_error hparse
            cases hfailure.symm.trans heq
      | ok identity =>
          obtain ⟨hlater, hmemoized, hanswer⟩ := resolve_keeps r identity h
          have hsource : ∀ r' : Resolver, r'.source? reference =
              (r'.memo.get? identity.text).join.bind fun loaded =>
                (loaded.factory? reference.typeName).map fun factory => (loaded, factory) := by
            simp [source?, hmodule, hparse, Except.toOption]
          have hsettled : ((r.resolve identity).result h).2.Settled reference := by
            intro other requested hother hrequested
            rw [hmodule, Option.some.injEq] at hother
            subst hother
            rw [hparse, Except.ok.injEq] at hrequested
            exact hrequested ▸ hmemoized
          simp only [activate, hmodule, hparse, result_bind]
          cases hfound : ((r.resolve identity).result h).1 with
          | none =>
              rw [hfound] at hanswer
              exact ⟨hlater, hsettled, .failed (by simp [hsource, ← hanswer]) (by simp)⟩
          | some loaded =>
              rw [hfound] at hanswer
              cases hfactory : loaded.factory? reference.typeName with
              | none =>
                  simp only [hfactory, result_pure]
                  refine ⟨hlater, hsettled, .failed (by simp [hsource, ← hanswer, hfactory]) ?_⟩
                  intro id heq
                  injection heq with _ hreason
                  simp only [String.append_assoc] at hreason
                  exact module_ne_no _ hreason
              | some factory =>
                  simp only [hfactory, result_bind, result_pure, result_instantiate]
                  exact ⟨hlater, hsettled, .built (by simp [hsource, ← hanswer, hfactory]) _⟩

theorem yields_activate_searched {I : Host → Prop} (hI : Host.Lasting I) {P : Resolver → Prop}
    {r : Resolver} (hr : P r) (hresolves : ∀ identity : Identity, identity.Readable →
      Yields I (r.resolve identity) fun answer => P answer.2) (reference : TypeReference) :
    Yields I (r.activate reference) fun answer => P answer.2 := by
  unfold activate
  cases reference.module with
  | none => exact Yields.pure hr
  | some module =>
      dsimp only
      cases hparse : Identity.parse module with
      | error failure => exact Yields.pure hr
      | ok identity =>
          refine (hresolves identity ⟨module, hparse⟩).bind fun answer hanswer => ?_
          obtain ⟨found, next⟩ := answer
          cases found with
          | none => exact Yields.pure hanswer
          | some loaded =>
              dsimp only
              cases loaded.factory? reference.typeName with
              | none => exact Yields.pure hanswer
              | some factory =>
                  have hbuilt : Yields I (loaded.instantiate factory) fun _ => True :=
                    (factory.yields_create hI).bind fun _ _ => Yields.pure trivial
                  exact hbuilt.bind fun component _ => Yields.pure hanswer

end Resolver

end PluginHost
