import PluginHost.Proofs.Registry.Holdings
import PluginHost.Proofs.Registry.LookingUp
import PluginHost.Proofs.Settings.Retrying

/-!
A saved index adds to what is built in, and takes nothing of it away. What it says beyond that is
taken over as far as it can be read, and what cannot is reported once each.
-/

namespace PluginHost

open HostM

namespace Registry

/-! Reports. -/

theorem ignoredReport_injective {a b : Uuid} {failure other : Failure}
    (h : ignoredReport a failure = ignoredReport b other) : a = b := by
  unfold ignoredReport at h
  have hlist := congrArg String.toList h
  simp only [String.toList_append, List.append_assoc] at hlist
  have hrest := List.append_cancel_left hlist
  have hlength : a.text.toList.length = b.text.toList.length := by
    rw [Uuid.length_text, Uuid.length_text]
  exact Uuid.text_injective (String.toList_inj.mp (List.append_inj_left hrest hlength))

theorem mem_ignored {entries : List (Uuid × String)} {message : String} :
    message ∈ ignored entries ↔ ∃ id text failure, (id, text) ∈ entries ∧
      TypeReference.parse text = .error failure ∧ message = ignoredReport id failure := by
  rw [ignored, List.mem_filterMap]
  constructor
  · rintro ⟨⟨id, text⟩, hentry, hreported⟩
    cases hparse : TypeReference.parse text with
    | ok reference => simp [hparse] at hreported
    | error failure =>
        simp only [hparse, Option.some.injEq] at hreported
        exact ⟨id, text, failure, hentry, hparse, hreported.symm⟩
  · rintro ⟨id, text, failure, hentry, hparse, rfl⟩
    exact ⟨(id, text), hentry, by simp [hparse]⟩

theorem nodup_ignored (references : SortedMap Uuid String) : (ignored references.entries).Nodup := by
  -- The identifiers ascend, and a report tells its identifier.
  refine List.Pairwise.filterMap _ ?_ references.ascending
  intro first second hlt message hmessage other hother heq
  subst heq
  cases hfirst : TypeReference.parse first.2 with
  | ok reference => simp [hfirst] at hmessage
  | error failure =>
      cases hsecond : TypeReference.parse second.2 with
      | ok reference => simp [hsecond] at hother
      | error failure' =>
          simp only [hfirst, hsecond, Option.some.injEq] at hmessage hother
          have hsame := ignoredReport_injective (hmessage.trans hother.symm)
          simp [hsame] at hlt

/-! A new registry. -/

theorem seeded_of_load {builtIn : List (Capability × Component)} {resolver : Resolver}
    {store : SettingsStore} {h : Host} {r : Registry} {saved : Option ComponentIndex}
    (hadded : (new resolver store).addAll builtIn = (.ok (), r))
    (hload : store.load.result h = .ok saved) :
    ∃ r', (seeded builtIn resolver store).result h = .ok r' ∧
      Extends builtIn (saved.getD .empty) resolver r' ∧
      ((seeded builtIn resolver store).after h).reports =
        h.reports ++ ignored (saved.getD .empty).typeReferences.entries := by
  have hreports := store.reports_load h
  rw [seeded, hadded]
  dsimp only
  rw [result_bind, after_bind, hload]
  cases saved with
  | none =>
      refine ⟨r, rfl, extends_adopt hadded .empty h, ?_⟩
      exact hreports.trans (List.append_nil _).symm
  | some index =>
      refine ⟨_, rfl, extends_adopt hadded index _, ?_⟩
      change (((r.informed index).adoptReferences index.typeReferences.entries).after
        (store.load.after h)).reports = _
      rw [after_adoptReferences, ← hreports]
      simp [Host.reports, Event.reported?, Function.comp_def]

theorem seeded_of_unloaded {builtIn : List (Capability × Component)} {resolver : Resolver}
    {store : SettingsStore} {h : Host} {r : Registry} {failure : Failure}
    (hadded : (new resolver store).addAll builtIn = (.ok (), r))
    (hload : store.load.result h = .error failure) :
    (seeded builtIn resolver store).result h = .error failure := by
  rw [seeded, hadded]
  dsimp only
  rw [result_bind, hload]
  rfl

/-- What a new registry makes of built-in components that may stand where they do, and of the saved
index, which is empty if there is no file. A component that is built in is there without being built,
and its type reference counts, whatever the index says; for other identifiers the index is asked,
and of its type references those that cannot be read are reported, once each. All identifiers and
locations are known, in order. A file that cannot be read or understood stops it all. -/
theorem seeded_extends (builtIn : List (Capability × Component)) (resolver : Resolver)
    (store : SettingsStore) (h : Host)
    (himplements : ∀ pair ∈ builtIn, pair.2.implements pair.1 = true) :
    let made := seeded builtIn resolver store
    let reading := SettingsStore.readUntil store.path SettingsStore.notRead store.attempts
    (∀ saved, store.load.result h = .ok saved →
      let index := saved.getD .empty
      ∃ r, made.result h = .ok r ∧
        (∀ pair ∈ builtIn, ∃ component,
          lastUnder pair.1 pair.2.id builtIn = some component ∧
            r.lookUp pair.1 pair.2.id = pure (some component, r)) ∧
        (∀ pair ∈ builtIn, ∃ component, lastWith pair.2.id builtIn = some component ∧
          r.typeReference pair.2.id = some component.typeReference) ∧
        (∀ id, (∀ pair ∈ builtIn, pair.2.id ≠ id) → r.typeReference id = index.reference? id) ∧
        (∃ reports, (made.after h).reports = h.reports ++ reports ∧ reports.Nodup ∧
          ∀ message, message ∈ reports ↔ ∃ id text failure,
            index.typeReferences.get? id = some text ∧
              TypeReference.parse text = .error failure ∧ message = ignoredReport id failure) ∧
        (∀ capability, (r.knownIds capability).Pairwise (fun a b => compare a b = .lt) ∧
          ∀ id, id ∈ r.knownIds capability ↔
            id ∈ idsUnder capability builtIn ∨ index.Lists capability id) ∧
        r.resolver =
          (SortedSet.toList index.locations).foldl Resolver.addLocation resolver ∧
        (resolver.locations = [] → r.resolver.locations = SortedSet.toList index.locations) ∧
        (SortedSet.toList index.locations).Pairwise
          fun a b => Text.Hex.octetsOf a.toList < Text.Hex.octetsOf b.toList) ∧
    (h.tree.isThere store.path = true →
      (∀ fault, reading.result h = .error fault →
        made.result h = .error (.settingsRead store.path store.attempts fault)) ∧
      ∀ text error, reading.result h = .ok text →
        Json.decodeText ComponentIndex.decode text = .error error →
          made.result h = .error (.settingsParse store.path error.message)) := by
  obtain ⟨first, hadded⟩ := exists_addAll himplements (new resolver store)
  intro made reading
  refine ⟨fun saved hload => ?_, fun hthere => ⟨fun fault hread => ?_, ?_⟩⟩
  · obtain ⟨r, hseeded, hextends, hreports⟩ := seeded_of_load hadded hload
    refine ⟨r, hseeded, fun pair hpair => ?_, fun pair hpair => ?_, fun id hapart => ?_,
      ⟨_, hreports, nodup_ignored _, fun message => ?_⟩,
      fun capability => ⟨r.pairwise_knownIds capability, hextends.known capability⟩,
      hextends.resolver, hextends.locations,
      (SortedSet.pairwise_toList _).imp Text.octetsOf_lt_of_compare⟩
    · have hids : pair.2.id ∈ idsUnder pair.1 builtIn := mem_idsUnder.mpr ⟨pair, hpair, rfl, rfl⟩
      obtain ⟨component, hlast⟩ := exists_lastUnder hids
      refine ⟨component, hlast, lookUp_of_present ?_ ((hextends.known _ _).mpr (.inl hids))⟩
      rw [hextends.present, hlast]
    · obtain ⟨component, hlast⟩ := exists_lastWith hpair
      refine ⟨component, hlast, ?_⟩
      rw [hextends.reference, hlast]
      rfl
    · rw [hextends.reference, lastWith_eq_none hapart]
      rfl
    · simp only [mem_ignored, SortedMap.get?_eq_some_iff]
  · exact seeded_of_unloaded hadded (SettingsStore.load_of_unreadable hthere hread)
  · intro text error hread hdecode
    refine seeded_of_unloaded hadded ((SettingsStore.load_of_text hthere hread).trans ?_)
    rw [SettingsStore.interpret, hdecode]
    rfl

/-- The first component is called a knife, and what is said of the third nobody can read. -/
def knives : ComponentIndex where
  version := 0
  writtenAt := none
  typeReferences :=
    .ofList [(.ofNat 1, "Knife, Kitchen"), (.ofNat 2, "Pen, Ink"), (.ofNat 3, ", Ink")]
  locations := .ofList ["/tray", "/pack"]
  capabilities := .ofList [("cut", .ofList [.ofNat 1])]

def kitchen : Host where
  disk.tree.limits := .usual
  disk.tree.entries := ⟨⟨[
    (["kitchen"], .folder), (["kitchen", "components.json"], .file (.text knives.text))]⟩, .empty⟩
  disk.tree.here := []
  disk.prospect := .clear
  aliases := []
  trace := []
  births := 0
  now := ⟨2024, 1, 1, 0, 0, 0, 0⟩

/-- The pencil that is built in is no knife, though it is now known to cut. -/
theorem seeded_extends_kitchen :
    let pencil :=
      (Blueprint.mk "Pencil" (.ofNat 1) ["draw"] none none [] "").factory.construct 0
    ∃ r, (seeded pencil.registrations (.new ".module" .strict .empty)
        (.new ⟨"/kitchen/components.json"⟩)).result kitchen = .ok r ∧
      r.lookUp "draw" (.ofNat 1) = pure (some pencil, r) ∧
      r.typeReference (.ofNat 1) = some pencil.typeReference ∧
      r.typeReference (.ofNat 2) = some ⟨"Pen", some "Ink"⟩ ∧
      r.typeReference (.ofNat 3) = none ∧
      .ofNat 1 ∈ r.knownIds "draw" ∧ .ofNat 1 ∈ r.knownIds "cut" ∧
      r.resolver.locations = ["/pack", "/tray"] := by
  intro pencil
  have hload : (SettingsStore.new ⟨"/kitchen/components.json"⟩).load.result kitchen =
      .ok (some knives) := by
    have hread : kitchen.tree.read ⟨"/kitchen/components.json"⟩ = .ok knives.text := rfl
    refine SettingsStore.load_of_read ⟨0, by decide, rfl⟩ hread ?_
    rw [SettingsStore.interpret, ComponentIndex.decodeText_text (by decide) (by simp [knives])]
    rfl
  obtain ⟨r, hseeded, hpresent, hreference, hsaved, -, hknown, -, hlocations, -⟩ :=
    (seeded_extends pencil.registrations (.new ".module" .strict .empty)
      (.new ⟨"/kitchen/components.json"⟩) kitchen (by decide +kernel)).1 _ hload
  have hpencil : ("draw", pencil) ∈ pencil.registrations := List.mem_singleton.mpr rfl
  have hapart : ∀ id ∈ [Uuid.ofNat 2, .ofNat 3], ∀ pair ∈ pencil.registrations,
      pair.2.id ≠ id := by
    decide +kernel
  have hlastUnder : lastUnder "draw" (.ofNat 1) pencil.registrations = some pencil := rfl
  have hlastWith : lastWith (.ofNat 1) pencil.registrations = some pencil := rfl
  have hcut : knives.Lists "cut" (.ofNat 1) := ⟨.ofList [.ofNat 1], by decide +kernel⟩
  refine ⟨r, hseeded, ?_, ?_, (hsaved _ (hapart _ (by decide))).trans (by decide +kernel),
    (hsaved _ (hapart _ (by decide))).trans (by decide +kernel),
    ((hknown "draw").2 _).mpr (.inl (by decide +kernel)), ((hknown "cut").2 _).mpr (.inr hcut),
    (hlocations rfl).trans (by decide +kernel)⟩
  · obtain ⟨component, hlast, hfound⟩ := hpresent _ hpencil
    cases hlast.symm.trans hlastUnder
    exact hfound
  · obtain ⟨component, hlast, hfound⟩ := hreference _ hpencil
    cases hlast.symm.trans hlastWith
    exact hfound

end Registry

end PluginHost
