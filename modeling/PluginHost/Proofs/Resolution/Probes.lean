import PluginHost.Proofs.Resolution.Run

/-!
What a search leaves in the trace of the host: an entry of its own with the identity, then the files
that are read, the entry points that are entered, and reports of what cannot be listed or loaded. It
builds nothing.
-/

namespace PluginHost

namespace Event

def probed? : Event → Option String
  | .probed identity => some identity
  | _ => none

/-- What is noted while the locations are searched for a module. -/
inductive OfSearch : Event → Prop
  | read (path : Path) : OfSearch (.read path)
  | entered (entryPoint : String) : OfSearch (.entered entryPoint)
  | unlisted (location : String) (fault : Storage.Fault) :
      OfSearch (.reported (Resolver.enumerationReport location fault))
  | unloaded (path : Path) (reason : String) :
      OfSearch (.reported (Failure.moduleLoad path reason).message)

/-- What is noted while an identity is resolved, with the identities that it leads to. -/
inductive OfResolution : Event → Prop
  | probed (identity : String) : OfResolution (.probed identity)
  | search {event : Event} (hevent : event.OfSearch) : OfResolution event

theorem OfSearch.probed?_eq {event : Event} (h : event.OfSearch) : event.probed? = none := by
  cases h <;> rfl

end Event

namespace Host

/-- The identities that the locations have been searched for, in turn. -/
def probes (h : Host) : List String :=
  h.trace.filterMap Event.probed?

/-- Between `h` and `h'` nothing but such events has been noted, and nothing was built. -/
structure Noted (P : Event → Prop) (h h' : Host) : Prop where
  births : h'.births = h.births
  trace : ∃ events, h'.trace = h.trace ++ events ∧ ∀ event ∈ events, P event

open HostM

variable {P : Event → Prop} {h : Host}

theorem Noted.refl (h : Host) : h.Noted P h :=
  ⟨rfl, [], by simp, by simp⟩

theorem yields_note_noted {event : Event} (hevent : P event) :
    Yields (h.Noted P) (note event) fun _ => True := by
  rintro host ⟨hbirths, events, htrace, hevents⟩
  refine ⟨trivial, hbirths, events ++ [event], ?_, ?_⟩
  · simp [note, htrace]
  · exact fun other hother => (List.mem_append.mp hother).elim (hevents other)
      fun hlast => List.mem_singleton.mp hlast ▸ hevent

theorem probes_noted {h' : Host} (hnoted : h.Noted Event.OfSearch h') : h'.probes = h.probes := by
  obtain ⟨-, events, htrace, hevents⟩ := hnoted
  have hnone : events.filterMap Event.probed? = [] :=
    List.filterMap_eq_nil_iff.mpr fun event hevent => (hevents event hevent).probed?_eq
  rw [probes, htrace, List.filterMap_append, hnone, List.append_nil]
  rfl

theorem yields_read_noted (hP : ∀ event, Event.OfSearch event → P event) (path : Path) :
    Yields (h.Noted P) (read path) fun _ => True :=
  (yields_note_noted (hP _ (.read path))).bind fun _ _ _ hnoted =>
    ⟨trivial, hnoted.births, hnoted.trace⟩

theorem yields_list_noted (folder : Path) (suffix : String) :
    Yields (h.Noted P) (list folder suffix) fun _ => True :=
  fun _ hnoted => ⟨trivial, hnoted.births, hnoted.trace⟩

end Host

open HostM Host

variable {P : Event → Prop} {h : Host}

/-! Whatever keeps a module file from being identified or loaded is a failure to load this file. -/

/-- All failures of a computation are failures to load the file. -/
def Unloaded {α : Type} (path : Path) (answer : Except Failure α) : Prop :=
  ∀ failure, answer = .error failure → ∃ reason, failure = .moduleLoad path reason

theorem Unloaded.bind {α β : Type} {path : Path} {answer : Except Failure α}
    {next : α → Except Failure β} (hanswer : Unloaded path answer)
    (hnext : ∀ a, Unloaded path (next a)) : Unloaded path (answer.bind next) := by
  cases answer with
  | error failure =>
      exact fun other hother => hanswer other (congrArg Except.error (Except.error.inj hother))
  | ok a => exact hnext a

namespace Manifest

theorem unloaded_ofContents (path : Path) (contents : Except Storage.Fault String) :
    Unloaded path (ofContents path contents) := by
  intro failure hfailure
  cases contents with
  | error fault => exact ⟨fault.message, (Except.error.inj hfailure).symm⟩
  | ok text =>
      obtain ⟨error, -, heq⟩ := mapError_eq_error.mp hfailure
      exact ⟨error.message, heq.symm⟩

theorem unloaded_mapError {α : Type} (path : Path) (answer : Except Failure α) :
    Unloaded path (answer.mapError fun failure => .moduleLoad path failure.message) := by
  intro failure hfailure
  obtain ⟨cause, -, heq⟩ := mapError_eq_error.mp hfailure
  exact ⟨cause.message, heq.symm⟩

end Manifest

namespace Catalog

variable (hP : ∀ event, Event.OfSearch event → P event)
include hP

theorem yields_identify_noted (path : Path) :
    Yields (h.Noted P) (identify path) fun identified => Unloaded path identified := by
  refine (yields_read_noted hP path).bind fun contents _ => Yields.pure ?_
  exact (Manifest.unloaded_ofContents path contents).bind
    fun m => Manifest.unloaded_mapError path m.identity

theorem yields_enter_noted (catalog : Catalog) (entryPoint : String) :
    Yields (h.Noted P) (catalog.enter entryPoint) fun _ => True := by
  rw [enter]
  cases catalog.get? entryPoint with
  | none => exact Yields.pure trivial
  | some factories =>
      exact (yields_note_noted (hP _ (.entered entryPoint))).bind fun _ _ => Yields.pure trivial

theorem yields_load_noted (catalog : Catalog) (path : Path) :
    Yields (h.Noted P) (catalog.load path) fun loaded => Unloaded path loaded := by
  refine (yields_read_noted hP path).bind fun contents _ => ?_
  cases hm : Manifest.ofContents path contents with
  | error failure =>
      refine Yields.pure fun other hother => Manifest.unloaded_ofContents path contents other ?_
      rw [hm, ← Except.error.inj hother]
  | ok m =>
      dsimp only
      cases hidentity : m.identityAt path with
      | error failure =>
          refine Yields.pure fun other hother => Manifest.unloaded_mapError path m.identity other ?_
          exact hidentity.trans (congrArg Except.error (Except.error.inj hother))
      | ok identity =>
          cases hreferences : m.referencesAt path with
          | error failure =>
              refine Yields.pure fun other hother =>
                Manifest.unloaded_mapError path m.referenceIdentities other ?_
              exact hreferences.trans (congrArg Except.error (Except.error.inj hother))
          | ok references =>
              refine (yields_enter_noted hP catalog m.entryPoint).bind fun factories _ => ?_
              cases factories with
              | none => exact Yields.pure fun _ hother => ⟨_, (Except.error.inj hother).symm⟩
              | some factories => exact Yields.pure fun _ hother => by cases hother

end Catalog

namespace Resolver

section

variable (hP : ∀ event, Event.OfSearch event → P event)
include hP

theorem yields_report_unloaded {α : Type} {path : Path} {answer : Except Failure α}
    (hunloaded : Unloaded path answer) {failure : Failure} (hfailure : answer = .error failure) :
    Yields (h.Noted P) (report failure.message) fun _ => True := by
  obtain ⟨reason, rfl⟩ := hunloaded failure hfailure
  exact yields_note_noted (hP _ (.unloaded path reason))

theorem yields_identifyAll_noted (paths : List Path) :
    Yields (h.Noted P) (identifyAll paths) fun _ => True := by
  induction paths with
  | nil => exact Yields.pure trivial
  | cons path rest ih =>
      refine (Catalog.yields_identify_noted hP path).bind fun identified hidentified => ?_
      cases identified with
      | error failure => exact (yields_report_unloaded hP hidentified rfl).bind fun _ _ => ih
      | ok identity => exact ih.bind fun _ _ => Yields.pure trivial

theorem yields_loadFirst_noted (catalog : Catalog) (paths : List Path) :
    Yields (h.Noted P) (loadFirst catalog paths) fun _ => True := by
  induction paths with
  | nil => exact Yields.pure trivial
  | cons path rest ih =>
      refine (Catalog.yields_load_noted hP catalog path).bind fun loaded hloaded => ?_
      cases loaded with
      | error failure => exact (yields_report_unloaded hP hloaded rfl).bind fun _ _ => ih
      | ok module => exact Yields.pure trivial

theorem yields_probeLocation_noted (r : Resolver) (requested : Identity) (location : String) :
    Yields (h.Noted P) (r.probeLocation requested location) fun _ => True := by
  refine Yields.get.bind fun host _ => ?_
  cases host.mount? location with
  | none => exact Yields.pure trivial
  | some mount =>
      refine (yields_list_noted mount.root r.suffix).bind fun listed _ => ?_
      cases listed with
      | error fault =>
          exact (yields_note_noted (hP _ (.unlisted location fault))).bind
            fun _ _ => Yields.pure trivial
      | ok files =>
          refine Yields.get.bind fun now _ => ?_
          exact (yields_identifyAll_noted hP _).bind fun _ _ => yields_loadFirst_noted hP r.catalog _

theorem yields_probeLocations_noted (r : Resolver) (requested : Identity)
    (locations : List String) :
    Yields (h.Noted P) (r.probeLocations requested locations) fun _ => True := by
  induction locations with
  | nil => exact Yields.pure trivial
  | cons location rest ih =>
      refine (yields_probeLocation_noted hP r requested location).bind fun found _ => ?_
      cases found with
      | none => exact ih
      | some module => exact Yields.pure trivial

end

theorem probes_probe (r : Resolver) (requested : Identity) (h : Host) :
    ((r.probe requested).after h).probes = h.probes ++ [requested.text] := by
  have hsearch := (yields_probeLocations_noted (fun _ => id) r requested r.locations
    ((note (.probed requested.text)).after h) (.refl _)).2
  rw [probe, after_bind, probes_noted hsearch]
  simp [note, probes, Event.probed?]

/-- A resolution searches for what it has not kept, and does nothing else. -/
theorem noted_resolve (r : Resolver) (requested : Identity) (h : Host) :
    h.Noted Event.OfResolution ((r.resolve requested).after h) := by
  have hprobe : ∀ (r : Resolver) requested,
      Yields (h.Noted Event.OfResolution) (r.probe requested) fun _ => True := by
    intro r requested
    refine (yields_note_noted (Event.OfResolution.probed requested.text)).bind fun _ _ => ?_
    exact yields_probeLocations_noted (fun _ => .search) r requested r.locations
  have hstep : ∀ (r : Resolver) requested, True → True → r.isMemoized requested = false →
      Yields (h.Noted Event.OfResolution) (r.probe requested) fun outcome =>
        True ∧ ∀ reference ∈ referencesOf outcome, True :=
    fun r requested _ _ _ => (hprobe r requested).mono fun _ _ => ⟨trivial, fun _ _ => trivial⟩
  exact (yields_resolve (P := fun _ => True) (R := fun _ => True) hstep trivial trivial h
    (.refl h)).2

end Resolver

end PluginHost
