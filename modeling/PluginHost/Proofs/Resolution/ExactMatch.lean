import PluginHost.Proofs.Resolution.Policies
import PluginHost.Proofs.Resolution.Visits

/-!
A file of exactly the version that is asked for. What is selected after it agrees with the request on
the major and the minor field, whatever has been selected before; and the candidates are tried from
the last one on, so if that file loads none of another major or minor version is even tried.
-/

namespace PluginHost

/-- `found` differs from `wanted` in its build or revision at most, and is not lower. -/
structure Version.Refines (found wanted : Version) : Prop where
  major : found.major = wanted.major
  minor : found.minor = wanted.minor
  le : wanted.fields ≤ found.fields

theorem Version.same_leading_of_firstDifference {a b : Version}
    (h : ∀ place ∈ a.firstDifference b, 2 ≤ place) : b.major = a.major ∧ b.minor = a.minor := by
  simp only [firstDifference, fields, List.zip_cons_cons, List.findIdx?_cons] at h
  by_cases hmajor : a.major = b.major
  · by_cases hminor : a.minor = b.minor
    · exact ⟨hmajor.symm, hminor.symm⟩
    · exact absurd (h 1 (by simp [hmajor, hminor])) (by decide)
  · exact absurd (h 0 (by simp [hmajor])) (by decide)

/-! What is selected after an exact match. -/

namespace Selection

variable {policy : CulturePolicy} {requested : Identity} {pins after : Pins} {candidate : Candidate}
  {candidates : List Candidate}

/-- Whoever is accepted agrees with the request as far as has been pinned. -/
theorem depth_le_difference (hmem : candidate ∈ acceptedFrom policy requested pins candidates) :
    ∀ place ∈ difference requested candidate.identity, pins.depth ≤ place := by
  induction candidates generalizing pins with
  | nil => cases hmem
  | cons first rest ih =>
      rw [acceptedFrom] at hmem
      cases hjudge : judge policy requested first.identity pins with
      | none =>
          rw [hjudge] at hmem
          exact ih hmem
      | some next =>
          rw [hjudge] at hmem
          rcases List.mem_cons.mp hmem with rfl | hmem
          · rw [judge_eq] at hjudge
            split at hjudge
            · rename_i hkept
              exact hkept.2.2
            · cases hjudge
          · intro place hplace
            exact Nat.le_trans (depth_le_of_judge hjudge) (ih hmem place hplace)

theorem fits_of_mem_accepted (hmem : candidate ∈ acceptedFrom policy requested pins candidates) :
    Fits policy requested candidate.identity := by
  induction candidates generalizing pins with
  | nil => cases hmem
  | cons first rest ih =>
      rw [acceptedFrom] at hmem
      cases hjudge : judge policy requested first.identity pins with
      | none =>
          rw [hjudge] at hmem
          exact ih hmem
      | some next =>
          rw [hjudge] at hmem
          rcases List.mem_cons.mp hmem with rfl | hmem
          · exact fits_of_judge hjudge
          · exact ih hmem

theorem acceptedFrom_append (policy : CulturePolicy) (requested : Identity) (pins : Pins)
    (front back : List Candidate) :
    ∃ later, acceptedFrom policy requested pins (front ++ back) =
      acceptedFrom policy requested pins front ++ acceptedFrom policy requested later back := by
  induction front generalizing pins with
  | nil => exact ⟨pins, rfl⟩
  | cons candidate rest ih =>
      rw [List.cons_append, acceptedFrom, acceptedFrom]
      cases judge policy requested candidate.identity pins with
      | none => exact ih pins
      | some next =>
          obtain ⟨later, hlater⟩ := ih next
          exact ⟨later, congrArg _ hlater⟩

/-- An exact match is accepted after any pins, and pins major and minor. -/
theorem judge_exact (pins : Pins) (hfits : Fits .strict requested candidate.identity) {wanted : Version}
    (hwanted : requested.version = some wanted)
    (hversion : candidate.identity.version.getD .zero = wanted) :
    ∃ after, judge .strict requested candidate.identity pins = some after ∧
      exactDepth ≤ after.depth := by
  have hnone : difference requested candidate.identity = none := by
    simp [difference, hwanted, hversion]
  rw [judge_strict, if_pos ⟨hfits, by simp [hnone]⟩]
  refine ⟨_, rfl, ?_⟩
  simp only [hwanted, pin, hnone, Option.getD_none, reduceCtorEq, if_false]
  exact Nat.le_max_right _ _

/-- All that is selected after an exact match refines the version that is asked for. -/
theorem accepted_exact (exact : Candidate) (hmem : exact ∈ candidates)
    (hfits : Fits .strict requested exact.identity) {wanted : Version}
    (hwanted : requested.version = some wanted)
    (hversion : exact.identity.version.getD .zero = wanted) :
    ∃ before after, accepted .strict requested candidates = before ++ exact :: after ∧
      ∀ candidate ∈ after, (candidate.identity.version.getD .zero).Refines wanted := by
  obtain ⟨front, back, rfl⟩ := List.append_of_mem hmem
  obtain ⟨pins, hsplit⟩ := acceptedFrom_append .strict requested .none front (exact :: back)
  obtain ⟨next, hnext, hdeep⟩ := judge_exact pins hfits hwanted hversion
  refine ⟨acceptedFrom .strict requested .none front, acceptedFrom .strict requested next back, ?_,
    fun candidate hcandidate => ?_⟩
  · rw [accepted, hsplit, acceptedFrom, hnext]
  · have hle := (fits_of_mem_accepted hcandidate).version wanted hwanted
    have hplaces : ∀ place ∈ wanted.firstDifference (candidate.identity.version.getD .zero),
        2 ≤ place := by
      intro place hplace
      refine Nat.le_trans hdeep (depth_le_difference hcandidate place ?_)
      rwa [difference, hwanted, Option.bind_some]
    obtain ⟨hmajor, hminor⟩ := Version.same_leading_of_firstDifference hplaces
    exact ⟨hmajor, hminor, hle⟩

end Selection

namespace Resolver

open Host HostM Selection

/-! What the answers of a visit tell of the files. -/

variable {r : Resolver} {requested : Identity} {h : Host} {k : Nat} {path : Path}

theorem ok_of_readingAt {text : String} (hread : h.readingAt k path = .ok text) :
    h.tree.read path = .ok text := by
  unfold Host.readingAt at hread
  split at hread
  · cases hread
  · exact hread

theorem exists_of_mem_answers {β : Type} {ask : Path → Except Storage.Fault String → β}
    {paths : List Path} {answer : β} (hmem : (path, answer) ∈ h.answers k ask paths) :
    path ∈ paths ∧ ∃ place, answer = ask path (h.readingAt place path) := by
  obtain ⟨⟨other, place⟩, hentry, heq⟩ := List.mem_map.mp hmem
  obtain ⟨rfl, rfl⟩ := Prod.mk.inj heq
  exact ⟨List.fst_mem_of_mem_zipIdx hentry, place, rfl⟩

theorem identityIn_of_answer {paths : List Path} {identity : Identity}
    (hmem : (path, .ok identity) ∈ h.answers k Catalog.identityFrom paths) :
    Catalog.identityIn h.tree path = .ok identity := by
  obtain ⟨-, place, hanswer⟩ := exists_of_mem_answers hmem
  unfold Catalog.identityFrom at hanswer
  cases hm : Manifest.ofContents path (h.readingAt place path) with
  | error failure => simp [hm, Except.bind] at hanswer
  | ok m =>
      rw [Catalog.identityIn, Catalog.ofContents_of_read (fun _ => ok_of_readingAt) hm, hanswer, hm]

theorem moduleIn_of_answer {catalog : Catalog} {paths : List Path} {module : LoadedModule}
    (hmem : (path, .ok module) ∈ h.answers k catalog.moduleFrom paths) :
    catalog.moduleIn h.tree path = .ok module := by
  obtain ⟨-, place, hanswer⟩ := exists_of_mem_answers hmem
  unfold Catalog.moduleFrom at hanswer
  obtain ⟨m, hm, hrest⟩ := bind_eq_ok.mp hanswer.symm
  unfold Catalog.moduleIn
  rw [Catalog.ofContents_of_read (fun _ => ok_of_readingAt) hm]
  exact hrest

theorem mem_candidatesOf {identified : List (Path × Except Failure Identity)}
    {candidate : Candidate} : candidate ∈ candidatesOf identified ↔
      (candidate.path, .ok candidate.identity) ∈ identified := by
  constructor
  · intro hmem
    obtain ⟨⟨path, answer⟩, hanswer, heq⟩ := List.mem_filterMap.mp hmem
    obtain ⟨identity, hidentity, rfl⟩ := Option.map_eq_some_iff.mp heq
    rwa [← toOption_eq_some.mp hidentity]
  · intro hmem
    exact List.mem_filterMap.mpr ⟨_, hmem, rfl⟩

/-- Each visit is made to some location while the files are as they were. -/
theorem exists_of_mem_visits {locations : List String} {visit : Visit}
    (hmem : visit ∈ r.visits requested h locations) :
    ∃ host location, host.tree = h.tree ∧ visit = r.visit requested host location := by
  induction locations generalizing h with
  | nil => cases hmem
  | cons location rest ih =>
      rcases List.mem_cons.mp hmem with rfl | hmem
      · exact ⟨h, location, rfl, rfl⟩
      · obtain ⟨host, other, htree, hvisit⟩ := ih hmem
        exact ⟨host, other, htree, hvisit⟩

theorem visit_eq_searched {location : String}
    {identified : List (Path × Except Failure Identity)}
    {loads : List (Path × Except Failure LoadedModule)}
    (hvisit : r.visit requested h location = .searched identified loads) :
    ∃ files, identified = h.answers 0 Catalog.identityFrom files ∧
      loads = h.answers files.length r.catalog.moduleFrom
        (select r.policy requested (candidatesOf identified)).reverse := by
  unfold visit at hvisit
  split at hvisit
  · cases hvisit
  · split at hvisit
    · cases hvisit
    · cases hvisit
      exact ⟨_, rfl, rfl⟩

theorem answers_append {β : Type} (ask : Path → Except Storage.Fault String → β)
    (first rest : List Path) :
    h.answers k ask (first ++ rest) =
      h.answers k ask first ++ h.answers (k + first.length) ask rest := by
  simp only [Host.answers, List.zipIdx_append, List.map_append]

theorem findSome?_found (visits : List Visit) :
    visits.findSome? Visit.found = (visits.find? Visit.isFinding).bind Visit.found := by
  induction visits with
  | nil => rfl
  | cons visit rest ih =>
      rw [List.findSome?_cons, List.find?_cons, Visit.isFinding]
      cases hfound : visit.found with
      | none => exact ih
      | some module => simp [hfound]

/-- Whoever has answered with a module has been identified as this module. -/
theorem identity_of_answers {catalog : Catalog} {files paths : List Path} {start : Nat}
    {candidate : Candidate} {module : LoadedModule}
    (hcandidate : candidate ∈ candidatesOf (h.answers start Catalog.identityFrom files))
    (hmodule : (candidate.path, .ok module) ∈ h.answers k catalog.moduleFrom paths) :
    module.identity = candidate.identity := by
  have hloaded := Catalog.identityIn_of_moduleIn (moduleIn_of_answer hmodule)
  have hidentified := identityIn_of_answer (mem_candidatesOf.mp hcandidate)
  exact Except.ok.inj (hloaded.symm.trans hidentified)

/-- If one of the first files loads, the module that is found is loaded from one of these. -/
theorem exists_found {first : List (Path × Except Failure LoadedModule)} {module : LoadedModule}
    (hmem : (path, .ok module) ∈ first) (rest : List (Path × Except Failure LoadedModule)) :
    ∃ found other, (first ++ rest).findSome? (·.2.toOption) = some found ∧
      (other, .ok found) ∈ first := by
  have hsome : (first.findSome? (·.2.toOption)).isSome = true :=
    List.findSome?_isSome_iff.mpr ⟨_, hmem, rfl⟩
  obtain ⟨found, hfound⟩ := Option.isSome_iff_exists.mp hsome
  obtain ⟨⟨other, answer⟩, hanswer, hok⟩ := List.exists_of_findSome?_eq_some hfound
  refine ⟨found, other, ?_, ?_⟩
  · rw [List.findSome?_append, hfound]
    rfl
  · rwa [← toOption_eq_some.mp hok]

/-- Suppose that the first location in which anything is found has a file of the name, the culture
and exactly the version that are asked for, with an accepted key, and that this file loads. Then the
module that is found has this version or differs from it in its build or revision only, in which it
is not lower; other files may come before or after it and fail to load as they like. -/
theorem resolve_exact (r : Resolver) (hstrict : r.policy = .strict) (requested : Identity)
    (hnew : r.isMemoized requested = false) (wanted : Version)
    (hwanted : requested.version = some wanted) (h : Host)
    (identified : List (Path × Except Failure Identity))
    (loads : List (Path × Except Failure LoadedModule))
    (hfirst : (r.visits requested h r.locations).find? Visit.isFinding =
      some (.searched identified loads))
    (path : Path) (exact : Identity) (hexact : (path, .ok exact) ∈ identified)
    (hname : requested.SameName exact)
    (hkey : ∀ key, requested.publicKey = some key → exact.publicKey = some key)
    (hculture : requested.SameCulture exact) (hversion : exact.version.getD .zero = wanted)
    (hloads : ∀ answer, (path, answer) ∈ loads → ∃ module, answer = .ok module) :
    ∃ module, ((r.resolve requested).result h).1 = some module ∧
      (module.identity.version.getD .zero).Refines wanted := by
  have hfits : Fits .strict requested exact := by
    refine ⟨hname, hkey, fun _ => hculture, fun other hother => ?_⟩
    obtain rfl : wanted = other := Option.some.inj (hwanted.symm.trans hother)
    rw [hversion]
    exact List.le_refl _
  obtain ⟨host, location, htree, hvisit⟩ := exists_of_mem_visits (List.mem_of_find?_eq_some hfirst)
  obtain ⟨files, hidentified, hloaded⟩ := visit_eq_searched hvisit.symm
  obtain ⟨before, after, haccepted, hafter⟩ :=
    accepted_exact ⟨path, exact⟩ (mem_candidatesOf.mpr hexact) hfits hwanted hversion
  have hstack : (select r.policy requested (candidatesOf identified)).reverse =
      ((after.map Candidate.path).reverse ++ [path]) ++ (before.map Candidate.path).reverse := by
    rw [hstrict, select, selectFrom_eq_map, ← accepted, haccepted]
    simp
  rw [hstack, answers_append] at hloaded
  -- The exact match is among the first that are tried, and it loads.
  obtain ⟨module, hmodule⟩ : ∃ module, (path, .ok module) ∈ host.answers files.length
      r.catalog.moduleFrom ((after.map Candidate.path).reverse ++ [path]) := by
    have hlast : (path, r.catalog.moduleFrom path
        (host.readingAt (files.length + (after.map Candidate.path).reverse.length) path)) ∈
          host.answers files.length r.catalog.moduleFrom
            ((after.map Candidate.path).reverse ++ [path]) := by
      rw [answers_append]
      exact List.mem_append_right _ List.mem_cons_self
    obtain ⟨module, hok⟩ := hloads _ (hloaded ▸ List.mem_append_left _ hlast)
    exact ⟨module, hok ▸ hlast⟩
  obtain ⟨found, other, hfound, hother⟩ :=
    exists_found hmodule (host.answers _ r.catalog.moduleFrom (before.map Candidate.path).reverse)
  refine ⟨found, ?_, ?_⟩
  · rw [(resolve_visits r requested hnew h).1, findSome?_found, hfirst]
    simpa [Visit.found, hloaded] using hfound
  · rw [hidentified] at haccepted hexact
    have hcandidates : ∀ candidate ∈ (⟨path, exact⟩ : Candidate) :: after, candidate ∈
        candidatesOf (host.answers 0 Catalog.identityFrom files) := by
      intro candidate hcandidate
      refine (acceptedFrom_sublist _).subset (?_ : candidate ∈ accepted .strict requested _)
      rw [haccepted]
      exact List.mem_append_right _ hcandidate
    have hpath := (exists_of_mem_answers hother).1
    rw [List.mem_append, List.mem_reverse, List.mem_singleton] at hpath
    rcases hpath with hpath | rfl
    · obtain ⟨candidate, hcandidate, rfl⟩ := List.mem_map.mp hpath
      rw [identity_of_answers (hcandidates _ (List.mem_cons_of_mem _ hcandidate)) hother]
      exact hafter candidate hcandidate
    · rw [identity_of_answers (hcandidates _ List.mem_cons_self) hother, hversion]
      exact ⟨rfl, rfl, List.le_refl _⟩

/-- A file of exactly the version 2.1 between others: a higher one before it, and after it one that
fits but has no entry point in the catalog and one of another minor version. -/
def amid : Host where
  disk.tree.limits := .usual
  disk.tree.entries := ⟨⟨[
    (["shut"], .folder),
    (["pack"], .folder),
    (["pack", "a"], .folder),
    (["pack", "a", "Ink.module"], .file (.text
      "\x7b\"name\": \"Ink\", \"version\": \"3.0\", \"entry_point\": \"ink\"\x7d")),
    (["pack", "b"], .folder),
    (["pack", "b", "ink.MODULE"], .file (.text
      "\x7b\"name\": \"Ink\", \"version\": \"2.1\", \"entry_point\": \"ink\"\x7d")),
    (["pack", "c"], .folder),
    (["pack", "c", "Ink.module"], .file (.text
      "\x7b\"name\": \"Ink\", \"version\": \"2.1.5\", \"entry_point\": \"dry\"\x7d")),
    (["pack", "d"], .folder),
    (["pack", "d", "Ink.module"], .file (.text
      "\x7b\"name\": \"Ink\", \"version\": \"2.2\", \"entry_point\": \"ink\"\x7d"))]⟩, .empty⟩
  disk.tree.here := []
  disk.prospect := .clear
  aliases := []
  trace := []
  births := 0
  now := ⟨2024, 1, 1, 0, 0, 0, 0⟩

/-- Neither the higher version, which is listed first, nor any that is listed later is found. -/
theorem resolve_exact_amid :
    let requested : Identity := ⟨"Ink", some ⟨2, 1, 0, 0⟩, none, none⟩
    let r : Resolver := { new ".module" .strict ⟨[("ink", [])]⟩ with
      locations := ["/shut", "/pack"] }
    let exact : Identity := ⟨"Ink", some ⟨2, 1, 0, 0⟩, none, none⟩
    ∃ identified loads,
      (r.visits requested amid r.locations).find? Visit.isFinding =
        some (.searched identified loads) ∧
      identified.map (fun entry => entry.2.toOption.bind Identity.version) =
        [some ⟨3, 0, 0, 0⟩, some ⟨2, 1, 0, 0⟩, some ⟨2, 1, 5, 0⟩, some ⟨2, 2, 0, 0⟩] ∧
      (⟨"/pack/b/ink.MODULE"⟩, .ok exact) ∈ identified ∧
      loads.map (fun entry => entry.1.text) =
        ["/pack/c/Ink.module", "/pack/b/ink.MODULE", "/pack/a/Ink.module"] ∧
      ∃ module, ((r.resolve requested).result amid).1 = some module ∧
        (module.identity.version.getD .zero).Refines ⟨2, 1, 0, 0⟩ := by
  intro requested r exact
  have hcalm : amid.Calm := calm_of_clear rfl
  have hshut : r.named requested amid.tree ⟨"/shut"⟩ = [] := by
    rw [named, Storage.Tree.listing_eq_insertionSort]
    decide +kernel
  let files : List Path := [⟨"/pack/a/Ink.module"⟩, ⟨"/pack/b/ink.MODULE"⟩,
    ⟨"/pack/c/Ink.module"⟩, ⟨"/pack/d/Ink.module"⟩]
  have hpack : r.named requested amid.tree ⟨"/pack"⟩ = files := by
    rw [named, Storage.Tree.listing_eq_insertionSort]
    decide +kernel
  let identified := amid.answers 0 Catalog.identityFrom files
  let loads := amid.answers files.length r.catalog.moduleFrom
    (select .strict requested (candidatesOf identified)).reverse
  have hfirst : (r.visits requested amid r.locations).find? Visit.isFinding =
      some (.searched identified loads) := by
    rw [visits_of_calm hcalm, List.map_cons, List.map_cons,
      visit_of_calm hcalm (by decide +kernel) hshut, visit_of_calm hcalm (by decide +kernel) hpack,
      List.find?_cons_of_neg (by decide +kernel), List.find?_cons_of_pos (by decide +kernel)]
    rfl
  have hexact : ((⟨"/pack/b/ink.MODULE"⟩ : Path), .ok exact) ∈ identified := by
    have hmem : ∃ entry ∈ identified, entry.1 = ⟨"/pack/b/ink.MODULE"⟩ ∧
        entry.2.toOption = some exact := by decide +kernel
    obtain ⟨⟨path, answer⟩, hmem, rfl, hanswer⟩ := hmem
    rwa [← toOption_eq_some.mp hanswer]
  have hloads : ∀ answer, ((⟨"/pack/b/ink.MODULE"⟩ : Path), answer) ∈ loads →
      ∃ module, answer = .ok module := by
    have hall : ∀ entry ∈ loads, entry.1 = ⟨"/pack/b/ink.MODULE"⟩ →
        entry.2.toOption.isSome = true := by decide +kernel
    intro answer hmem
    obtain ⟨module, hmodule⟩ := Option.isSome_iff_exists.mp (hall _ hmem rfl)
    exact ⟨module, toOption_eq_some.mp hmodule⟩
  exact ⟨identified, loads, hfirst, by decide +kernel, hexact, by decide +kernel,
    resolve_exact r rfl requested (by decide +kernel) ⟨2, 1, 0, 0⟩ rfl amid identified loads hfirst
      _ exact hexact (by decide +kernel) nofun (by decide +kernel) (by decide +kernel) hloads⟩

end Resolver

end PluginHost
