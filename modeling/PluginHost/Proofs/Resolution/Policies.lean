import PluginHost.Proofs.Resolution.Selecting
import PluginHost.Resolution.Resolver

/-!
The two culture policies side by side, on the same candidates. A candidate of another culture that
is accepted can only pin more, so what is accepted of the culture that is asked for is also accepted
where cultures have to match; and the first candidate that is accepted there is accepted in any case.
-/

namespace PluginHost

namespace Selection

/-- The candidates that will do after some pins, in the given order. -/
def acceptedFrom (policy : CulturePolicy) (requested : Identity) :
    Pins → List Candidate → List Candidate
  | _, [] => []
  | pins, candidate :: rest =>
      match judge policy requested candidate.identity pins with
      | none => acceptedFrom policy requested pins rest
      | some pins => candidate :: acceptedFrom policy requested pins rest

def accepted (policy : CulturePolicy) (requested : Identity) (candidates : List Candidate) :
    List Candidate :=
  acceptedFrom policy requested .none candidates

/-- Whether a candidate has the culture that is asked for. -/
def ofCulture (requested : Identity) (candidate : Candidate) : Bool :=
  decide (requested.SameCulture candidate.identity)

variable {policy : CulturePolicy} {requested : Identity} {pins strict lenient after : Pins}

theorem selectFrom_eq_map (candidates : List Candidate) :
    selectFrom policy requested pins candidates =
      (acceptedFrom policy requested pins candidates).map Candidate.path := by
  induction candidates generalizing pins with
  | nil => rfl
  | cons candidate rest ih =>
      rw [selectFrom, acceptedFrom]
      cases judge policy requested candidate.identity pins with
      | none => exact ih
      | some after => exact congrArg _ ih

theorem acceptedFrom_sublist (candidates : List Candidate) :
    (acceptedFrom policy requested pins candidates).Sublist candidates := by
  induction candidates generalizing pins with
  | nil => exact List.Sublist.refl _
  | cons candidate rest ih =>
      rw [acceptedFrom]
      cases judge policy requested candidate.identity pins with
      | none => exact ih.cons candidate
      | some after => exact ih.cons_cons candidate

/-! One candidate under both policies. -/

section

variable {candidate : Candidate}

theorem judge_strict_of_other (hculture : ofCulture requested candidate = false) :
    judge .strict requested candidate.identity pins = none := by
  rw [judge_strict, if_neg]
  exact fun h => of_decide_eq_false hculture (h.1.culture rfl)

theorem judge_lenient_of_culture (hculture : ofCulture requested candidate = true) :
    judge .firstMatchPins requested candidate.identity pins =
      judge .strict requested candidate.identity pins := by
  have hsame : requested.SameCulture candidate.identity := of_decide_eq_true hculture
  rw [judge_eq, judge_eq]
  simp [cultureAccepted, hsame]

theorem depth_le_of_judge (h : judge policy requested candidate.identity pins = some after) :
    pins.depth ≤ after.depth := by
  rw [judge_eq] at h
  split at h
  · cases h
    dsimp only
    split
    · exact Nat.le_refl _
    · exact Nat.le_max_left _ _
  · cases h

theorem matched_of_judge (h : judge policy requested candidate.identity pins = some after) :
    after.cultureMatched = (pins.cultureMatched || ofCulture requested candidate) := by
  rw [judge_eq] at h
  split at h
  · cases h
    rfl
  · cases h

/-- What is deep enough for more is deep enough for less, and then pins no more. -/
theorem judge_strict_of_deeper (hdepth : strict.depth ≤ lenient.depth)
    (h : judge .strict requested candidate.identity lenient = some after) :
    ∃ before, judge .strict requested candidate.identity strict = some before ∧
      before.depth ≤ after.depth := by
  rw [judge_strict] at h ⊢
  split at h
  · rename_i hkept
    cases h
    rw [if_pos ⟨hkept.1, fun place hplace => Nat.le_trans hdepth (hkept.2 place hplace)⟩]
    refine ⟨_, rfl, ?_⟩
    dsimp only
    split
    · exact hdepth
    · omega
  · cases h

/-- Who is refused for the depth that is pinned pins less than this. -/
theorem depth_le_of_refused (hdepth : strict.depth ≤ lenient.depth)
    (hrefused : judge .strict requested candidate.identity lenient = none)
    (h : judge .strict requested candidate.identity strict = some after) :
    after.depth ≤ lenient.depth := by
  rw [judge_strict] at h hrefused
  split at h
  · rename_i hkept
    cases h
    split at hrefused
    · cases hrefused
    · rename_i hshallow
      obtain ⟨place, hplace, hlow⟩ : ∃ place ∈ difference requested candidate.identity,
          ¬ lenient.depth ≤ place := by
        simpa [hkept.1] using hshallow
      have hpin : pin requested candidate.identity = place := by
        rw [pin, Option.mem_def.mp hplace, Option.getD_some]
      dsimp only
      split
      · exact hdepth
      · omega
  · cases h

end

/-! All candidates under both policies. -/

theorem ofCulture_of_matched (hmatched : pins.cultureMatched = true) (candidates : List Candidate) :
    ∀ candidate ∈ acceptedFrom .firstMatchPins requested pins candidates,
      ofCulture requested candidate = true := by
  induction candidates generalizing pins with
  | nil => simp [acceptedFrom]
  | cons candidate rest ih =>
      rw [acceptedFrom]
      cases hjudge : judge .firstMatchPins requested candidate.identity pins with
      | none => exact ih hmatched
      | some after =>
          have hafter : after.cultureMatched = true := by simp [matched_of_judge hjudge, hmatched]
          refine List.forall_mem_cons.mpr ⟨?_, ih hafter⟩
          rw [judge_eq] at hjudge
          split at hjudge
          · rename_i hkept
            simpa [cultureAccepted, hmatched, ofCulture] using hkept.2.1
          · cases hjudge

theorem acceptedFrom_eq_append (candidates : List Candidate) :
    acceptedFrom .firstMatchPins requested pins candidates =
      (acceptedFrom .firstMatchPins requested pins candidates).filter
          (fun candidate => !ofCulture requested candidate) ++
        (acceptedFrom .firstMatchPins requested pins candidates).filter (ofCulture requested) := by
  induction candidates generalizing pins with
  | nil => rfl
  | cons candidate rest ih =>
      rw [acceptedFrom]
      cases hjudge : judge .firstMatchPins requested candidate.identity pins with
      | none => exact ih
      | some after =>
          dsimp only
          cases hculture : ofCulture requested candidate with
          | false =>
              rw [List.filter_cons_of_pos (by simp [hculture]),
                List.filter_cons_of_neg (by simp [hculture]), List.cons_append, ← ih]
          | true =>
              -- From here on no other culture is accepted.
              have hmatched : after.cultureMatched = true := by
                simp [matched_of_judge hjudge, hculture]
              have hall : ∀ other ∈ candidate :: acceptedFrom .firstMatchPins requested after rest,
                  ofCulture requested other = true :=
                List.forall_mem_cons.mpr ⟨hculture, ofCulture_of_matched hmatched rest⟩
              rw [List.filter_eq_self.mpr hall, List.filter_eq_nil_iff.mpr, List.nil_append]
              exact fun other hother => by simp [hall other hother]

/-- Two runs over the same candidates: the depth that is pinned where any culture will do is never
smaller. -/
theorem filter_acceptedFrom_sublist (hdepth : strict.depth ≤ lenient.depth)
    (candidates : List Candidate) :
    ((acceptedFrom .firstMatchPins requested lenient candidates).filter (ofCulture requested)).Sublist
      (acceptedFrom .strict requested strict candidates) := by
  induction candidates generalizing strict lenient with
  | nil => exact List.Sublist.refl _
  | cons candidate rest ih =>
      rw [acceptedFrom, acceptedFrom]
      cases hculture : ofCulture requested candidate with
      | false =>
          rw [judge_strict_of_other hculture]
          cases hjudge : judge .firstMatchPins requested candidate.identity lenient with
          | none => exact ih hdepth
          | some after =>
              dsimp only
              rw [List.filter_cons_of_neg (by simp [hculture])]
              exact ih (Nat.le_trans hdepth (depth_le_of_judge hjudge))
      | true =>
          rw [judge_lenient_of_culture hculture]
          cases hlenient : judge .strict requested candidate.identity lenient with
          | none =>
              -- Accepted there alone, the candidate pins less than what has refused it here.
              cases hstrict : judge .strict requested candidate.identity strict with
              | none => exact ih hdepth
              | some after =>
                  exact (ih (depth_le_of_refused hdepth hlenient hstrict)).cons candidate
          | some after =>
              obtain ⟨before, hbefore, hle⟩ := judge_strict_of_deeper hdepth hlenient
              rw [hbefore]
              dsimp only
              rw [List.filter_cons_of_pos hculture]
              exact (ih hle).cons_cons candidate

theorem judge_of_version_none (hversion : requested.version = none) (candidate : Identity) :
    judge .strict requested candidate pins =
      if Fits .strict requested candidate then some ⟨pins.depth, true⟩ else none := by
  simp [judge_strict, difference_eq_none hversion, hversion]

theorem filter_acceptedFrom_of_version_none (hversion : requested.version = none)
    (candidates : List Candidate) :
    (acceptedFrom .firstMatchPins requested lenient candidates).filter (ofCulture requested) =
      acceptedFrom .strict requested strict candidates := by
  induction candidates generalizing strict lenient with
  | nil => rfl
  | cons candidate rest ih =>
      rw [acceptedFrom, acceptedFrom]
      cases hculture : ofCulture requested candidate with
      | false =>
          rw [judge_strict_of_other hculture]
          cases judge .firstMatchPins requested candidate.identity lenient with
          | none => exact ih
          | some after =>
              dsimp only
              rw [List.filter_cons_of_neg (by simp [hculture])]
              exact ih
      | true =>
          rw [judge_lenient_of_culture hculture, judge_of_version_none hversion,
            judge_of_version_none hversion]
          by_cases hfits : Fits .strict requested candidate.identity
          · rw [if_pos hfits, if_pos hfits]
            dsimp only
            rw [List.filter_cons_of_pos hculture, ih]
          · rw [if_neg hfits, if_neg hfits]
            exact ih

/-- As long as nothing has been accepted, whoever is accepted where cultures have to match is
accepted where they need not. -/
theorem accepted_ne_nil {candidates : List Candidate}
    (h : accepted .strict requested candidates ≠ []) :
    accepted .firstMatchPins requested candidates ≠ [] := by
  induction candidates with
  | nil => exact h
  | cons candidate rest ih =>
      rw [accepted, acceptedFrom] at h ⊢
      cases hlenient : judge .firstMatchPins requested candidate.identity .none with
      | some after => simp
      | none =>
          have hstrict : judge .strict requested candidate.identity .none = none := by
            cases hculture : ofCulture requested candidate with
            | false => exact judge_strict_of_other hculture
            | true => rw [← judge_lenient_of_culture hculture, hlenient]
          rw [hstrict] at h
          exact ih h

end Selection

theorem Resolver.loadFirst_append (catalog : Catalog) (first rest : List Path) :
    loadFirst catalog (first ++ rest) = (do
      match ← loadFirst catalog first with
      | some module => pure (some module)
      | none => loadFirst catalog rest) := by
  induction first with
  | nil => rfl
  | cons path more ih =>
      rw [List.cons_append, loadFirst, loadFirst, bind_assoc]
      congr 1
      funext loaded
      cases loaded with
      | ok module => rfl
      | error failure =>
          dsimp only
          rw [ih, bind_assoc]

namespace Selection

/-- Where any culture will do until the right one has been accepted, the selected candidates are
some of another culture and after them some of the culture that is asked for, so all of these are
tried before any of the others. They are among those that are selected where cultures have to match,
in the same order, and all of them if no version is asked for; and if any are selected there, some
are selected here. -/
theorem firstMatchPins_simulates (requested : Identity) (candidates : List Candidate) :
    let lenient := accepted .firstMatchPins requested candidates
    let strict := accepted .strict requested candidates
    let others := lenient.filter fun candidate => !ofCulture requested candidate
    let matching := lenient.filter (ofCulture requested)
    (lenient.Sublist candidates ∧
        select .firstMatchPins requested candidates = lenient.map Candidate.path) ∧
      (strict.Sublist candidates ∧
        select .strict requested candidates = strict.map Candidate.path) ∧
      lenient = others ++ matching ∧
      (∀ catalog, Resolver.loadFirst catalog
          (select .firstMatchPins requested candidates).reverse = (do
            match ← Resolver.loadFirst catalog (matching.map Candidate.path).reverse with
            | some module => pure (some module)
            | none => Resolver.loadFirst catalog (others.map Candidate.path).reverse)) ∧
      matching.Sublist strict ∧
      (requested.version = none → matching = strict) ∧
      (strict ≠ [] → lenient ≠ []) := by
  intro lenient strict others matching
  have hblocks : lenient = others ++ matching := acceptedFrom_eq_append candidates
  have hselected : select .firstMatchPins requested candidates = lenient.map Candidate.path :=
    selectFrom_eq_map candidates
  refine ⟨⟨acceptedFrom_sublist candidates, hselected⟩,
    ⟨acceptedFrom_sublist candidates, selectFrom_eq_map candidates⟩, hblocks, fun catalog => ?_,
    filter_acceptedFrom_sublist (Nat.le_refl _) candidates,
    fun hversion => filter_acceptedFrom_of_version_none hversion candidates, accepted_ne_nil⟩
  rw [hselected, hblocks, List.map_append, List.reverse_append, Resolver.loadFirst_append]

/-- A French candidate of a later build pins more than the candidates before the exact match agree
with, so one of them is selected only where cultures have to match. -/
theorem firstMatchPins_simulates_builds :
    let requested : Identity := ⟨"Ink", some ⟨2, 1, 0, 0⟩, none, none⟩
    let candidate (folder : String) (version : Version) (culture : Option String) : Candidate :=
      ⟨⟨folder ++ "/Ink.module"⟩, ⟨"ink", some version, culture, none⟩⟩
    let candidates := [candidate "/a" ⟨3, 0, 0, 0⟩ (some "fr"), candidate "/b" ⟨2, 1, 5, 0⟩ (some "fr"),
      candidate "/c" ⟨2, 2, 0, 0⟩ none, candidate "/d" ⟨2, 1, 0, 0⟩ none,
      candidate "/e" ⟨2, 1, 9, 0⟩ (some "fr"), candidate "/f" ⟨2, 1, 0, 7⟩ none]
    let unversioned : Identity := { requested with version := none }
    ((accepted .firstMatchPins requested candidates).map fun found => found.path.text) =
        ["/a/Ink.module", "/b/Ink.module", "/d/Ink.module", "/f/Ink.module"] ∧
      ((accepted .strict requested candidates).map fun found => found.path.text) =
        ["/c/Ink.module", "/d/Ink.module", "/f/Ink.module"] ∧
      ((accepted .firstMatchPins requested candidates).filter (ofCulture requested)).Sublist
        (accepted .strict requested candidates) ∧
      (accepted .strict requested candidates ≠ [] ∧
        accepted .firstMatchPins requested candidates ≠ []) ∧
      unversioned.version = none ∧
        (accepted .firstMatchPins unversioned candidates).filter (ofCulture unversioned) =
          accepted .strict unversioned candidates := by
  intro requested candidate candidates unversioned
  have hstrict : ((accepted .strict requested candidates).map fun found => found.path.text) =
      ["/c/Ink.module", "/d/Ink.module", "/f/Ink.module"] := by
    decide +kernel
  have hsome : accepted .strict requested candidates ≠ [] := by
    intro hnil
    rw [hnil] at hstrict
    cases hstrict
  obtain ⟨-, -, -, -, hsublist, -, hne⟩ := firstMatchPins_simulates requested candidates
  obtain ⟨-, -, -, -, -, heq, -⟩ := firstMatchPins_simulates unversioned candidates
  exact ⟨by decide +kernel, hstrict, hsublist, ⟨hsome, hne hsome⟩, rfl, heq rfl⟩

end Selection

end PluginHost
