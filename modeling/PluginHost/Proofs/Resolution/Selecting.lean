import PluginHost.Proofs.Resolution.Fitting

/-!
Which candidates are selected where the culture has to match, said of each candidate and of those
before it. The depth that is carried along is the highest pin of all fitting candidates so far: one
that is refused for its depth pins less than this, so it makes no difference that it was refused.
-/

namespace PluginHost

namespace Version

theorem not_le_of_findIdx? {a b : List UInt32} {place : Nat}
    (h : (a.zip b).findIdx? (fun pair => pair.1 ≠ pair.2) = some place)
    (hplace : b.getD place 0 < a.getD place 0) : ¬ a ≤ b := by
  induction a generalizing b place with
  | nil => simp at h
  | cons x xs ih =>
      cases b with
      | nil => simp at h
      | cons y ys =>
          rw [List.zip_cons_cons, List.findIdx?_cons] at h
          rw [List.cons_le_cons_iff]
          by_cases hxy : x = y
          · subst hxy
            simp only [ne_eq, not_true_eq_false, decide_false, Bool.false_eq_true, if_false,
              Option.map_eq_some_iff] at h
            obtain ⟨later, hlater, rfl⟩ := h
            have hrest : ¬ xs ≤ ys := ih hlater (by simpa using hplace)
            simpa using hrest
          · have hzero : place = 0 := by simpa [hxy] using h.symm
            subst hzero
            have hlt : y < x := by simpa using hplace
            rintro (hgt | ⟨heq, -⟩)
            · exact UInt32.lt_asymm hlt hgt
            · exact hxy heq

theorem fields_le_iff {a b : Version} {place : Nat} (h : a.firstDifference b = some place) :
    a.fields ≤ b.fields ↔ ¬ b.fields.getD place 0 < a.fields.getD place 0 :=
  ⟨fun hle hlow => not_le_of_findIdx? h hlow hle, fields_le_of_firstDifference h⟩

end Version

instance (policy : CulturePolicy) (requested found : Identity) :
    Decidable (Fits policy requested found) :=
  decidable_of_iff
    (requested.SameName found ∧ (∀ key ∈ requested.publicKey, found.publicKey = some key) ∧
      (policy = .strict → requested.SameCulture found) ∧
      ∀ wanted ∈ requested.version, wanted.fields ≤ (found.version.getD .zero).fields)
    ⟨fun ⟨hname, hkey, hculture, hversion⟩ => ⟨hname, hkey, hculture, hversion⟩,
      fun h => ⟨h.name, h.key, h.culture, h.version⟩⟩

namespace Selection

/-- The first version field in which a candidate is not what is asked for. -/
def difference (requested candidate : Identity) : Option Nat :=
  requested.version.bind fun wanted => wanted.firstDifference (candidate.version.getD .zero)

/-- How many leading fields a fitting candidate asks of those after it. -/
def pin (requested candidate : Identity) : Nat :=
  (difference requested candidate).getD exactDepth

/-- A fitting candidate that agrees with the request as far as every fitting one of `earlier` asks,
or in all of its version. -/
structure Kept (requested : Identity) (earlier : List Candidate) (candidate : Candidate) :
    Prop where
  fits : Fits .strict requested candidate.identity
  deep : ∀ place ∈ difference requested candidate.identity, ∀ other ∈ earlier,
    Fits .strict requested other.identity → pin requested other.identity ≤ place

instance (requested : Identity) (earlier : List Candidate) (candidate : Candidate) :
    Decidable (Kept requested earlier candidate) :=
  decidable_of_iff (Fits .strict requested candidate.identity ∧
      ∀ place ∈ difference requested candidate.identity, ∀ other ∈ earlier,
        Fits .strict requested other.identity → pin requested other.identity ≤ place)
    ⟨fun ⟨hfits, hdeep⟩ => ⟨hfits, hdeep⟩, fun h => ⟨h.fits, h.deep⟩⟩

/-! One candidate. -/

theorem depthAfter_eq (wanted found : Version) (depth : Nat) :
    depthAfter wanted found depth =
      if wanted.fields ≤ found.fields ∧ ∀ place ∈ wanted.firstDifference found, depth ≤ place then
        some (max depth ((wanted.firstDifference found).getD exactDepth))
      else none := by
  rw [depthAfter]
  cases hdifference : wanted.firstDifference found with
  | none =>
      rw [Version.firstDifference_eq_none hdifference]
      simp
  | some place =>
      simp only [Version.fields_le_iff hdifference, Option.mem_some_iff, forall_eq',
        Option.getD_some]
      generalize found.fields.getD place 0 = low
      generalize wanted.fields.getD place 0 = high
      by_cases hlow : low < high
      · simp only [hlow, true_or, if_true, not_true_eq_false, false_and, if_false]
      · by_cases hshallow : place < depth
        · simp [hlow, hshallow]
        · simp [hlow, hshallow, Nat.le_of_not_lt hshallow]

theorem keyAccepted_iff {requested candidate : Identity} :
    keyAccepted requested candidate = true ↔
      ∀ key, requested.publicKey = some key → candidate.publicKey = some key := by
  cases hkey : requested.publicKey <;> simp [keyAccepted, hkey]

/-- A candidate is accepted if its name, key and version do, its culture is accepted and it is deep
enough; without a version there is no depth. -/
theorem judge_eq (policy : CulturePolicy) (requested candidate : Identity) (pins : Pins) :
    judge policy requested candidate pins =
      if Fits .firstMatchPins requested candidate ∧
          cultureAccepted policy requested candidate pins = true ∧
          ∀ place ∈ difference requested candidate, pins.depth ≤ place then
        some ⟨if requested.version = none then pins.depth
          else max pins.depth (pin requested candidate),
          pins.cultureMatched || decide (requested.SameCulture candidate)⟩
      else none := by
  rw [judge]
  by_cases haccepted : requested.SameName candidate ∧ keyAccepted requested candidate = true ∧
      cultureAccepted policy requested candidate pins = true
  · obtain ⟨hname, hkey, hculture⟩ := haccepted
    have hfits : Fits .firstMatchPins requested candidate ↔
        ∀ wanted, requested.version = some wanted →
          wanted.fields ≤ (candidate.version.getD .zero).fields :=
      ⟨fun h => h.version, fun h => ⟨hname, keyAccepted_iff.mp hkey, by simp, h⟩⟩
    cases hversion : requested.version with
    | none => simp [hname, hkey, hculture, hfits, difference, hversion]
    | some wanted =>
        simp only [hname, hkey, hculture, hfits, difference, pin, hversion, depthAfter_eq,
          decide_true, Bool.not_true, Bool.or_self, Bool.false_eq_true, if_false,
          Option.some.injEq, forall_eq', Option.bind_some, true_and]
        split <;> simp
  · have hrefused : (!decide (requested.SameName candidate) || !keyAccepted requested candidate ||
        !cultureAccepted policy requested candidate pins) = true := by
      rw [Decidable.not_and_iff_not_or_not, Decidable.not_and_iff_not_or_not] at haccepted
      simpa [or_assoc] using haccepted
    rw [if_pos hrefused, if_neg fun h => haccepted ⟨h.1.name, keyAccepted_iff.mpr h.1.key, h.2.1⟩]

/-- A candidate fits where cultures have to match if it fits otherwise and has the culture. -/
theorem fits_strict_iff {requested candidate : Identity} : Fits .strict requested candidate ↔
    Fits .firstMatchPins requested candidate ∧ requested.SameCulture candidate :=
  ⟨fun h => ⟨⟨h.name, h.key, by simp, h.version⟩, h.culture rfl⟩,
    fun h => ⟨h.1.name, h.1.key, fun _ => h.2, h.1.version⟩⟩

theorem judge_strict (requested candidate : Identity) (pins : Pins) :
    judge .strict requested candidate pins =
      if Fits .strict requested candidate ∧
          ∀ place ∈ difference requested candidate, pins.depth ≤ place then
        some ⟨if requested.version = none then pins.depth
          else max pins.depth (pin requested candidate), true⟩
      else none := by
  rw [judge_eq]
  simp only [fits_strict_iff, and_assoc]
  by_cases hculture : requested.SameCulture candidate <;> simp [cultureAccepted, hculture]

/-! All candidates. -/

/-- The depth is the highest pin of the fitting candidates so far. -/
def Pinned (requested : Identity) (earlier : List Candidate) (pins : Pins) : Prop :=
  requested.version ≠ none → ∀ depth, pins.depth ≤ depth ↔
    ∀ other ∈ earlier, Fits .strict requested other.identity →
      pin requested other.identity ≤ depth

variable {requested : Identity} {earlier : List Candidate} {pins : Pins}

theorem pinned_none (requested : Identity) : Pinned requested [] .none := by
  simp [Pinned, Pins.none]

theorem difference_eq_none (hversion : requested.version = none) (candidate : Identity) :
    difference requested candidate = none := by
  simp [difference, hversion]

theorem Pinned.kept_iff (hpinned : Pinned requested earlier pins) (candidate : Candidate) :
    Kept requested earlier candidate ↔ Fits .strict requested candidate.identity ∧
      ∀ place ∈ difference requested candidate.identity, pins.depth ≤ place := by
  by_cases hversion : requested.version = none
  · simp only [difference_eq_none hversion, Option.not_mem_none, false_implies, implies_true,
      and_true]
    exact ⟨fun h => h.fits, fun h => ⟨h, by simp [difference_eq_none hversion]⟩⟩
  · constructor
    · exact fun h => ⟨h.fits, fun place hplace => (hpinned hversion place).mpr (h.deep place hplace)⟩
    · exact fun h => ⟨h.1, fun place hplace => (hpinned hversion place).mp (h.2 place hplace)⟩

theorem Pinned.accept (hpinned : Pinned requested earlier pins) {candidate : Candidate}
    (hfits : Fits .strict requested candidate.identity) {after : Pins}
    (hafter : requested.version ≠ none →
      after.depth = max pins.depth (pin requested candidate.identity)) :
    Pinned requested (earlier ++ [candidate]) after := by
  intro hversion depth
  rw [hafter hversion, Nat.max_le, hpinned hversion]
  simp only [List.mem_append, List.mem_singleton, or_imp, forall_and, forall_eq, hfits,
    true_implies]

/-- A candidate that is refused for its depth pins no more than is pinned already. -/
theorem Pinned.refuse (hpinned : Pinned requested earlier pins) {candidate : Candidate}
    (hrefused : ¬ (Fits .strict requested candidate.identity ∧
      ∀ place ∈ difference requested candidate.identity, pins.depth ≤ place)) :
    Pinned requested (earlier ++ [candidate]) pins := by
  by_cases hfits : Fits .strict requested candidate.identity
  · refine hpinned.accept hfits fun _ => (Nat.max_eq_left ?_).symm
    obtain ⟨place, hplace, hshallow⟩ : ∃ place ∈ difference requested candidate.identity,
        ¬ pins.depth ≤ place := by
      simpa [hfits] using hrefused
    rw [pin, Option.mem_def.mp hplace, Option.getD_some]
    exact Nat.le_of_not_le hshallow
  · intro hversion depth
    rw [hpinned hversion]
    simp only [List.mem_append, List.mem_singleton, or_imp, forall_and, forall_eq, hfits,
      false_implies, and_true]

theorem selectFrom_strict (hpinned : Pinned requested earlier pins) (rest : List Candidate) :
    selectFrom .strict requested pins rest =
      ((rest.zipIdx earlier.length).filter fun entry =>
        Kept requested ((earlier ++ rest).take entry.2) entry.1).map fun entry => entry.1.path := by
  induction rest generalizing earlier pins with
  | nil => rfl
  | cons candidate rest ih =>
      have hsplit : earlier ++ candidate :: rest = (earlier ++ [candidate]) ++ rest := by simp
      have hlength : (earlier ++ [candidate]).length = earlier.length + 1 := by simp
      have hkept : Kept requested ((earlier ++ candidate :: rest).take earlier.length) candidate ↔
          Fits .strict requested candidate.identity ∧
            ∀ place ∈ difference requested candidate.identity, pins.depth ≤ place := by
        rw [List.take_left']
        · exact hpinned.kept_iff candidate
        · rfl
      rw [selectFrom, judge_strict, List.zipIdx_cons, List.filter_cons]
      by_cases haccepted : Fits .strict requested candidate.identity ∧
          ∀ place ∈ difference requested candidate.identity, pins.depth ≤ place
      · have hnext : Pinned requested (earlier ++ [candidate])
            ⟨if requested.version = none then pins.depth
              else max pins.depth (pin requested candidate.identity), true⟩ :=
          hpinned.accept haccepted.1 fun hversion => if_neg hversion
        rw [if_pos haccepted, if_pos (decide_eq_true (hkept.mpr haccepted)), List.map_cons]
        dsimp only
        rw [ih hnext, hsplit, hlength]
      · rw [if_neg haccepted, if_neg fun h => haccepted (hkept.mp (of_decide_eq_true h))]
        dsimp only
        rw [ih (hpinned.refuse haccepted), hsplit, hlength]

theorem select_strict (requested : Identity) (candidates : List Candidate) :
    select .strict requested candidates =
      (candidates.zipIdx.filter fun entry =>
        Kept requested (candidates.take entry.2) entry.1).map fun entry => entry.1.path :=
  selectFrom_strict (pinned_none requested) candidates

theorem select_strict_of_version_none (hversion : requested.version = none)
    (candidates : List Candidate) :
    select .strict requested candidates =
      (candidates.filter fun candidate => Fits .strict requested candidate.identity).map
        Candidate.path := by
  have hkept : ∀ before candidate, Kept requested before candidate ↔
      Fits .strict requested candidate.identity :=
    fun before candidate => ⟨fun h => h.fits, fun h => ⟨h, by simp [difference_eq_none hversion]⟩⟩
  have hfitting : candidates.filter (fun candidate => Fits .strict requested candidate.identity) =
      (candidates.zipIdx.filter fun entry => Fits .strict requested entry.1.identity).map
        Prod.fst := by
    have hmap := List.filter_map (f := Prod.fst) (l := candidates.zipIdx)
      (p := fun candidate => Fits .strict requested candidate.identity)
    rwa [List.zipIdx_map_fst] at hmap
  rw [select_strict, hfitting, List.map_map]
  simp only [hkept]
  rfl

theorem kept_of_version_eq {candidate : Candidate}
    (hfits : Fits .strict requested candidate.identity)
    (hversion : requested.version = some (candidate.identity.version.getD .zero))
    (earlier : List Candidate) : Kept requested earlier candidate :=
  ⟨hfits, by simp [difference, hversion]⟩

/-- Where cultures have to match, the selected candidates are, in the given order, the fitting ones
that have the version which is asked for or agree with it as far as each fitting one before them
asks. If no version is asked for these are all that fit, and one of exactly this version is always
among them. -/
theorem select_strict_eq (requested : Identity) (candidates : List Candidate) :
    select .strict requested candidates =
        (candidates.zipIdx.filter fun entry =>
          Kept requested (candidates.take entry.2) entry.1).map (fun entry => entry.1.path) ∧
      (requested.version = none → select .strict requested candidates =
        (candidates.filter fun candidate => Fits .strict requested candidate.identity).map
          Candidate.path) ∧
      ∀ candidate ∈ candidates, Fits .strict requested candidate.identity →
        requested.version = some (candidate.identity.version.getD .zero) →
          candidate.path ∈ select .strict requested candidates := by
  refine ⟨select_strict requested candidates,
    fun hversion => select_strict_of_version_none hversion candidates, ?_⟩
  intro candidate hcandidate hfits hversion
  obtain ⟨place, hplace⟩ := List.mem_iff_getElem?.mp hcandidate
  rw [select_strict]
  refine List.mem_map.mpr ⟨(candidate, place), List.mem_filter.mpr ⟨?_, ?_⟩, rfl⟩
  · exact List.mem_zipIdx_iff_getElem?.mpr hplace
  · exact decide_eq_true (kept_of_version_eq hfits hversion _)

/-- The exact match is taken after a candidate of a later build, and lets no later one pass that
agrees with fewer fields than this build. -/
theorem select_strict_eq_builds :
    let requested : Identity := ⟨"Ink", some ⟨2, 1, 0, 0⟩, none, none⟩
    let candidate (folder : String) (version : Version) : Candidate :=
      ⟨⟨folder ++ "/Ink.module"⟩, ⟨"ink", some version, none, none⟩⟩
    let exact := candidate "/d" ⟨2, 1, 0, 0⟩
    let candidates := [candidate "/a" ⟨3, 0, 0, 0⟩, candidate "/b" ⟨2, 1, 5, 0⟩,
      candidate "/c" ⟨2, 2, 0, 0⟩, exact, candidate "/e" ⟨2, 1, 0, 7⟩, candidate "/f" ⟨2, 1, 9, 0⟩]
    (exact ∈ candidates ∧ Fits .strict requested exact.identity ∧
        requested.version = some (exact.identity.version.getD .zero)) ∧
      exact.path ∈ select .strict requested candidates ∧
        (select .strict requested candidates).map Path.text =
          ["/a/Ink.module", "/b/Ink.module", "/d/Ink.module", "/e/Ink.module"] := by
  intro requested candidate exact candidates
  have hmem : exact ∈ candidates := by simp [candidates]
  have hfits : Fits .strict requested exact.identity := by decide +kernel
  obtain ⟨heq, -, hexact⟩ := select_strict_eq requested candidates
  refine ⟨⟨hmem, hfits, rfl⟩, hexact exact hmem hfits rfl, ?_⟩
  rw [heq]
  decide +kernel

end Selection

end PluginHost
