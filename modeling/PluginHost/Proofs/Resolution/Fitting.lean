import PluginHost.Resolution.Selection

/-!
What it means that a module fits a request, and that only candidates which fit are selected. The
fields of versions are compared in order, so a version that is not lower at the first difference is
not lower at all.
-/

namespace PluginHost

namespace Version

@[simp] theorem firstDifference_self (version : Version) :
    version.firstDifference version = none := by
  simp [firstDifference, fields]

theorem firstDifference_eq_none {a b : Version} (h : a.firstDifference b = none) : a = b := by
  cases a
  cases b
  simp only [firstDifference, List.findIdx?_eq_none_iff, fields] at h
  simp_all

theorem le_of_findIdx? {a b : List UInt32} (hlength : a.length = b.length) {place : Nat}
    (h : (a.zip b).findIdx? (fun pair => pair.1 ≠ pair.2) = some place)
    (hplace : ¬ b.getD place 0 < a.getD place 0) : a ≤ b := by
  induction a generalizing b place with
  | nil => simp at h
  | cons x xs ih =>
      cases b with
      | nil => simp at hlength
      | cons y ys =>
          rw [List.zip_cons_cons, List.findIdx?_cons] at h
          rw [List.cons_le_cons_iff]
          by_cases hxy : x = y
          · subst hxy
            simp only [ne_eq, not_true_eq_false, decide_false, Bool.false_eq_true, if_false,
              Option.map_eq_some_iff] at h
            obtain ⟨later, hlater, rfl⟩ := h
            exact Or.inr ⟨rfl, ih (by simpa using hlength) hlater (by simpa using hplace)⟩
          · have hzero : place = 0 := by simpa [hxy] using h.symm
            subst hzero
            have hle : x ≤ y := by simpa using hplace
            exact Or.inl (UInt32.lt_of_le_of_ne hle hxy)

theorem fields_le_of_firstDifference {a b : Version} {place : Nat}
    (h : a.firstDifference b = some place)
    (hplace : ¬ b.fields.getD place 0 < a.fields.getD place 0) : a.fields ≤ b.fields :=
  le_of_findIdx? rfl h hplace

end Version

/-- What a request may rely on in a module that it is given. -/
structure Fits (policy : CulturePolicy) (requested found : Identity) : Prop where
  name : requested.SameName found
  key : ∀ key, requested.publicKey = some key → found.publicKey = some key
  culture : policy = .strict → requested.SameCulture found
  version : ∀ wanted, requested.version = some wanted →
    wanted.fields ≤ (found.version.getD .zero).fields

namespace Selection

theorem fields_le_of_depthAfter {wanted found : Version} {depth after : Nat}
    (h : depthAfter wanted found depth = some after) : wanted.fields ≤ found.fields := by
  rw [depthAfter] at h
  cases hdifference : wanted.firstDifference found with
  | none =>
      rw [Version.firstDifference_eq_none hdifference]
      exact List.le_refl _
  | some place =>
      simp only [hdifference] at h
      split at h
      · simp at h
      · rename_i hkept
        exact Version.fields_le_of_firstDifference hdifference fun hlow => hkept (Or.inl hlow)

theorem fits_of_judge {policy : CulturePolicy} {requested candidate : Identity}
    {pins after : Pins} (h : judge policy requested candidate pins = some after) :
    Fits policy requested candidate := by
  rw [judge] at h
  split at h
  · simp at h
  · rename_i haccepted
    simp only [Bool.or_eq_true, Bool.not_eq_true', not_or, Bool.not_eq_false,
      decide_eq_true_eq] at haccepted
    obtain ⟨⟨hname, hkey⟩, hculture⟩ := haccepted
    refine ⟨hname, fun key hrequested => ?_, fun hpolicy => ?_, fun wanted hwanted => ?_⟩
    · simpa [keyAccepted, hrequested] using hkey
    · subst hpolicy
      simpa [cultureAccepted] using hculture
    · simp only [hwanted, Option.map_eq_some_iff] at h
      obtain ⟨depth, hdepth, _⟩ := h
      exact fields_le_of_depthAfter hdepth

theorem exists_of_mem_selectFrom {policy : CulturePolicy} {requested : Identity} {pins : Pins}
    {candidates : List Candidate} {path : Path}
    (h : path ∈ selectFrom policy requested pins candidates) :
    ∃ candidate ∈ candidates, candidate.path = path ∧
      Fits policy requested candidate.identity := by
  induction candidates generalizing pins with
  | nil => simp [selectFrom] at h
  | cons candidate rest ih =>
      rw [selectFrom] at h
      cases hjudge : judge policy requested candidate.identity pins with
      | none =>
          simp only [hjudge] at h
          obtain ⟨other, hother, hpath, hfits⟩ := ih h
          exact ⟨other, List.mem_cons_of_mem _ hother, hpath, hfits⟩
      | some after =>
          simp only [hjudge, List.mem_cons] at h
          rcases h with rfl | h
          · exact ⟨candidate, List.mem_cons_self, rfl, fits_of_judge hjudge⟩
          · obtain ⟨other, hother, hpath, hfits⟩ := ih h
            exact ⟨other, List.mem_cons_of_mem _ hother, hpath, hfits⟩

theorem exists_of_mem_select {policy : CulturePolicy} {requested : Identity}
    {candidates : List Candidate} {path : Path}
    (h : path ∈ select policy requested candidates) :
    ∃ candidate ∈ candidates, candidate.path = path ∧
      Fits policy requested candidate.identity :=
  exists_of_mem_selectFrom h

end Selection

end PluginHost
