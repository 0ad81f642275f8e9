import PluginHost.Proofs.Storage.Walking

/-!
What has been removed is no longer there. The way to it may have passed the very link that was
removed; then it does not even come to where the link stood.
-/

namespace PluginHost.Storage.Tree

variable {t t' : Tree} {a b x : Address} {init more : List String} {last : String}

/-- The steps before the last name lead to a folder in which something has this name. -/
def Finds (t : Tree) (a : Address) (init : List String) (last : String) : Prop :=
  ∃ m, Leads t a init m ∧ t.isFolderAt m = true ∧ t.get? (m ++ [last]) ≠ none

/-- Where a way to a last name has stopped it has found what has the name, or the rest of the way
finds it. -/
def Seeks (t : Tree) (a : Address) (init : List String) (last : String) : Stop → Prop
  | .entry _ => t.Finds a init last
  | .link b aim rest => t.Finds a init last ∨ ∃ more, rest = more ++ [last] ∧
      ∀ m, Leads t (startOf b aim) (stepsOf aim ++ more) m → Leads t a init m
  | _ => True

theorem Finds.earlier (h : t.Finds b more last)
    (hleads : ∀ m, Leads t b more m → Leads t a init m) : t.Finds a init last := by
  obtain ⟨m, hmore, hname⟩ := h
  exact ⟨m, hleads m hmore, hname⟩

theorem Seeks.earlier {stop : Stop} (h : t.Seeks b more last stop)
    (hleads : ∀ m, Leads t b more m → Leads t a init m) : t.Seeks a init last stop := by
  cases stop with
  | entry => exact Finds.earlier h hleads
  | absent => trivial
  | link =>
      rcases h with hfinds | ⟨rest, heq, hrest⟩
      · exact .inl (hfinds.earlier hleads)
      · exact .inr ⟨rest, heq, fun m => hleads m ∘ hrest m⟩
  | fault => trivial

theorem seeks_advance (hdots : isDots last = false) (init : List String) (a : Address) :
    t.Seeks a init last (t.advance false a (init ++ [last])) := by
  induction init generalizing a with
  | nil =>
      cases hfolder : t.isFolderAt a with
      | false =>
          rw [List.nil_append, advance_not_folder hfolder]
          trivial
      | true =>
          rw [List.nil_append, advance_name hfolder hdots (by simp)]
          split
          · trivial
          cases hentry : t.get? (a ++ [last]) with
          | none => trivial
          | some entry =>
              have hfinds : t.Finds a [] last := ⟨a, .done a, hfolder, by simp [hentry]⟩
              cases entry with
              | folder => exact hfinds
              | file contents => exact hfinds
              | link aim => exact .inl hfinds
  | cons step init ih =>
      rw [List.cons_append]
      cases hfolder : t.isFolderAt a with
      | false =>
          rw [advance_not_folder hfolder]
          trivial
      | true =>
          by_cases hhere : step = "."
          · subst hhere
            rw [advance_here hfolder]
            exact (ih a).earlier fun m hm => .step hfolder hm
          by_cases hup : step = ".."
          · subst hup
            rw [advance_up hfolder]
            exact (ih a.dropLast).earlier fun m hm => .step hfolder hm
          have hname : isDots step = false := by simp [isDots, hhere, hup]
          rw [advance_name hfolder hname (by simp)]
          split
          · trivial
          cases hentry : t.get? (a ++ [step]) with
          | none => simp [Seeks]
          | some entry =>
              have hpass : (∀ aim, entry ≠ .link aim) → ∀ m, Leads t (a ++ [step]) init m →
                  Leads t a (step :: init) m := by
                intro hlink m hm
                refine .step hfolder ?_
                rw [stepFrom_name hname fun aim haim => hlink aim (by simpa [hentry] using haim)]
                exact hm
              cases entry with
              | folder => exact (ih _).earlier (hpass (by simp))
              | file contents => exact (ih _).earlier (hpass (by simp))
              | link aim =>
                  refine .inr ⟨init, rfl, fun m hm => .step hfolder ?_⟩
                  rw [stepFrom_link hname hentry]
                  exact hm

/-- A way that ends with a name and leads to something has found what has this name. -/
theorem finds_lead {slash : Bool} {budget : Nat} (hdots : isDots last = false)
    (h : t.lead false budget slash a (init ++ [last]) = .ok (.taken x)) :
    t.Finds a init last := by
  induction budget generalizing slash a init with
  | zero =>
      have hseeks := seeks_advance (t := t) hdots init a
      rw [lead, Bool.false_and] at h
      cases hstop : t.advance false a (init ++ [last]) with
      | entry =>
          rw [hstop] at hseeks
          exact hseeks
      | absent | link | fault => simp [hstop] at h
  | succ budget ih =>
      have hseeks := seeks_advance (t := t) hdots init a
      rw [lead, Bool.false_and] at h
      cases hstop : t.advance false a (init ++ [last]) with
      | entry =>
          rw [hstop] at hseeks
          exact hseeks
      | absent | fault => simp [hstop] at h
      | link b aim rest =>
          rw [hstop] at hseeks h
          rcases hseeks with hfinds | ⟨more, rfl, hmore⟩
          · exact hfinds
          · dsimp only at h
            split at h
            · cases h
            · rw [← List.append_assoc] at h
              exact (ih h).earlier hmore

theorem remove_eq_ok {path : Path} (h : t.remove path = .ok t') : ∃ route a,
    t.route path = .ok route ∧ t.target route .isFolder = .ok a ∧ t' = t.erase a := by
  unfold remove at h
  obtain ⟨route, hroute, h⟩ := bind_eq_ok.mp h
  obtain ⟨a, htarget, h⟩ := bind_eq_ok.mp h
  refine ⟨route, a, hroute, htarget, ?_⟩
  split at h
  · cases h
  · cases h
  · split at h
    · cases h
    · exact (Except.ok.inj h).symm

theorem coherent_remove (h : t.Coherent) {path : Path} (hremove : t.remove path = .ok t') :
    t'.Coherent := by
  obtain ⟨route, a, -, htarget, rfl⟩ := remove_eq_ok hremove
  obtain ⟨folder, last, htargets⟩ := targets_of_target htarget
  exact coherent_erase h htargets.ne_nil

theorem isThere_remove {path : Path} (h : t.remove path = .ok t') : t'.isThere path = false := by
  obtain ⟨route, a, hroute, htarget, rfl⟩ := remove_eq_ok h
  obtain ⟨folder, init, last, rfl, hdots, hsteps, hinto, -⟩ := exists_leads_of_target htarget
  have hafter := get?_erase (t := t) (a := folder ++ [last]) (by simp)
  unfold isThere
  cases hlocate : (t.erase (folder ++ [last])).locate path with
  | error fault => rfl
  | ok x =>
      obtain ⟨again, hagain, hlead⟩ := locate_eq_ok hlocate
      obtain rfl : route = again := Except.ok.inj (hroute.symm.trans hagain)
      rw [hsteps] at hlead
      obtain ⟨m, hreached, hthere, hname⟩ := finds_lead hdots hlead
      -- The way to the last name is as it was, since nothing goes on from what was removed.
      obtain rfl : m = folder := by
        refine Leads.agree (b := folder ++ [last]) (fun y hy => ?_) ?_ hreached hinto hthere
        · rw [hafter, if_neg hy]
          exact .inr rfl
        · intro c step rest y hmet hstep hmore
          have hfinal : (t.erase (folder ++ [last])).Final (c ++ [step]) :=
            final_of_none ((hafter _).trans (if_pos hmet))
          obtain ⟨-, rfl⟩ := hmore.of_final hstep hfinal
          exact hfinal.1
      rw [hafter, if_pos rfl] at hname
      exact absurd rfl hname

end PluginHost.Storage.Tree
