import PluginHost.Storage.Edit

/-!
Following a path. The way to the folder in which a path ends passes folders and links only, so it
is the same in every tree that has all of these, and so is what follows it.
-/

namespace PluginHost.Storage.Tree

/-! Entries. -/

theorem get?_put {t : Tree} {a : Address} (h : a ≠ []) (entry : Entry) (x : Address) :
    (t.put a entry).get? x = if x = a then some entry else t.get? x := by
  unfold get? put
  by_cases hx : x = []
  · have hxa : x ≠ a := fun heq => h (heq.symm.trans hx)
    simp [hx, h.symm]
  · simp only [if_neg hx, Table.get?_put]

theorem get?_erase {t : Tree} {a : Address} (h : a ≠ []) (x : Address) :
    (t.erase a).get? x = if x = a then none else t.get? x := by
  unfold get? erase
  by_cases hx : x = []
  · simp [hx, h.symm]
  · simp only [if_neg hx, Table.get?_erase]

theorem isFolderAt_iff {t : Tree} {a : Address} :
    t.isFolderAt a = true ↔ t.get? a = some .folder := by
  simp [isFolderAt]

theorem isFolderAt_nil (t : Tree) : t.isFolderAt [] = true := by
  simp [isFolderAt, get?]

theorem ne_nil_of_not_folder {t : Tree} {a : Address} (h : t.isFolderAt a = false) : a ≠ [] := by
  rintro rfl
  rw [isFolderAt_nil] at h
  cases h

/-- There is neither a folder nor a link there, so that nothing goes on from this address. -/
def Final (t : Tree) (a : Address) : Prop :=
  t.isFolderAt a = false ∧ ∀ aim, t.get? a ≠ some (.link aim)

theorem final_of_none {t : Tree} {a : Address} (h : t.get? a = none) : t.Final a :=
  ⟨by simp [isFolderAt, h], by simp [h]⟩

theorem final_of_file {t : Tree} {a : Address} {contents : Contents}
    (h : t.get? a = some (.file contents)) : t.Final a :=
  ⟨by simp [isFolderAt, h], by simp [h]⟩

theorem Final.exists_file {t : Tree} {a : Address} {entry : Entry} (h : t.Final a)
    (hentry : t.get? a = some entry) : ∃ contents, entry = .file contents := by
  cases entry with
  | folder => exact absurd (isFolderAt_iff.mpr hentry) (by simp [h.1])
  | file contents => exact ⟨contents, rfl⟩
  | link aim => exact absurd hentry (h.2 aim)

/-- `t'` has the folders and links of `t`. -/
structure Scaffold (t t' : Tree) : Prop where
  limits : t'.limits = t.limits
  here : t'.here = t.here
  folders : ∀ a, t.get? a = some .folder → t'.get? a = some .folder
  links : ∀ a aim, t.get? a = some (.link aim) → t'.get? a = some (.link aim)

theorem Scaffold.refl (t : Tree) : t.Scaffold t :=
  ⟨rfl, rfl, fun _ h => h, fun _ _ h => h⟩

theorem scaffold_of_kept {t t' : Tree} (hlimits : t'.limits = t.limits) (hhere : t'.here = t.here)
    (hkept : ∀ x entry, (∀ contents, entry ≠ .file contents) → t.get? x = some entry →
      t'.get? x = some entry) : t.Scaffold t' :=
  ⟨hlimits, hhere, fun x => hkept x _ (by simp), fun x _ => hkept x _ (by simp)⟩

theorem route_congr {t t' : Tree} (hlimits : t'.limits = t.limits) (hhere : t'.here = t.here)
    (path : Path) : t'.route path = t.route path := by
  simp [route, hlimits, hhere]

theorem Scaffold.route {t t' : Tree} (h : t.Scaffold t') (path : Path) :
    t'.route path = t.route path :=
  route_congr h.limits h.here path

theorem Scaffold.isFolderAt {t t' : Tree} (h : t.Scaffold t') {a : Address}
    (ha : t.isFolderAt a = true) : t'.isFolderAt a = true :=
  isFolderAt_iff.mpr (h.folders a (isFolderAt_iff.mp ha))

/-! The way to a folder. -/

section

variable {t : Tree}

theorem advance_name {barred : Bool} {a : Address} {step : String} {rest : List String}
    (hfolder : t.isFolderAt a = true) (hdots : isDots step = false)
    (hbarred : ¬ (barred = true ∧ rest = [])) :
    t.advance barred a (step :: rest) =
      if t.limits.name < step.utf8ByteSize then .fault .nameTooLong
      else
        match t.get? (a ++ [step]) with
        | none => if rest = [] then .absent a step else .fault .missing
        | some (.link target) => .link a target rest
        | some _ => t.advance barred (a ++ [step]) rest := by
  simp only [isDots, Bool.or_eq_false_iff, beq_eq_false_iff_ne] at hdots
  have hthere : ¬ (!t.isFolderAt a) = true := by simp [hfolder]
  cases hentry : t.get? (a ++ [step]) with
  | none =>
      simp only [advance, if_neg hthere, if_neg hdots.1, if_neg hdots.2, if_neg hbarred, hentry]
  | some entry =>
      cases entry <;>
        simp only [advance, if_neg hthere, if_neg hdots.1, if_neg hdots.2, if_neg hbarred, hentry]

theorem advance_here {barred : Bool} {a : Address} (hfolder : t.isFolderAt a = true)
    (rest : List String) : t.advance barred a ("." :: rest) = t.advance barred a rest := by
  rw [advance]
  simp [hfolder]

theorem advance_up {barred : Bool} {a : Address} (hfolder : t.isFolderAt a = true)
    (rest : List String) :
    t.advance barred a (".." :: rest) = t.advance barred a.dropLast rest := by
  rw [advance]
  simp [hfolder]

theorem advance_not_folder {barred : Bool} {a : Address} (h : t.isFolderAt a = false)
    (step : String) (rest : List String) :
    t.advance barred a (step :: rest) = .fault .notFolder := by
  rw [advance]
  simp [h]

theorem advance_dot_not_folder {a : Address} (h : t.isFolderAt a = false) (init : List String) :
    t.advance false a (init ++ ["."]) = .fault .notFolder := by
  cases init <;> exact advance_not_folder h _ _

/-- What the names before the last one lead to. -/
inductive Passed (t : Tree) (init : List String) (a : Address) : Stop → Prop
  | folder {folder : Address} (hfolder : t.isFolderAt folder = true)
      (hsame : ∀ t', t.Scaffold t' → ∀ barred last,
        t'.advance barred a (init ++ [last]) = t'.advance barred folder [last]) :
      Passed t init a (.entry folder)
  | link {folder : Address} {aim : String} {more : List String}
      (hsame : ∀ t', t.Scaffold t' → ∀ barred last,
        t'.advance barred a (init ++ [last]) = .link folder aim (more ++ [last])) :
      Passed t init a (.link folder aim (more ++ ["."]))
  | absent (folder : Address) (name : String) : Passed t init a (.absent folder name)
  | fault (fault : Fault) : Passed t init a (.fault fault)

/-- A way that goes on as another does leads where that leads. -/
theorem Passed.again {init more : List String} {a b : Address} {stop : Stop}
    (h : Passed t init b stop) (hsame : ∀ t', t.Scaffold t' → ∀ barred last,
      t'.advance barred a (more ++ [last]) = t'.advance barred b (init ++ [last])) :
    Passed t more a stop := by
  cases h with
  | folder hfolder hnext =>
      refine .folder hfolder fun t' hscaffold barred last => ?_
      rw [hsame t' hscaffold, hnext t' hscaffold]
  | link hnext =>
      refine .link fun t' hscaffold barred last => ?_
      rw [hsame t' hscaffold, hnext t' hscaffold]
  | absent folder name => exact .absent folder name
  | fault fault => exact .fault fault

theorem passed_name {step : String} {init : List String} {a : Address}
    (hfolder : t.isFolderAt a = true) (hdots : isDots step = false)
    (hrest : Passed t init (a ++ [step]) (t.advance false (a ++ [step]) (init ++ ["."]))) :
    Passed t (step :: init) a (t.advance false a (step :: (init ++ ["."]))) := by
  rw [advance_name hfolder hdots (by simp)]
  split
  · exact .fault .nameTooLong
  · rename_i hshort
    have hname : ∀ t', t.Scaffold t' → ∀ barred last,
        t'.advance barred a (step :: init ++ [last]) =
          match t'.get? (a ++ [step]) with
          | none => .fault .missing
          | some (.link target) => .link a target (init ++ [last])
          | some _ => t'.advance barred (a ++ [step]) (init ++ [last]) := by
      intro t' hscaffold barred last
      rw [List.cons_append, advance_name (hscaffold.isFolderAt hfolder) hdots (by simp),
        hscaffold.limits, if_neg hshort]
      simp
    cases hentry : t.get? (a ++ [step]) with
    | none =>
        dsimp only
        split
        · exact .absent a step
        · exact .fault .missing
    | some entry =>
        cases entry with
        | folder =>
            refine hrest.again fun t' hscaffold barred last => ?_
            rw [hname t' hscaffold, hscaffold.folders _ hentry]
        | file contents =>
            dsimp only
            rw [advance_dot_not_folder (by simp [isFolderAt, hentry])]
            exact .fault .notFolder
        | link aim =>
            refine .link fun t' hscaffold barred last => ?_
            rw [hname t' hscaffold, hscaffold.links _ aim hentry]

theorem passed_advance (t : Tree) (init : List String) (a : Address) :
    Passed t init a (t.advance false a (init ++ ["."])) := by
  induction init generalizing a with
  | nil =>
      cases hfolder : t.isFolderAt a with
      | false =>
          rw [advance_dot_not_folder hfolder]
          exact .fault .notFolder
      | true =>
          rw [List.nil_append, advance_here hfolder, advance]
          exact .folder hfolder fun _ _ _ _ => rfl
  | cons step init ih =>
      cases hfolder : t.isFolderAt a with
      | false =>
          rw [advance_dot_not_folder hfolder]
          exact .fault .notFolder
      | true =>
          rw [List.cons_append]
          by_cases hhere : step = "."
          · subst hhere
            rw [advance_here hfolder]
            refine (ih a).again fun t' hscaffold barred last => ?_
            rw [List.cons_append, advance_here (hscaffold.isFolderAt hfolder)]
          · by_cases hup : step = ".."
            · subst hup
              rw [advance_up hfolder]
              refine (ih a.dropLast).again fun t' hscaffold barred last => ?_
              rw [List.cons_append, advance_up (hscaffold.isFolderAt hfolder)]
            · exact passed_name hfolder (by simp [isDots, hhere, hup]) (ih _)

theorem lead_congr {making slash : Bool} {a b : Address} {steps other : List String}
    (h : t.advance (making && slash) a steps = t.advance (making && slash) b other)
    (budget : Nat) : t.lead making budget slash a steps = t.lead making budget slash b other := by
  rw [lead, lead, h]

theorem lead_link {making slash : Bool} {a b : Address} {steps more : List String} {aim : String}
    {last : String} (h : t.advance (making && slash) a steps = .link b aim (more ++ [last]))
    (haim : aim ≠ "") (budget : Nat) :
    t.lead making (budget + 1) slash a steps =
      t.lead making budget slash (startOf b aim) (stepsOf aim ++ more ++ [last]) := by
  have hmore : (more ++ [last]).isEmpty = false := by cases more <;> rfl
  rw [lead, h]
  simp [haim, hmore]

theorem lead_entry {a folder : Address} {init : List String}
    (h : t.advance false a (init ++ ["."]) = .entry folder) (budget : Nat) :
    t.isFolderAt folder = true ∧ ∀ t', t.Scaffold t' → ∀ making last,
      t'.lead making budget false a (init ++ [last]) =
        t'.lead making budget false folder [last] := by
  have hpassed := passed_advance t init a
  rw [h] at hpassed
  cases hpassed with
  | folder hfolder hsame =>
      refine ⟨hfolder, fun t' hscaffold making last => lead_congr ?_ budget⟩
      rw [Bool.and_false]
      exact hsame t' hscaffold false last

/-- After the way to a folder the last name is followed from this folder, with what is left of the
links that may be taken. -/
theorem lead_last {budget : Nat} {a folder : Address} {init : List String}
    (h : t.lead false budget false a (init ++ ["."]) = .ok (.taken folder)) :
    t.isFolderAt folder = true ∧ ∃ left, ∀ t', t.Scaffold t' → ∀ making last,
      t'.lead making budget false a (init ++ [last]) = t'.lead making left false folder [last] := by
  induction budget generalizing a init with
  | zero =>
      rw [lead, Bool.false_and] at h
      cases hstop : t.advance false a (init ++ ["."]) with
      | entry b =>
          rw [hstop] at h
          cases h
          obtain ⟨hfolder, hlead⟩ := lead_entry hstop 0
          exact ⟨hfolder, 0, hlead⟩
      | absent b name => simp [hstop] at h
      | link b aim rest => simp [hstop] at h
      | fault fault => simp [hstop] at h
  | succ budget ih =>
      rw [lead, Bool.false_and] at h
      cases hstop : t.advance false a (init ++ ["."]) with
      | entry b =>
          rw [hstop] at h
          cases h
          obtain ⟨hfolder, hlead⟩ := lead_entry hstop (budget + 1)
          exact ⟨hfolder, budget + 1, hlead⟩
      | absent b name => simp [hstop] at h
      | fault fault => simp [hstop] at h
      | link b aim rest =>
          have hpassed := passed_advance t init a
          rw [hstop] at h hpassed
          cases hpassed with
          | @link _ _ more hsame =>
              by_cases haim : aim = ""
              · simp [haim] at h
              have hstart : t.advance (false && false) a (init ++ ["."]) =
                  .link b aim (more ++ ["."]) := hstop
              have hnext : t.lead false budget false (startOf b aim)
                  (stepsOf aim ++ more ++ ["."]) = .ok (.taken folder) := by
                rw [← lead_link hstart haim budget, lead, hstart]
                exact h
              obtain ⟨hfolder, left, hleft⟩ := ih hnext
              refine ⟨hfolder, left, fun t' hscaffold making last => ?_⟩
              have hadvance : t'.advance (making && false) a (init ++ [last]) =
                  .link b aim (more ++ [last]) := hsame t' hscaffold _ last
              rw [lead_link hadvance haim budget, hleft t' hscaffold]

theorem lead_name {making : Bool} {budget : Nat} {folder : Address} {name : String}
    (hfolder : t.isFolderAt folder = true) (hdots : isDots name = false)
    (hshort : ¬ t.limits.name < name.utf8ByteSize)
    (hlink : ∀ aim, t.get? (folder ++ [name]) ≠ some (.link aim)) :
    t.lead making budget false folder [name] =
      .ok (if (t.get? (folder ++ [name])).isSome then .taken (folder ++ [name])
        else .free folder name) := by
  rw [lead, Bool.and_false, advance_name hfolder hdots (by simp), if_neg hshort]
  cases hentry : t.get? (folder ++ [name]) with
  | none => simp
  | some entry =>
      cases entry with
      | folder => simp [advance]
      | file contents => simp [advance]
      | link aim => exact absurd hentry (hlink aim)

/-! The way to an entry. -/

/-- There is an entry that is no link. -/
def Stands (t : Tree) (a : Address) : Prop :=
  ∃ entry, t.get? a = some entry ∧ ∀ aim, entry ≠ .link aim

theorem stands_of_folder {a : Address} (h : t.isFolderAt a = true) : t.Stands a :=
  ⟨.folder, isFolderAt_iff.mp h, by simp⟩

theorem stands_of_file {a : Address} {contents : Contents}
    (h : t.get? a = some (.file contents)) : t.Stands a :=
  ⟨.file contents, h, by simp⟩

/-- The way has stopped at a link, or where there is an entry. -/
def Passable (t : Tree) : Stop → Prop
  | .entry a => t.Stands a
  | .link .. => True
  | _ => False

variable {t' : Tree}

theorem Scaffold.advance_eq (h : t.Scaffold t') {a : Address} {steps : List String}
    (hstop : t'.Passable (t.advance false a steps)) :
    t'.advance false a steps = t.advance false a steps := by
  induction steps generalizing a with
  | nil => rfl
  | cons step rest ih =>
      cases hfolder : t.isFolderAt a with
      | false =>
          rw [advance_not_folder hfolder] at hstop
          exact hstop.elim
      | true =>
          have hfolder' := h.isFolderAt hfolder
          by_cases hhere : step = "."
          · subst hhere
            rw [advance_here hfolder] at hstop ⊢
            rw [advance_here hfolder', ih hstop]
          by_cases hup : step = ".."
          · subst hup
            rw [advance_up hfolder] at hstop ⊢
            rw [advance_up hfolder', ih hstop]
          have hdots : isDots step = false := by simp [isDots, hhere, hup]
          rw [advance_name hfolder hdots (by simp)] at hstop ⊢
          rw [advance_name hfolder' hdots (by simp), h.limits]
          by_cases hlong : t.limits.name < step.utf8ByteSize
          · rw [if_pos hlong, if_pos hlong]
          rw [if_neg hlong] at hstop ⊢
          rw [if_neg hlong]
          cases hentry : t.get? (a ++ [step]) with
          | none =>
              rw [hentry] at hstop
              dsimp only at hstop
              split at hstop <;> exact hstop.elim
          | some entry =>
              rw [hentry] at hstop
              cases entry with
              | folder =>
                  rw [h.folders _ hentry]
                  exact ih hstop
              | link aim => rw [h.links _ aim hentry]
              | file contents =>
                  dsimp only at hstop
                  cases rest with
                  | nil =>
                      obtain ⟨other, hother, hkind⟩ := hstop
                      rw [hother]
                      cases other with
                      | folder => rfl
                      | file => rfl
                      | link aim => exact absurd rfl (hkind aim)
                  | cons next rest =>
                      rw [advance_not_folder (by simp [Tree.isFolderAt, hentry])] at hstop
                      exact hstop.elim

/-- A path leads where it has led, as long as there is an entry. -/
theorem Scaffold.lead_eq (h : t.Scaffold t') {budget : Nat} {slash : Bool} {a x : Address}
    {steps : List String} (hlead : t.lead false budget slash a steps = .ok (.taken x))
    (hx : t'.Stands x) : t'.lead false budget slash a steps = .ok (.taken x) := by
  fun_induction lead t false budget slash a steps with
  | case2 budget slash a steps y hstop hthere =>
      cases hlead
      rw [Bool.false_and] at hstop
      rw [lead, Bool.false_and, h.advance_eq (by rw [hstop]; exact hx), hstop]
      cases slash with
      | false => rfl
      | true =>
          have hfolder : t.isFolderAt x = true := by simpa using hthere
          simp [h.isFolderAt hfolder]
  | case7 slash a steps f aim rest hstop budget haim ih =>
      rw [Bool.false_and] at hstop
      rw [lead, Bool.false_and, h.advance_eq (by rw [hstop]; trivial), hstop]
      simp only [if_neg haim]
      exact ih hlead
  | _ => cases hlead

end

end PluginHost.Storage.Tree
