import PluginHost.Proofs.Storage.Writing

/-!
Where a way leads, without a bound on the links that it takes. A way of several names is the way of
the first ones and then, from where that has led, the way of the others. Two trees with the same
entries but for some are walked alike until one of these is met.
-/

namespace PluginHost.Storage.Tree

/-- Where one step leads, and the steps to be taken from there before the others. -/
def stepFrom (t : Tree) (a : Address) (step : String) : Address × List String :=
  if step = "." then (a, [])
  else if step = ".." then (a.dropLast, [])
  else
    match t.get? (a ++ [step]) with
    | some (.link aim) => (startOf a aim, stepsOf aim)
    | _ => (a ++ [step], [])

/-- The steps lead from one address to another. Nothing has to be where they end. -/
inductive Leads (t : Tree) : Address → List String → Address → Prop
  | done (a : Address) : Leads t a [] a
  | step {a x : Address} {step : String} {rest : List String} (hfolder : t.isFolderAt a = true)
      (hrest : Leads t (t.stepFrom a step).1 ((t.stepFrom a step).2 ++ rest) x) :
      Leads t a (step :: rest) x

variable {t t' : Tree} {a m x y : Address} {first rest steps : List String} {step aim : String}

theorem stepFrom_link (hdots : isDots step = false)
    (hlink : t.get? (a ++ [step]) = some (.link aim)) :
    t.stepFrom a step = (startOf a aim, stepsOf aim) := by
  simp only [isDots, Bool.or_eq_false_iff, beq_eq_false_iff_ne] at hdots
  rw [stepFrom, if_neg hdots.1, if_neg hdots.2, hlink]

theorem stepFrom_name (hdots : isDots step = false)
    (hlink : ∀ aim, t.get? (a ++ [step]) ≠ some (.link aim)) :
    t.stepFrom a step = (a ++ [step], []) := by
  simp only [isDots, Bool.or_eq_false_iff, beq_eq_false_iff_ne] at hdots
  rw [stepFrom, if_neg hdots.1, if_neg hdots.2]
  split
  · rename_i haim
    exact absurd haim (hlink _)
  · rfl

/-- A step is the same in all trees with the same entry there. -/
theorem stepFrom_congr (hsame : isDots step = false → t'.get? (a ++ [step]) = t.get? (a ++ [step])) :
    t'.stepFrom a step = t.stepFrom a step := by
  unfold stepFrom
  by_cases hhere : step = "."
  · simp [hhere]
  by_cases hup : step = ".."
  · simp [hup]
  rw [hsame (by simp [isDots, hhere, hup])]

/-- A way that has met something else than a folder ends there. -/
theorem Leads.of_not_folder (h : Leads t a rest x) (hfolder : t.isFolderAt a = false) :
    rest = [] ∧ x = a := by
  cases h with
  | done a => exact ⟨rfl, rfl⟩
  | step hthere _ => simp [hfolder] at hthere

theorem Leads.folder (h : Leads t a (step :: rest) x) : t.isFolderAt a = true := by
  cases h with
  | step hfolder _ => exact hfolder

theorem Leads.unique (hx : Leads t a steps x) (hy : Leads t a steps y) : x = y := by
  induction hx with
  | done a =>
      cases hy
      rfl
  | step _ _ ih =>
      cases hy with
      | step _ hrest => exact ih hrest

theorem Leads.split (h : Leads t a (first ++ rest) x) :
    ∃ m, Leads t a first m ∧ Leads t m rest x := by
  generalize hsteps : first ++ rest = steps at h
  induction h generalizing first with
  | done a =>
      obtain ⟨rfl, rfl⟩ := List.append_eq_nil_iff.mp hsteps
      exact ⟨a, .done a, .done a⟩
  | @step a x next more hfolder hmore ih =>
      cases first with
      | nil =>
          rw [List.nil_append] at hsteps
          exact ⟨a, .done a, hsteps ▸ .step hfolder hmore⟩
      | cons other first =>
          rw [List.cons_append] at hsteps
          obtain ⟨rfl, rfl⟩ := List.cons.inj hsteps
          obtain ⟨m, hfirst, hrest⟩ := ih (List.append_assoc ..)
          exact ⟨m, .step hfolder hfirst, hrest⟩

/-- Single dots lead nowhere else. -/
theorem Leads.of_dots (h : Leads t a steps x) (hdots : ∀ dot ∈ steps, dot = ".") : x = a := by
  induction h with
  | done a => rfl
  | step _ _ ih =>
      obtain ⟨rfl, hrest⟩ := List.forall_mem_cons.mp hdots
      exact ih hrest

/-! What following a path tells about the way. -/

/-- The way that has stopped leads on to this address. -/
def Continues (t : Tree) (x : Address) : Stop → Prop
  | .entry a => x = a
  | .absent a name => x = a ++ [name]
  | .link a aim rest => Leads t (startOf a aim) (stepsOf aim ++ rest) x
  | .fault _ => False

theorem leads_advance {barred : Bool} (h : t.Continues x (t.advance barred a steps)) :
    Leads t a steps x := by
  induction steps generalizing a with
  | nil =>
      rw [advance] at h
      cases h
      exact .done _
  | cons step rest ih =>
      cases hfolder : t.isFolderAt a with
      | false =>
          rw [advance_not_folder hfolder] at h
          cases h
      | true =>
          refine .step hfolder ?_
          by_cases hhere : step = "."
          · subst hhere
            rw [advance_here hfolder] at h
            exact ih h
          by_cases hup : step = ".."
          · subst hup
            rw [advance_up hfolder] at h
            exact ih h
          have hdots : isDots step = false := by simp [isDots, hhere, hup]
          by_cases hbarred : barred = true ∧ rest = []
          · have hstop : t.advance barred a (step :: rest) = .fault .isFolder := by
              rw [advance]
              simp [hfolder, hhere, hup, hbarred]
            rw [hstop] at h
            cases h
          rw [advance_name hfolder hdots hbarred] at h
          split at h
          · cases h
          cases hentry : t.get? (a ++ [step]) with
          | none =>
              rw [hentry] at h
              dsimp only at h
              split at h
              · rename_i hnil
                cases h
                rw [stepFrom_name hdots (by simp [hentry]), hnil]
                exact .done _
              · cases h
          | some entry =>
              rw [hentry] at h
              cases entry with
              | folder =>
                  rw [stepFrom_name hdots (by simp [hentry])]
                  exact ih h
              | file contents =>
                  rw [stepFrom_name hdots (by simp [hentry])]
                  exact ih h
              | link aim =>
                  rw [stepFrom_link hdots hentry]
                  exact h

theorem leads_lead {making slash : Bool} {budget : Nat} {place : Place}
    (h : t.lead making budget slash a steps = .ok place) : Leads t a steps place.address := by
  fun_induction lead t making budget slash a steps with
  | case2 _ _ _ _ b hstop _ =>
      cases h
      exact leads_advance (by rw [hstop]; rfl)
  | case3 _ _ _ _ b name hstop =>
      cases h
      exact leads_advance (by rw [hstop]; rfl)
  | case7 _ _ _ b aim rest hstop _ _ ih =>
      exact leads_advance (by rw [hstop]; exact ih h)
  | _ => cases h

theorem exists_leads_of_read {path : Path} {text : String} (h : t.read path = .ok text) :
    ∃ route x, t.route path = .ok route ∧ Leads t route.start route.steps x ∧
      t.get? x = some (.file (.text text)) := by
  obtain ⟨x, hlocate, hentry⟩ := read_eq_ok.mp h
  obtain ⟨route, hroute, hlead⟩ := locate_eq_ok hlocate
  exact ⟨route, x, hroute, leads_lead hlead, hentry⟩

theorem exists_leads_of_target {route : Route} {dots : Fault} (h : t.target route dots = .ok a) :
    ∃ folder init last, a = folder ++ [last] ∧ isDots last = false ∧ route.steps = init ++ [last] ∧
      Leads t route.start init folder ∧ t.isFolderAt folder = true := by
  obtain ⟨folder, init, last, hlead, hsteps, hdots, -, haddress⟩ := target_eq_ok h
  obtain ⟨m, hinto, hdot⟩ := (leads_lead hlead).split
  obtain rfl := hdot.of_dots (by simp)
  exact ⟨_, init, last, haddress, hdots, hsteps, hinto, hdot.folder⟩

/-! Trees that differ in few places. -/

theorem not_folder_of_none (h : t.get? a = none) : t.isFolderAt a = false := by
  simp [isFolderAt, h]

/-- A way that has come to a file or to nothing ends there. -/
theorem Leads.of_final (h : Leads t a (step :: rest) x) (hdots : isDots step = false)
    (hfinal : t.Final (a ++ [step])) : rest = [] ∧ x = a ++ [step] := by
  cases h with
  | step _ hrest =>
      rw [stepFrom_name hdots hfinal.2] at hrest
      exact hrest.of_not_folder hfinal.1

/-- A way leads to the same folder in two trees that differ at `b` and where no way goes on in `t'`, if
it does not go on from `b` to a folder. -/
theorem Leads.agree {b : Address} (hsame : ∀ y, y ≠ b → t'.Final y ∨ t'.get? y = t.get? y)
    (hb : ∀ c step rest x, c ++ [step] = b → isDots step = false → Leads t' c (step :: rest) x →
      t'.isFolderAt x = false)
    (h' : Leads t' a steps x) (h : Leads t a steps y) (hfolder : t'.isFolderAt x = true) :
    x = y := by
  induction h' with
  | done a =>
      cases h
      rfl
  | @step a x step rest hthere hrest ih =>
      cases h with
      | step _ hmore =>
      cases hdots : isDots step with
      | true =>
          rw [stepFrom_congr (t := t) fun hnot => by simp [hdots] at hnot] at ih
          exact ih hmore hfolder
      | false =>
          by_cases hmet : a ++ [step] = b
          · have hlost := hb a step rest x hmet hdots (.step hthere hrest)
            simp [hfolder] at hlost
          rcases hsame _ hmet with hfinal | heq
          · obtain ⟨-, rfl⟩ := (Leads.step hthere hrest).of_final hdots hfinal
            simp [hfinal.1] at hfolder
          · rw [stepFrom_congr fun _ => heq] at ih
            exact ih hmore hfolder

/-- If there is a file there, then with this text. -/
def Holds (t : Tree) (text : String) (a : Address) : Prop :=
  t.isFolderAt a = false ∧ ∀ contents, t.get? a = some (.file contents) → contents = .text text

theorem holds_of_link {text : String} (h : t.get? a = some (.link aim)) : t.Holds text a :=
  ⟨by simp [isFolderAt, h], by simp [h]⟩

/-- There is nothing there, or a file with this text. -/
def Bare (t : Tree) (text : String) (a : Address) : Prop :=
  t.get? a = none ∨ t.get? a = some (.file (.text text))

theorem Bare.final {text : String} (h : t.Bare text a) : t.Final a := by
  rcases h with hnone | hfile
  · exact final_of_none hnone
  · exact final_of_file hfile

theorem Bare.holds {text : String} (h : t.Bare text a) : t.Holds text a := by
  refine ⟨h.final.1, fun contents hcontents => ?_⟩
  rcases h with hnone | hfile
  · simp [hnone] at hcontents
  · simpa [hfile, eq_comm] using hcontents

/-- The aim of a link led to `p` in `t`. If in `t'`, where `p` is a file with the text or nothing,
this link stands at another address, then whatever leads to `p` in `t` leads in `t'` to nothing but
a file with the text, and no further. -/
theorem Leads.ends {folder p : Address} {last text : String} (hdots : isDots last = false)
    (hlink : t'.get? (folder ++ [last]) = some (.link aim))
    (hp : p ≠ folder ++ [last] → t'.Bare text p)
    (hsame : ∀ y, y ≠ folder ++ [last] → t'.Bare text y ∨ t'.get? y = t.get? y)
    (haim : Leads t (startOf folder aim) (stepsOf aim) p)
    (h' : Leads t' a (steps ++ rest) x) (h : Leads t a steps p) :
    rest = [] ∧ t'.Holds text x := by
  have hend : t'.Holds text p := by
    by_cases hmet : p = folder ++ [last]
    · exact holds_of_link (hmet ▸ hlink)
    · exact (hp hmet).holds
  generalize hall : steps ++ rest = all at h'
  induction h' generalizing steps rest with
  | done a =>
      obtain ⟨rfl, rfl⟩ := List.append_eq_nil_iff.mp hall
      cases h
      exact ⟨rfl, hend⟩
  | @step a x step more hthere hmore ih =>
      cases steps with
      | nil =>
          cases h
          simp [hend.1] at hthere
      | cons other steps =>
      rw [List.cons_append] at hall
      obtain ⟨rfl, rfl⟩ := List.cons.inj hall
      cases h with
      | step _ hnext =>
      cases hname : isDots other with
      | true =>
          rw [stepFrom_congr (t := t) fun hnot => by simp [hname] at hnot] at ih
          exact ih hnext (List.append_assoc ..)
      | false =>
          by_cases hmet : a ++ [other] = folder ++ [last]
          · obtain ⟨rfl, hlast⟩ := List.append_inj' hmet rfl
            cases hlast
            rw [stepFrom_link hdots hlink] at ih
            obtain ⟨hnil, hholds⟩ := ih haim rfl
            exact ⟨(List.append_eq_nil_iff.mp hnil).2, hholds⟩
          have hbare : t'.Bare text (a ++ [other]) ∨
              t'.get? (a ++ [other]) = t.get? (a ++ [other]) := hsame _ hmet
          rcases hbare with hbare | heq
          · obtain ⟨hnil, rfl⟩ := (Leads.step hthere hmore).of_final hname hbare.final
            exact ⟨(List.append_eq_nil_iff.mp hnil).2, hbare.holds⟩
          · rw [stepFrom_congr fun _ => heq] at ih
            exact ih hnext (List.append_assoc ..)

/-! Writing a file. -/

/-- If a file has been filled through a link, then the aim of this link leads to it. -/
theorem leads_of_fillFile {path : Path} {route : Route} {contents : Contents} {folder : Address}
    {last : String} (hfill : t.fillFile path contents = .ok t')
    (hroute : t'.route path = .ok route) (hsteps : route.steps = first ++ [last])
    (hdots : isDots last = false) (hleads : Leads t' route.start first folder)
    (hfolder : t'.isFolderAt folder = true)
    (hlink : t'.get? (folder ++ [last]) = some (.link aim)) :
    ∃ p, p ≠ [] ∧ t' = t.fill p contents ∧ Leads t (startOf folder aim) (stepsOf aim) p := by
  rw [route_fillFile hfill] at hroute
  obtain ⟨other, place, hother, hlead, hne, rfl⟩ := fillFile_eq_ok hfill
  obtain rfl := Except.ok.inj (hroute.symm.trans hother)
  have hafter := get?_fill (t := t) hne contents
  have hway := leads_lead hlead
  rw [hsteps] at hway
  obtain ⟨m, hinto, hlast⟩ := hway.split
  obtain rfl : folder = m := by
    refine Leads.agree (b := place.address) (fun y _ => ?_) ?_ hleads hinto hfolder
    · by_cases hnamed : y = place.address ∨ t.shares place.address y = true
      · exact .inl (final_of_file ((hafter y).trans (if_pos hnamed)))
      · exact .inr ((hafter y).trans (if_neg hnamed))
    · intro c step rest x hmet hname hmore
      have hfinal := final_of_file ((hafter (c ++ [step])).trans (if_pos (.inl hmet)))
      obtain ⟨-, rfl⟩ := hmore.of_final hname hfinal
      exact hfinal.1
  refine ⟨place.address, hne, rfl, ?_⟩
  have hbefore := (scaffold_of_fill hne contents).links _ _ hlink
  cases hlast with
  | step _ hrest =>
      rw [stepFrom_link hdots hbefore] at hrest
      simpa using hrest

/-- When the file that has been filled has been moved, whoever passes its new name comes to nothing
but a file with the text, and no further. -/
theorem ends_of_moved {before filled : Tree} {path : Path} {route : Route} {text last other : String}
    {folder : Address} {entry : Entry}
    (hfill : before.fillFile path (.text text) = .ok filled)
    (hroute : filled.route path = .ok route) (hsteps : route.steps = first ++ [other])
    (hleads : Leads filled route.start first folder) (hfolder : filled.isFolderAt folder = true)
    (hother : isDots other = false) (hdots : isDots last = false)
    (hentry : filled.get? (folder ++ [other]) = some entry) (hkind : entry ≠ .folder)
    (hfile : (∀ aim, entry ≠ .link aim) → entry = .file (.text text))
    (h : Leads (filled.move (folder ++ [other]) (folder ++ [last]) entry) folder
      (last :: rest) x) :
    rest = [] ∧ (filled.move (folder ++ [other]) (folder ++ [last]) entry).Holds text x := by
  have hafter := get?_move (t := filled) (a := folder ++ [other]) (b := folder ++ [last])
    (by simp) (by simp) entry
  have hthere := hafter (folder ++ [last])
  rw [if_pos rfl] at hthere
  by_cases hlink : ∃ aim, entry = .link aim
  · obtain ⟨aim, rfl⟩ := hlink
    obtain ⟨p, hne, rfl, haim⟩ :=
      leads_of_fillFile hfill hroute hsteps hother hleads hfolder hentry
    have hfilled := get?_fill (t := before) hne (.text text)
    cases h with
    | step _ hrest =>
    rw [stepFrom_link hdots hthere] at hrest
    refine Leads.ends hdots hthere (fun hp => ?_) (fun y hy => ?_) haim hrest haim
    · rw [Bare, hafter, if_neg hp, hfilled]
      split
      · exact .inl rfl
      · exact .inr (if_pos (.inl rfl))
    · rw [Bare, hafter, if_neg hy, hfilled]
      split
      · exact .inl (.inl rfl)
      · split
        · exact .inl (.inr rfl)
        · exact .inr rfl
  · obtain rfl := hfile fun aim heq => hlink ⟨aim, heq⟩
    obtain ⟨rfl, rfl⟩ := h.of_final hdots (final_of_file hthere)
    exact ⟨rfl, Bare.holds (.inr hthere)⟩

theorem routes_beside {path : Path} {route beside : Route} {last : String}
    (hroute : t.route path = .ok route) (hbeside : t.route (temporary path) = .ok beside)
    (hslash : route.slash = false) (hlast : route.steps.getLast? = some last)
    (hdots : isDots last = false) :
    ∃ init dots, route.steps = init ++ dots ++ [last] ∧ (∀ dot ∈ dots, dot = ".") ∧
      beside.steps = init ++ [last ++ ".tmp"] ∧ beside.start = route.start := by
  obtain rfl := route_eq_ok hroute
  obtain rfl := route_eq_ok hbeside
  obtain ⟨init, dots, hway, hidle, htemporary, hstart⟩ := temporary_way hslash hlast hdots
  exact ⟨init, dots, hway, hidle, htemporary, hstart _⟩

/-- What is left when a text has been written at a path. The way of the path without its last name
leads to the folder `into`, if it leads to a folder. There the name of the temporary file is free
again, or it is another name of the file that has been written, and whoever passes the last name
comes to nothing but a file with the text, and no further. -/
structure Written (t : Tree) (path : Path) (text : String) (into : Address) (last : String) :
    Prop where
  slash : endsInSlash path.text = false
  ends : (stepsOf path.text).getLast? = some last
  dots : isDots last = false
  short : ¬ t.limits.name < (last ++ ".tmp").utf8ByteSize
  beside : ∃ route, t.route (temporary path) = .ok route
  freed : t.get? (into ++ [last ++ ".tmp"]) = none ∨
    t.shares (into ++ [last ++ ".tmp"]) (into ++ [last]) = true
  kind : t.isFolderAt (into ++ [last]) = false
  reached : ∀ x, Leads t (startOf t.here path.text) (stepsOf path.text).dropLast x →
    t.isFolderAt x = true → x = into
  passed : ∀ rest x, Leads t into (last :: rest) x → rest = [] ∧ t.Holds text x

theorem written_of_write {path : Path} {text : String} (h : t.write path text = (.ok (), t')) :
    ∃ into last, t'.Written path text into last := by
  obtain ⟨before, filled, -, hfill, hmove⟩ := write_eq_ok h
  obtain ⟨beside, route, a, b, entry, hbeside, hroute, ha, hb, hentry, hkind, hslash, -, rfl⟩ :=
    moveFile_eq_ok hmove
  obtain ⟨_, name, hfrom⟩ := targets_of_target ha
  obtain ⟨folder, first, other, hother, hotherDots, hotherSteps, hfilling, hfolder⟩ :=
    exists_leads_of_target ha
  obtain ⟨into, way, last, rfl, hdots, hsteps, hinto, -⟩ := exists_leads_of_target hb
  have hlast : route.steps.getLast? = some last := by rw [hsteps, List.getLast?_concat]
  obtain ⟨init, dots, hway, hidle, htemporary, hstart⟩ :=
    routes_beside hroute hbeside hslash hlast hdots
  obtain rfl : way = init ++ dots := List.append_inj_left' (hsteps.symm.trans hway) rfl
  obtain ⟨rfl, heq⟩ := List.append_inj' (hotherSteps.symm.trans htemporary) rfl
  obtain rfl : other = last ++ ".tmp" := List.singleton_inj.mp heq
  obtain rfl : last ++ ".tmp" = name := by simpa [hotherSteps] using hfrom.steps
  -- Both names are in one folder.
  obtain rfl : into = folder := by
    obtain ⟨m, hfirst, hrest⟩ := hinto.split
    exact (hrest.of_dots hidle).trans (hfirst.unique (hstart ▸ hfilling))
  obtain ⟨hdiffers, hplain⟩ := temporary_route hroute hslash hlast hdots hbeside hfrom.steps
  have hmoved := moved_entry hfill hbeside hplain hfrom hentry
  subst hother
  obtain rfl := route_eq_ok hroute
  have hfront : (stepsOf path.text).dropLast = first ++ dots := by
    have hall : stepsOf path.text = first ++ dots ++ [last] := hsteps
    rw [hall, List.dropLast_concat]
  by_cases hshares : filled.shares (into ++ [last ++ ".tmp"]) (into ++ [last]) = true
  · rw [if_pos hshares]
    obtain ⟨old, hfile⟩ := exists_file_of_shares (shares_symm hshares)
    obtain ⟨rfl, -⟩ := hmoved fun aim haim => by simp [haim, hfile] at hentry
    have hthere := get?_fill (t := before) hfrom.ne_nil (.text text) (into ++ [last])
    rw [if_pos (.inr ((shares_fill hfrom.ne_nil _ _ _).symm.trans hshares))] at hthere
    refine ⟨into, last, hslash, hlast, hdots, hfrom.short, ⟨beside, hbeside⟩, .inr hshares,
      (final_of_file hthere).1, fun x hx _ => ?_, fun rest x hmore => ?_⟩
    · exact (hfront ▸ hx).unique hinto
    · obtain ⟨rfl, rfl⟩ := hmore.of_final hdots (final_of_file hthere)
      exact ⟨rfl, Bare.holds (.inr hthere)⟩
  · rw [if_neg hshares]
    have hafter := get?_move (t := filled) (a := into ++ [last ++ ".tmp"]) (b := into ++ [last])
      (by simp) (by simp) entry
    have hpassed : ∀ rest x, Leads (filled.move (into ++ [last ++ ".tmp"]) (into ++ [last]) entry)
        into (last :: rest) x → rest = [] ∧
          (filled.move (into ++ [last ++ ".tmp"]) (into ++ [last]) entry).Holds text x :=
      fun rest x => ends_of_moved hfill hbeside hotherSteps hfilling hfolder hotherDots hdots hentry
        hkind fun hlink => (hmoved hlink).2
    refine ⟨into, last, hslash, hlast, hdots, ?_, ⟨beside, ?_⟩, .inl ?_, ?_,
      fun x hx hthere => ?_, hpassed⟩
    · rw [limits_move]
      exact hfrom.short
    · exact (route_congr (limits_move entry) (here_move entry) _).trans hbeside
    · rw [hafter, if_neg fun heq => hdiffers (List.singleton_inj.mp (List.append_cancel_left heq)),
        if_pos rfl]
    · simp [isFolderAt, hafter, hkind]
    · rw [hfront, here_move] at hx
      refine Leads.agree (b := into ++ [last]) (fun y hy => ?_) ?_ hx hinto hthere
      · by_cases hgone : y = into ++ [last ++ ".tmp"]
        · exact .inl (final_of_none (by rw [hafter, if_neg hy, if_pos hgone]))
        · exact .inr (by rw [hafter, if_neg hy, if_neg hgone])
      · intro c step rest y hmet hname hmore
        obtain ⟨rfl, hsame⟩ := List.append_inj' hmet rfl
        cases hsame
        exact (hpassed rest y hmore).2.1

/-- Nothing but what has been written can be read then. It may be that nothing can be read at all,
since a link in the place of the temporary file may have led to the very file that is replaced. -/
theorem Written.text_of_read {path : Path} {text found last : String} {into : Address}
    (h : t.Written path text into last) (hread : t.read path = .ok found) : found = text := by
  obtain ⟨route, x, hroute, hleads, hfound⟩ := exists_leads_of_read hread
  obtain rfl := route_eq_ok hroute
  obtain ⟨init, hinit⟩ := List.getLast?_eq_some_iff.mp h.ends
  have hreached := h.reached
  dsimp only at hleads
  rw [hinit] at hleads hreached
  rw [List.dropLast_concat] at hreached
  obtain ⟨m, hfirst, hlast⟩ := hleads.split
  obtain rfl := hreached m hfirst hlast.folder
  exact Contents.text.inj ((h.passed [] x hlast).2.2 _ hfound)

theorem text_of_read_write {path : Path} {text found : String}
    (hwrite : t.write path text = (.ok (), t')) (hread : t'.read path = .ok found) :
    found = text := by
  obtain ⟨into, last, hwritten⟩ := written_of_write hwrite
  exact hwritten.text_of_read hread

end PluginHost.Storage.Tree
