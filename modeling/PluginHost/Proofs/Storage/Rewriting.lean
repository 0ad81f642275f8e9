import PluginHost.Proofs.Storage.Removing
import PluginHost.Proofs.Storage.Spelling

/-!
Writing a file a second time. If anything can be read where a text has been written, then another
text can be written there, and is read back: the way to the folder is open, nothing stands in the
place of the temporary file but perhaps another name of the file, and what stands in the place of
the file is not on the way.
-/

namespace PluginHost.Storage.Tree

variable {t t' : Tree} {a b f x : Address} {init others more steps : List String} {path : Path}
  {last step : String} {budget : Nat}

/-! The front part of a way. -/

/-- From where its front part stops, a way goes on with what is left of it. -/
inductive Fronts (t : Tree) (init : List String) (a : Address) : Stop → Prop
  | folder {f : Address} (hfolder : t.isFolderAt f = true)
      (hsame : ∀ more, t.advance false a (init ++ more) = t.advance false f more) :
      Fronts t init a (.entry f)
  | link {f : Address} {aim : String} {rest : List String}
      (hsame : ∀ more, t.advance false a (init ++ more) = .link f aim (rest ++ more)) :
      Fronts t init a (.link f aim (rest ++ ["."]))
  | fault {fault : Fault}
      (hsame : ∀ more, more ≠ [] → t.advance false a (init ++ more) = .fault fault) :
      Fronts t init a (.fault fault)

theorem Fronts.earlier {stop : Stop} (h : Fronts t init b stop)
    (hsame : ∀ more, t.advance false a (others ++ more) = t.advance false b (init ++ more)) :
    Fronts t others a stop := by
  cases h with
  | folder hfolder hnext => exact .folder hfolder fun more => (hsame more).trans (hnext more)
  | link hnext => exact .link fun more => (hsame more).trans (hnext more)
  | fault hnext => exact .fault fun more hmore => (hsame more).trans (hnext more hmore)

theorem fronts_of_not_folder (hfolder : t.isFolderAt a = false) (init : List String) :
    Fronts t init a (t.advance false a (init ++ ["."])) := by
  have hfault : ∀ more, more ≠ [] → t.advance false a (init ++ more) = .fault .notFolder := by
    intro more hmore
    obtain ⟨step, rest, hsteps⟩ := List.exists_cons_of_ne_nil (List.append_ne_nil_of_right_ne_nil init hmore)
    rw [hsteps, advance_not_folder hfolder]
  rw [hfault _ (by simp)]
  exact .fault hfault

theorem fronts_advance (t : Tree) (init : List String) (a : Address) :
    Fronts t init a (t.advance false a (init ++ ["."])) := by
  induction init generalizing a with
  | nil =>
      cases hfolder : t.isFolderAt a with
      | false => exact fronts_of_not_folder hfolder []
      | true =>
          rw [List.nil_append, advance_here hfolder, advance]
          exact .folder hfolder fun _ => rfl
  | cons step init ih =>
      cases hfolder : t.isFolderAt a with
      | false => exact fronts_of_not_folder hfolder (step :: init)
      | true =>
          by_cases hhere : step = "."
          · subst hhere
            rw [List.cons_append, advance_here hfolder]
            exact (ih a).earlier fun more => advance_here hfolder _
          by_cases hup : step = ".."
          · subst hup
            rw [List.cons_append, advance_up hfolder]
            exact (ih a.dropLast).earlier fun more => advance_up hfolder _
          have hname := fun rest => @advance_name t false a step rest hfolder
            (by simp [isDots, hhere, hup]) (by simp)
          by_cases hlong : t.limits.name < step.utf8ByteSize
          · have hfault : ∀ more, t.advance false a (step :: init ++ more) = .fault .nameTooLong :=
              fun more => (hname _).trans (if_pos hlong)
            rw [hfault]
            exact .fault fun more _ => hfault more
          simp only [if_neg hlong] at hname
          cases hentry : t.get? (a ++ [step]) with
          | none =>
              have hfault : ∀ more, more ≠ [] →
                  t.advance false a (step :: init ++ more) = .fault .missing := by
                intro more hmore
                rw [List.cons_append, hname, hentry]
                simp [hmore]
              rw [hfault _ (by simp)]
              exact .fault hfault
          | some entry =>
              cases entry with
              | link aim =>
                  have hlink : ∀ more, t.advance false a (step :: init ++ more) =
                      .link a aim (init ++ more) := fun more => by
                    rw [List.cons_append, hname, hentry]
                  rw [hlink]
                  exact .link hlink
              | folder | file =>
                  have hpass : ∀ more, t.advance false a (step :: init ++ more) =
                      t.advance false (a ++ [step]) (init ++ more) := fun more => by
                    rw [List.cons_append, hname, hentry]
                  rw [hpass]
                  exact (ih _).earlier hpass

/-- The front part of a way leads to a folder, also for its own sake, or no way that goes on from it
leads anywhere. -/
theorem lead_front (t : Tree) (budget : Nat) (a : Address) (init : List String) :
    (∃ f, t.lead false budget false a (init ++ ["."]) = .ok (.taken f) ∧
      ∀ slash, t.lead false budget slash a init = .ok (.taken f)) ∨
    ∀ making slash more, (making && slash) = false → more ≠ [] →
      ∃ fault, t.lead making budget slash a (init ++ more) = .error fault := by
  have hfronts := fronts_advance t init a
  generalize hstop : t.advance false a (init ++ ["."]) = stop at hfronts
  cases hfronts with
  | @folder f hfolder hsame =>
      have hnow := hsame []
      rw [List.append_nil, advance] at hnow
      refine .inl ⟨f, ?_, fun slash => ?_⟩
      · rw [lead, Bool.false_and, hstop]
        rfl
      · rw [lead, Bool.false_and, hnow]
        simp [hfolder]
  | @fault fault hsame =>
      refine .inr fun making slash more hopen hmore => ⟨fault, ?_⟩
      rw [lead, hopen, hsame more hmore]
  | @link f aim rest hsame =>
      cases budget with
      | zero =>
          refine .inr fun making slash more hopen hmore => ⟨.tooManyLinks, ?_⟩
          rw [lead, hopen, hsame]
      | succ budget =>
          by_cases haim : aim = ""
          · refine .inr fun making slash more hopen hmore => ⟨.missing, ?_⟩
            rw [lead, hopen, hsame]
            simp [haim]
          have hnext : ∀ making slash more, (making && slash) = false →
              t.lead making (budget + 1) slash a (init ++ more) =
                t.lead making budget (slash || ((rest ++ more).isEmpty && endsInSlash aim))
                  (startOf f aim) (stepsOf aim ++ rest ++ more) := by
            intro making slash more hopen
            rw [lead, hopen, hsame]
            simp [haim]
          rcases lead_front t budget (startOf f aim) (stepsOf aim ++ rest) with
            ⟨g, hdot, hfront⟩ | hfault
          · refine .inl ⟨g, ?_, fun slash => ?_⟩
            · have hmore : (rest ++ ["."]).isEmpty = false := by cases rest <;> rfl
              rw [hnext _ _ _ rfl, hmore]
              exact hdot
            · have hlead := hnext false slash [] rfl
              rw [List.append_nil, List.append_nil, List.append_nil] at hlead
              rw [hlead, hfront]
          · refine .inr fun making slash more hopen hmore => ?_
            have hlast : (rest ++ more).isEmpty = false := by simp [hmore]
            rw [hnext making slash more hopen, hlast, Bool.false_and, Bool.or_false]
            exact hfault making slash more hopen hmore

theorem exists_lead_front {making slash : Bool} {place : Place} (hopen : (making && slash) = false)
    (hmore : more ≠ []) (h : t.lead making budget slash a (init ++ more) = .ok place) :
    ∃ f, t.lead false budget false a (init ++ ["."]) = .ok (.taken f) := by
  rcases lead_front t budget a init with ⟨f, hdot, -⟩ | hfault
  · exact ⟨f, hdot⟩
  · obtain ⟨fault, hfault⟩ := hfault making slash more hopen hmore
    rw [hfault] at h
    cases h

theorem lead_of_front (h : t.lead false budget false a (init ++ ["."]) = .ok (.taken f))
    (slash : Bool) : t.lead false budget slash a init = .ok (.taken f) := by
  rcases lead_front t budget a init with ⟨g, hdot, hfront⟩ | hfault
  · rw [hfront, ← hdot, h]
  · obtain ⟨fault, hfault⟩ := hfault false false ["."] rfl (by simp)
    rw [hfault] at h
    cases h

theorem leads_of_front (h : t.lead false budget false a (init ++ ["."]) = .ok (.taken f)) :
    Leads t a init f := by
  obtain ⟨m, hinto, hdot⟩ := (leads_lead h).split
  obtain rfl : f = m := hdot.of_dots (by simp)
  exact hinto

/-! Trees that differ at one address. -/

/-- The trees differ at `b` at most, and no way in `t` passes `b` on to a folder. -/
structure AgreeBut (t t' : Tree) (b : Address) : Prop where
  limits : t'.limits = t.limits
  here : t'.here = t.here
  same : ∀ y, y ≠ b → t'.get? y = t.get? y
  kind : t.isFolderAt b = false
  passed : ∀ c step rest x, c ++ [step] = b → isDots step = false → Leads t c (step :: rest) x →
    t.isFolderAt x = false

theorem AgreeBut.folder (h : AgreeBut t t' b) (ha : t.isFolderAt a = true) :
    t'.isFolderAt a = true := by
  have hne : a ≠ b := by
    rintro rfl
    rw [h.kind] at ha
    cases ha
  rw [isFolderAt_iff, h.same a hne]
  exact isFolderAt_iff.mp ha

theorem AgreeBut.advance_eq (h : AgreeBut t t' b) (hleads : Leads t a steps x)
    (hx : t.isFolderAt x = true) : t'.advance false a steps = t.advance false a steps := by
  induction steps generalizing a with
  | nil => rfl
  | cons step rest ih =>
      cases hleads with
      | step hfolder hrest =>
      have hfolder' := h.folder hfolder
      by_cases hhere : step = "."
      · subst hhere
        rw [advance_here hfolder, advance_here hfolder']
        exact ih hrest
      by_cases hup : step = ".."
      · subst hup
        rw [advance_up hfolder, advance_up hfolder']
        exact ih hrest
      have hdots : isDots step = false := by simp [isDots, hhere, hup]
      have hne : a ++ [step] ≠ b := by
        intro hmet
        simp [h.passed a step rest x hmet hdots (.step hfolder hrest)] at hx
      rw [advance_name hfolder hdots (by simp), advance_name hfolder' hdots (by simp), h.limits,
        h.same _ hne]
      split
      · rfl
      cases hentry : t.get? (a ++ [step]) with
      | none => rfl
      | some entry =>
          cases entry with
          | link aim => rfl
          | folder | file =>
              rw [stepFrom_name hdots (by simp [hentry])] at hrest
              exact ih hrest

/-- What leads to a folder in one tree leads there in the other. -/
theorem AgreeBut.lead_eq (h : AgreeBut t t' b) {slash : Bool}
    (hlead : t.lead false budget slash a steps = .ok (.taken x)) (hx : t.isFolderAt x = true) :
    t'.lead false budget slash a steps = .ok (.taken x) := by
  have hadvance := h.advance_eq (leads_lead hlead) hx
  fun_induction lead t false budget slash a steps with
  | case2 budget slash a steps y hstop hthere =>
      cases hlead
      rw [Bool.false_and] at hstop
      rw [lead, Bool.false_and, hadvance, hstop]
      simp [h.folder hx]
  | case7 slash a steps f aim rest hstop budget haim ih =>
      rw [Bool.false_and] at hstop
      rw [lead, Bool.false_and, hadvance, hstop]
      simp only [if_neg haim]
      exact ih hlead (h.advance_eq (leads_lead hlead) hx)
  | _ => cases hlead

/-! Folders that are there. -/

/-- A route acts in the folder to which its front part leads. -/
theorem target_of_front {route : Route} {folder : Address} (hsteps : route.steps = init ++ [last])
    (hlead : t.lead false t.limits.links false route.start (init ++ ["."]) = .ok (.taken folder))
    (hdots : isDots last = false) (hshort : ¬ t.limits.name < last.utf8ByteSize) (dots : Fault) :
    t.target route dots = .ok (folder ++ [last]) := by
  have hholder : t.holder route = .ok (folder, last) := by
    rw [holder, hsteps, List.dropLast_concat, hlead]
    simp [bind, Except.bind]
  rw [target, hholder]
  simp [bind, Except.bind, hdots, hshort]

theorem lead_here (hfolder : t.isFolderAt a = true) (making : Bool) (budget : Nat) :
    t.lead making budget false a ["."] = .ok (.taken a) := by
  rw [lead, Bool.and_false, advance_here hfolder, advance]
  rfl

/-- The way to a folder that is there ends with dots or with a name that is taken. -/
theorem exists_holder {route : Route} (hx : t.isFolderAt x = true)
    (hlead : t.lead false t.limits.links route.slash route.start route.steps = .ok (.taken x)) :
    ∃ folder last, t.holder route = .ok (folder, last) ∧
      (isDots last = false → t.get? (folder ++ [last]) ≠ none) := by
  rcases List.eq_nil_or_concat route.steps with hnil | ⟨init, last, hsteps⟩
  · rw [hnil] at hlead
    obtain ⟨⟩ := leads_lead hlead
    refine ⟨route.start, ".", ?_, fun hdots => absurd hdots (by decide)⟩
    rw [holder, hnil, List.dropLast_nil, List.nil_append, lead_here hx]
    rfl
  · rw [List.concat_eq_append] at hsteps
    rw [hsteps] at hlead
    obtain ⟨folder, hfront⟩ := exists_lead_front rfl (List.cons_ne_nil last []) hlead
    refine ⟨folder, last, ?_, fun hdots => ?_⟩
    · rw [holder, hsteps, List.dropLast_concat, hfront, List.getLast?_concat]
      rfl
    · obtain ⟨m, hleads, -, hname⟩ := finds_lead hdots hlead
      rwa [hleads.unique (leads_of_front hfront)] at hname

/-- A folder that is there is not made, and nothing is missing on the way to it. -/
theorem makeFolder_of_folder (h : t.isFolder path = true) :
    ∃ fault, t.makeFolder path = .error fault ∧ fault ≠ .missing := by
  obtain ⟨x, hlocate, hx⟩ := isFolder_iff.mp h
  obtain ⟨route, hroute, hlead⟩ := locate_eq_ok hlocate
  obtain ⟨folder, last, hholder, hname⟩ := exists_holder hx hlead
  simp only [makeFolder, hroute, target, hholder, bind, Except.bind]
  cases hdots : isDots last with
  | true => exact ⟨.alreadyThere, rfl, by simp⟩
  | false =>
      obtain ⟨entry, hentry⟩ := Option.ne_none_iff_exists'.mp (hname hdots)
      by_cases hlong : t.limits.name < last.utf8ByteSize
      · exact ⟨.nameTooLong, by simp [hlong], by simp⟩
      · exact ⟨.alreadyThere, by simp [hlong, hentry], by simp⟩

theorem makeFolders_of_folder (h : t.isFolder path = true) (outer : List Path) :
    t.makeFolders (path :: outer) = (.ok (), t) := by
  obtain ⟨fault, hmake, hfault⟩ := makeFolder_of_folder h
  rw [makeFolders, hmake]
  dsimp only
  split
  · rfl
  · split
    · rename_i heq
      exact absurd (Except.error.inj heq) hfault
    · rw [hmake]

theorem exists_ancestors (path : Path) : ∃ outer, path.ancestors = path :: outer := by
  unfold Path.ancestors
  generalize path.pieces.length = fuel
  cases fuel with
  | zero => exact ⟨[], rfl⟩
  | succ fuel =>
      rw [Path.ancestors.go]
      split
      · exact ⟨[], rfl⟩
      · exact ⟨_, rfl⟩

theorem makeParents_of_folder {parent : Path} (hparent : path.parent = some parent)
    (h : parent.text ≠ "" → t.isFolder parent = true) : t.makeParents path = (.ok (), t) := by
  obtain ⟨outer, houter⟩ := exists_ancestors parent
  rw [makeParents, hparent]
  dsimp only
  rw [houter]
  by_cases hempty : parent.text = ""
  · rw [makeFolders, if_pos hempty]
  · exact makeFolders_of_folder (h hempty) outer

/-! Files in a folder that is there. -/

section

variable {route : Route} {folder : Address} {contents : Contents}

theorem fillFile_of_front (hroute : t.route path = .ok route) (hslash : route.slash = false)
    (hsteps : route.steps = init ++ [last])
    (hfront : t.lead false t.limits.links false route.start (init ++ ["."]) = .ok (.taken folder))
    (hdots : isDots last = false) (hshort : ¬ t.limits.name < last.utf8ByteSize)
    (hfinal : t.Final (folder ++ [last])) :
    t.fillFile path contents = .ok (t.fill (folder ++ [last]) contents) := by
  obtain ⟨hfolder, left, hlast⟩ := lead_last hfront
  have hlead : t.lead true t.limits.links route.slash route.start route.steps =
      .ok (if (t.get? (folder ++ [last])).isSome then .taken (folder ++ [last])
        else .free folder last) := by
    rw [hslash, hsteps, hlast t (.refl t), lead_name hfolder hdots hshort hfinal.2]
  rw [fillFile, hroute]
  simp only [bind, Except.bind, hlead]
  split <;> rename_i heq <;> split at heq <;> cases heq
  · rfl
  · rw [if_neg (by simp [hfinal.1])]

/-- Filling a file changes only files. -/
theorem scaffold_fill (hfinal : t.Final a) (contents : Contents) :
    t.Scaffold (t.fill a contents) := by
  refine scaffold_of_kept (by simp) (by simp) fun x entry hkind hx => ?_
  rw [get?_fill (ne_nil_of_not_folder hfinal.1), if_neg, hx]
  rintro (rfl | hshares)
  · obtain ⟨old, heq⟩ := hfinal.exists_file hx
    exact hkind old heq
  · obtain ⟨old, hold⟩ := exists_file_of_shares hshares
    exact hkind old (Option.some.inj (hx.symm.trans hold))

theorem scaffold_erase (hfinal : t.Final a) : t.Scaffold (t.erase a) := by
  refine scaffold_of_kept rfl rfl fun x entry hkind hx => ?_
  rw [get?_erase (ne_nil_of_not_folder hfinal.1), if_neg, hx]
  rintro rfl
  obtain ⟨old, heq⟩ := hfinal.exists_file hx
  exact hkind old heq

theorem moveFile_of_targets {source destination : Path} {beside : Route}
    (hsource : t.route source = .ok beside) (ha : t.target beside .busy = .ok a)
    (hdestination : t.route destination = .ok route) (hb : t.target route .busy = .ok b)
    (hfile : t.get? a = some (.file contents)) (hslash : route.slash = false)
    (hkind : t.isFolderAt b = false) :
    t.moveFile source destination =
      .ok (if t.shares a b then t else t.move a b (.file contents)) := by
  simp only [moveFile, bind, Except.bind, hsource, ha, hdestination, hb, hfile, hslash, hkind,
    Bool.false_eq_true, if_false]
  exact (apply_ite Except.ok ..).symm

theorem lead_front_of_scaffold (hscaffold : t.Scaffold t')
    (hfront : t.lead false t.limits.links false a (init ++ ["."]) = .ok (.taken f)) :
    t'.lead false t'.limits.links false a (init ++ ["."]) = .ok (.taken f) := by
  obtain ⟨hfolder, left, hlast⟩ := lead_last hfront
  rw [hscaffold.limits, hlast t' hscaffold, lead_here (hscaffold.isFolderAt hfolder)]

end

theorem route_of_join {name : String} {route : Route} (hname : Path.PlainName name)
    (hne : path.text ≠ "") (h : t.route (path.join name) = .ok route) :
    t.route path = .ok ⟨startOf t.here path.text, stepsOf path.text, endsInSlash path.text⟩ := by
  have hsize := Path.size_join (p := path) hname
  have hchars : ∀ c ∈ path.text.toList, c ∈ (path.join name).text.toList := by
    intro c hc
    unfold Path.join
    rw [Path.isAbsolute_eq_false hname, if_neg Bool.false_ne_true]
    split <;> simp [hc]
  unfold Tree.route at h ⊢
  split at h
  · cases h
  · rename_i hnul
    split at h
    · cases h
    · split at h
      · cases h
      · rename_i hlong
        rw [if_neg fun hin => hnul (hchars _ hin), if_neg hne, if_neg (by omega)]

/-! Writing again. -/

/-- The folder of a path is there, and its parent leads to it. -/
structure Ready (t : Tree) (path parent : Path) (into : Address) (dots : List String)
    (last : String) : Prop where
  above : path.parent = some parent
  beside : temporary path = parent.join (last ++ ".tmp")
  plain : Path.PlainName (last ++ ".tmp")
  steps : stepsOf path.text = stepsOf parent.text ++ dots ++ [last]
  start : ∀ base, startOf base parent.text = startOf base path.text
  front : t.lead false t.limits.links false (startOf t.here path.text)
    (stepsOf parent.text ++ ["."]) = .ok (.taken into)
  dotted : t.lead false t.limits.links false (startOf t.here path.text)
    (stepsOf parent.text ++ dots ++ ["."]) = .ok (.taken into)

section

variable {parent : Path} {into : Address} {dots : List String} {text found : String}

theorem Written.ready (h : t.Written path text into last) (hread : t.read path = .ok found) :
    ∃ parent dots, t.Ready path parent into dots last := by
  obtain ⟨parent, dots, hparent, hsteps, hidle, hstart, hbeside, hmore⟩ :=
    exists_parent h.slash h.ends h.dots
  obtain ⟨x, hlocate, -⟩ := read_eq_ok.mp hread
  obtain ⟨route, hroute, hlead⟩ := locate_eq_ok hlocate
  obtain rfl := route_eq_ok hroute
  have hreached := h.reached
  dsimp only at hlead
  rw [hsteps] at hlead hreached
  rw [List.dropLast_concat] at hreached
  obtain ⟨f, hdotted⟩ := exists_lead_front rfl (List.cons_ne_nil last []) hlead
  obtain rfl := hreached f (leads_of_front hdotted) (lead_last hdotted).1
  rw [List.append_assoc] at hlead
  obtain ⟨g, hfront⟩ := exists_lead_front rfl (by simp) hlead
  obtain ⟨m, hinto, hdots⟩ := (leads_of_front hdotted).split
  obtain rfl := hdots.of_dots hidle
  obtain rfl := (leads_of_front hfront).unique hinto
  exact ⟨parent, dots, hparent, hbeside, hmore, hsteps, hstart, hfront, hdotted⟩

theorem Ready.makeParents (h : t.Ready path parent into dots last)
    (hbeside : ∃ route, t.route (temporary path) = .ok route) :
    t.makeParents path = (.ok (), t) := by
  refine makeParents_of_folder h.above fun hne => isFolder_iff.mpr ⟨into, ?_, (lead_last h.front).1⟩
  obtain ⟨route, hroute⟩ := hbeside
  rw [h.beside] at hroute
  refine locate_of_lead (route_of_join h.plain hne hroute) ?_
  rw [h.start]
  exact lead_of_front h.front _

theorem Ready.beside_eq (h : t.Ready path parent into dots last) {route : Route}
    (hroute : t.route (temporary path) = .ok route) :
    route = ⟨startOf t.here path.text, stepsOf parent.text ++ [last ++ ".tmp"], false⟩ := by
  obtain ⟨-, -, front, htext⟩ := Path.join_eq h.plain parent
  rw [route_eq_ok hroute, h.beside, stepsOf_join h.plain, startOf_join h.plain, h.start,
    endsInSlash_eq_false htext h.plain]

/-- The tree with a file in this place, once the temporary file has come and gone. It stays if it is
another name of the file. -/
def replaced (t : Tree) (into : Address) (last text : String) : Tree :=
  let filled := t.fill (into ++ [last ++ ".tmp"]) (.text text)
  if filled.shares (into ++ [last ++ ".tmp"]) (into ++ [last]) then filled
  else filled.move (into ++ [last ++ ".tmp"]) (into ++ [last]) (.file (.text text))

theorem replaced_of_shares (h : t.shares (into ++ [last ++ ".tmp"]) (into ++ [last]) = true)
    (text : String) :
    t.replaced into last text = t.fill (into ++ [last ++ ".tmp"]) (.text text) :=
  if_pos ((shares_fill (by simp) _ _ _).trans h)

theorem replaced_of_free (hfree : t.get? (into ++ [last ++ ".tmp"]) = none) (text : String) :
    t.replaced into last text = (t.fill (into ++ [last ++ ".tmp"]) (.text text)).move
      (into ++ [last ++ ".tmp"]) (into ++ [last]) (.file (.text text)) :=
  if_neg (by simp [shares_fill, shares_of_none hfree])

theorem get?_replaced (hfree : t.get? (into ++ [last ++ ".tmp"]) = none) (text : String)
    (y : Address) : (t.replaced into last text).get? y =
      if y = into ++ [last] then some (.file (.text text)) else t.get? y := by
  rw [replaced_of_free hfree, get?_move (by simp) (by simp), get?_fill (by simp),
    shares_of_none hfree]
  split
  · rfl
  · split
    · rename_i heq
      rw [heq, hfree]
    · simp [*]

theorem Written.short_last (h : t.Written path text into last) :
    ¬ t.limits.name < last.utf8ByteSize := by
  have hlong := h.short
  rw [String.utf8ByteSize_append] at hlong
  omega

theorem Written.final_beside (h : t.Written path text into last) :
    t.Final (into ++ [last ++ ".tmp"]) := by
  rcases h.freed with hfree | hshares
  · exact final_of_none hfree
  · obtain ⟨contents, hfile⟩ := exists_file_of_shares (shares_symm hshares)
    exact final_of_file hfile

theorem Written.write_eq (h : t.Written path text into last)
    (hready : t.Ready path parent into dots last) {route : Route}
    (hroute : t.route path = .ok route) (other : String) :
    t.write path other = (.ok (), t.replaced into last other) := by
  obtain ⟨beside, hbeside⟩ := h.beside
  have hparents := hready.makeParents ⟨beside, hbeside⟩
  obtain rfl := hready.beside_eq hbeside
  obtain rfl := route_eq_ok hroute
  have hname := hready.plain.isDots_eq_false
  have hfinal := h.final_beside
  have hfill : t.fillFile (temporary path) (.text other) =
      .ok (t.fill (into ++ [last ++ ".tmp"]) (.text other)) :=
    fillFile_of_front hbeside rfl rfl hready.front hname h.short hfinal
  have hscaffold := scaffold_fill hfinal (.text other)
  have hfilled := get?_fill (t := t) (a := into ++ [last ++ ".tmp"]) (by simp) (.text other)
  have hmove : (t.fill (into ++ [last ++ ".tmp"]) (.text other)).moveFile (temporary path) path =
      .ok (t.replaced into last other) := by
    refine moveFile_of_targets ((hscaffold.route _).trans hbeside) ?_
      ((hscaffold.route _).trans hroute) ?_ ?_ h.slash ?_
    · exact target_of_front rfl (lead_front_of_scaffold hscaffold hready.front) hname
        (hscaffold.limits ▸ h.short) .busy
    · exact target_of_front hready.steps (lead_front_of_scaffold hscaffold hready.dotted) h.dots
        (hscaffold.limits ▸ h.short_last) .busy
    · rw [hfilled, if_pos (.inl rfl)]
    · rw [isFolderAt, hfilled]
      split
      · rfl
      · exact h.kind
  rw [write, hparents]
  simp only [hfill, hmove]

theorem agreeBut_replaced (h : t.Written path text into last)
    (hfree : t.get? (into ++ [last ++ ".tmp"]) = none) (other : String) :
    AgreeBut t (t.replaced into last other) (into ++ [last]) where
  limits := by simp [replaced_of_free hfree]
  here := by simp [replaced_of_free hfree]
  same y hy := by rw [get?_replaced hfree, if_neg hy]
  kind := h.kind
  passed c step rest x hmet _ hmore := by
    obtain ⟨rfl, hsame⟩ := List.append_inj' hmet rfl
    cases hsame
    exact (h.passed rest x hmore).2.1

/-- The way to the folder is left open by another write. -/
theorem Written.front_replaced (h : t.Written path text into last)
    (hready : t.Ready path parent into dots last) (other : String) :
    (t.replaced into last other).lead false t.limits.links false (startOf t.here path.text)
      (stepsOf parent.text ++ dots ++ ["."]) = .ok (.taken into) := by
  rcases h.freed with hfree | hshares
  · exact (agreeBut_replaced h hfree other).lead_eq hready.dotted (lead_last hready.dotted).1
  · rw [replaced_of_shares hshares]
    have hscaffold := scaffold_fill h.final_beside (.text other)
    exact hscaffold.limits ▸ lead_front_of_scaffold hscaffold hready.dotted

theorem Written.get?_replaced_self (h : t.Written path text into last) (other : String) :
    (t.replaced into last other).get? (into ++ [last]) = some (.file (.text other)) := by
  rcases h.freed with hfree | hshares
  · rw [get?_replaced hfree, if_pos rfl]
  · rw [replaced_of_shares hshares, get?_fill (by simp), if_pos (.inr hshares)]

@[simp] theorem limits_replaced (text : String) :
    (t.replaced into last text).limits = t.limits := by
  simp only [replaced]
  split <;> simp

@[simp] theorem here_replaced (text : String) : (t.replaced into last text).here = t.here := by
  simp only [replaced]
  split <;> simp

/-- Where what has been written can be read, another text can be written, and is read then. -/
theorem Written.rewrite (h : t.Written path text into last) (hread : t.read path = .ok found)
    (other : String) : ∃ t', t.write path other = (.ok (), t') ∧ t'.read path = .ok other := by
  obtain ⟨parent, dots, hready⟩ := h.ready hread
  obtain ⟨x, hlocate, -⟩ := read_eq_ok.mp hread
  obtain ⟨route, hroute, -⟩ := locate_eq_ok hlocate
  refine ⟨t.replaced into last other, h.write_eq hready hroute other, ?_⟩
  obtain ⟨hfolder', left, hlast⟩ := lead_last (h.front_replaced hready other)
  have hfile := h.get?_replaced_self other
  obtain rfl := route_eq_ok hroute
  refine read_eq_ok.mpr ⟨into ++ [last], ?_, hfile⟩
  have hlead : (t.replaced into last other).lead false t.limits.links false
      (startOf t.here path.text) (stepsOf path.text) = .ok (.taken (into ++ [last])) := by
    rw [hready.steps, hlast _ (.refl _), lead_name hfolder' h.dots
      (by simpa using h.short_last) (by simp [hfile]), hfile]
    rfl
  refine locate_of_lead ((route_congr (by simp) (by simp) path).trans hroute) ?_
  rw [limits_replaced]
  exact h.slash ▸ hlead

end

theorem write_again {text found : String} (hwrite : t.write path text = (.ok (), t'))
    (hread : t'.read path = .ok found) (other : String) :
    ∃ t'', t'.write path other = (.ok (), t'') ∧ t''.read path = .ok other := by
  obtain ⟨into, last, hwritten⟩ := written_of_write hwrite
  exact hwritten.rewrite hread other

end PluginHost.Storage.Tree
