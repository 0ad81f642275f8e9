import PluginHost.Proofs.Collection
import PluginHost.Proofs.Outcome
import PluginHost.Proofs.Path
import PluginHost.Proofs.Storage.Sharing

/-!
A file that has been written is read back. What could come in between are links that the writing
itself takes away: the temporary file may have been one, and with it goes what it led to.
-/

namespace PluginHost.Storage

def Place.address : Place → Address
  | .taken a => a
  | .free folder name => folder ++ [name]

namespace Tree

variable {t t' : Tree}

/-- Every link is left as it was, but for one in the place of which `path` now leads to a file. -/
def KeepsLinks (t t' : Tree) (path : Path) : Prop :=
  ∀ a aim, t.get? a = some (.link aim) → t'.get? a = some (.link aim) ∨
    t'.locate path = .ok a ∧ ∃ contents, t'.get? a = some (.file contents)

theorem keepsLinks_of_entries (h : ∀ entry ∈ t.entries.entries, ∀ aim, entry.2 ≠ .link aim)
    (t' : Tree) (path : Path) : t.KeepsLinks t' path := by
  intro a aim hlink
  unfold get? at hlink
  split at hlink
  · cases hlink
  · exact absurd rfl (h (a, .link aim) (Table.mem_entries_of_get? hlink) aim)

def LinksFrom (t t' : Tree) : Prop :=
  ∀ a aim, t'.get? a = some (.link aim) → t.get? a = some (.link aim)

theorem LinksFrom.trans {t'' : Tree} (h : t.LinksFrom t') (h' : t'.LinksFrom t'') :
    t.LinksFrom t'' :=
  fun a aim => h a aim ∘ h' a aim

/-! Where a route acts. -/

theorem route_eq_ok {path : Path} {route : Route} (h : t.route path = .ok route) :
    route = ⟨startOf t.here path.text, stepsOf path.text, endsInSlash path.text⟩ := by
  unfold Tree.route at h
  split at h
  · cases h
  · split at h
    · cases h
    · split at h
      · cases h
      · exact (Except.ok.inj h).symm

/-- The address `a` has this name in a folder to which the steps before it lead. -/
structure Targets (t : Tree) (route : Route) (a : Address) (folder : Address) (last : String) :
    Prop where
  address : a = folder ++ [last]
  dots : isDots last = false
  short : ¬ t.limits.name < last.utf8ByteSize
  steps : route.steps.getLast? = some last
  leads : ∃ left, ∀ t', t.Scaffold t' → ∀ making,
    t'.lead making t.limits.links false route.start route.steps =
      t'.lead making left false folder [last]
  folder : t.isFolderAt folder = true

theorem target_eq_ok {route : Route} {dots : Fault} {a : Address}
    (h : t.target route dots = .ok a) : ∃ folder init last,
      t.lead false t.limits.links false route.start (init ++ ["."]) = .ok (.taken folder) ∧
        route.steps = init ++ [last] ∧ isDots last = false ∧
        ¬ t.limits.name < last.utf8ByteSize ∧ a = folder ++ [last] := by
  unfold target holder at h
  obtain ⟨⟨folder, step⟩, hholder, h⟩ := bind_eq_ok.mp h
  obtain ⟨place, hlead, hplace⟩ := bind_eq_ok.mp hholder
  cases place with
  | free folder name => cases hplace
  | taken folder =>
      cases hplace
      dsimp only at h
      split at h
      · cases h
      · rename_i hdots
        split at h
        · cases h
        · rename_i hshort
          cases hlast : route.steps.getLast? with
          | none => simp [hlast, isDots] at hdots
          | some last =>
              rw [hlast, Option.getD_some] at h hdots hshort
              obtain ⟨init, hinit⟩ := List.getLast?_eq_some_iff.mp hlast
              rw [hinit, List.dropLast_concat] at hlead
              exact ⟨folder, init, last, hlead, hinit, by simpa using hdots, hshort,
                (Except.ok.inj h).symm⟩

theorem targets_of_target {route : Route} {dots : Fault} {a : Address}
    (h : t.target route dots = .ok a) : ∃ folder last, t.Targets route a folder last := by
  obtain ⟨folder, init, last, hlead, hsteps, hdots, hshort, haddress⟩ := target_eq_ok h
  obtain ⟨hfolder, left, hleft⟩ := lead_last hlead
  refine ⟨folder, last, haddress, hdots, hshort, ?_, ⟨left, fun t' hscaffold making => ?_⟩, hfolder⟩
  · rw [hsteps, List.getLast?_concat]
  · rw [hsteps, hleft t' hscaffold making last]

theorem Targets.ne_nil {route : Route} {a folder : Address} {last : String}
    (h : t.Targets route a folder last) : a ≠ [] := by
  rw [h.address]
  simp

/-- The route leads to its address in every tree that has the folders and links, unless there is a
link at this address. -/
theorem Targets.lead {route : Route} {a folder : Address} {last : String}
    (h : t.Targets route a folder last) (hslash : route.slash = false)
    (hscaffold : t.Scaffold t') (hlink : ∀ aim, t'.get? a ≠ some (.link aim)) (making : Bool) :
    t'.lead making t'.limits.links route.slash route.start route.steps =
      .ok (if (t'.get? a).isSome then .taken a else .free folder last) := by
  obtain ⟨left, hleads⟩ := h.leads
  have haddress := h.address
  rw [hslash, hscaffold.limits, hleads t' hscaffold making]
  rw [haddress] at hlink ⊢
  refine lead_name (hscaffold.isFolderAt h.folder) h.dots ?_ hlink
  rw [hscaffold.limits]
  exact h.short

/-! The steps of writing. -/

theorem makeFolder_eq_ok {path : Path} (h : t.makeFolder path = .ok t') :
    ∃ a, a ≠ [] ∧ t.get? a = none ∧ t' = t.put a .folder := by
  unfold makeFolder at h
  obtain ⟨route, -, h⟩ := bind_eq_ok.mp h
  obtain ⟨a, htarget, h⟩ := bind_eq_ok.mp h
  obtain ⟨folder, last, htargets⟩ := targets_of_target htarget
  split at h
  · cases h
  · rename_i hfree
    exact ⟨a, htargets.ne_nil, hfree, (Except.ok.inj h).symm⟩

/-- Folders have been added, and nothing else has changed. -/
structure Grows (t t' : Tree) : Prop where
  limits : t'.limits = t.limits
  here : t'.here = t.here
  same : ∀ a, t'.get? a = t.get? a ∨ t.get? a = none ∧ t'.get? a = some .folder

theorem Grows.refl (t : Tree) : t.Grows t :=
  ⟨rfl, rfl, fun _ => .inl rfl⟩

theorem Grows.trans {t'' : Tree} (h : t.Grows t') (h' : t'.Grows t'') : t.Grows t'' := by
  refine ⟨h'.limits.trans h.limits, h'.here.trans h.here, fun a => ?_⟩
  rcases h.same a with hfirst | ⟨hnone, hfolder⟩
  · rw [← hfirst]
    exact h'.same a
  · rcases h'.same a with hsecond | ⟨hgone, -⟩
    · exact .inr ⟨hnone, hsecond.trans hfolder⟩
    · simp [hfolder] at hgone

theorem Grows.get?_eq (h : t.Grows t') {a : Address} {entry : Entry} (ha : t.get? a = some entry) :
    t'.get? a = some entry := by
  rcases h.same a with hsame | ⟨hnone, -⟩
  · rw [hsame, ha]
  · simp [hnone] at ha

theorem Grows.scaffold (h : t.Grows t') : t.Scaffold t' :=
  scaffold_of_kept h.limits h.here fun _ _ _ => h.get?_eq

theorem Grows.linksFrom (h : t.Grows t') : t.LinksFrom t' := by
  intro a aim hlink
  rcases h.same a with hsame | ⟨-, hfolder⟩
  · rwa [← hsame]
  · simp [hfolder] at hlink

theorem grows_makeFolder {path : Path} (h : t.makeFolder path = .ok t') : t.Grows t' := by
  obtain ⟨a, ha, hfree, rfl⟩ := makeFolder_eq_ok h
  refine ⟨rfl, rfl, fun x => ?_⟩
  rw [get?_put ha]
  split
  · rename_i heq
    exact .inr ⟨heq ▸ hfree, rfl⟩
  · exact .inl rfl

/-- What holds after each folder that is made holds after all of them. -/
theorem makeFolders_induct {P : Tree → Prop}
    (hmake : ∀ t path t', P t → t.makeFolder path = .ok t' → P t') (h : P t) (paths : List Path) :
    P (t.makeFolders paths).2 := by
  induction paths generalizing t with
  | nil => exact h
  | cons path outer ih =>
      unfold makeFolders
      split
      · exact h
      · dsimp only
        split
        · have houter := ih h
          generalize t.makeFolders outer = answer at houter
          obtain ⟨made, next⟩ := answer
          cases made with
          | error fault => exact houter
          | ok done =>
              dsimp only
              cases hlast : next.makeFolder path with
              | ok last => exact hmake next path last houter hlast
              | error fault => exact houter
        · cases hnext : t.makeFolder path with
          | ok next => exact hmake t path next h hnext
          | error fault => exact h

theorem grows_makeFolders (t : Tree) (paths : List Path) : t.Grows (t.makeFolders paths).2 :=
  makeFolders_induct (fun _ _ _ h hmake => h.trans (grows_makeFolder hmake)) (.refl t) paths

theorem grows_makeParents (t : Tree) (path : Path) : t.Grows (t.makeParents path).2 := by
  unfold makeParents
  split
  · exact .refl t
  · exact grows_makeFolders t _

theorem fillFile_eq_ok {path : Path} {contents : Contents}
    (h : t.fillFile path contents = .ok t') : ∃ route place, t.route path = .ok route ∧
      t.lead true t.limits.links route.slash route.start route.steps = .ok place ∧
      place.address ≠ [] ∧ t' = t.fill place.address contents := by
  unfold fillFile at h
  obtain ⟨route, hroute, h⟩ := bind_eq_ok.mp h
  obtain ⟨place, hlead, h⟩ := bind_eq_ok.mp h
  refine ⟨route, place, hroute, hlead, ?_⟩
  cases place with
  | free folder name => exact ⟨by simp [Place.address], (Except.ok.inj h).symm⟩
  | taken a =>
      dsimp only at h
      split at h
      · cases h
      · rename_i hfolder
        exact ⟨@ne_nil_of_not_folder t a (by simpa using hfolder), (Except.ok.inj h).symm⟩

theorem moveFile_eq_ok {source destination : Path} (h : t.moveFile source destination = .ok t') :
    ∃ sourceRoute route a b entry, t.route source = .ok sourceRoute ∧
      t.route destination = .ok route ∧ t.target sourceRoute .busy = .ok a ∧
      t.target route .busy = .ok b ∧ t.get? a = some entry ∧ entry ≠ .folder ∧
      route.slash = false ∧ t.isFolderAt b = false ∧
      t' = if t.shares a b then t else t.move a b entry := by
  unfold moveFile at h
  obtain ⟨sourceRoute, hsource, h⟩ := bind_eq_ok.mp h
  obtain ⟨a, ha, h⟩ := bind_eq_ok.mp h
  obtain ⟨route, hroute, h⟩ := bind_eq_ok.mp h
  obtain ⟨b, hb, h⟩ := bind_eq_ok.mp h
  cases hentry : t.get? a with
  | none => simp [hentry] at h
  | some entry =>
      refine ⟨sourceRoute, route, a, b, entry, hsource, hroute, ha, hb, hentry, ?_⟩
      rw [hentry] at h
      have hmoved : entry ≠ .folder ∧ (if route.slash = true then Except.error Fault.notFolder
          else if t.isFolderAt b = true then .error .isFolder
          else if t.shares a b = true then .ok t else .ok (t.move a b entry)) = .ok t' := by
        cases entry with
        | folder => cases h
        | file contents => exact ⟨by simp, h⟩
        | link aim => exact ⟨by simp, h⟩
      obtain ⟨hkind, hdone⟩ := hmoved
      split at hdone
      · cases hdone
      · rename_i hslash
        split at hdone
        · cases hdone
        · rename_i hfolder
          rw [← apply_ite Except.ok] at hdone
          exact ⟨hkind, by simpa using hslash, by simpa using hfolder, (Except.ok.inj hdone).symm⟩

theorem route_fillFile {path other : Path} {contents : Contents}
    (h : t.fillFile path contents = .ok t') : t'.route other = t.route other := by
  obtain ⟨_, place, -, -, -, rfl⟩ := fillFile_eq_ok h
  exact route_congr (by simp) (by simp) other

/-! Reading what has been written. -/

/-- The file beside the path has another last name than the path, and no slash at the end. -/
theorem temporary_route {path : Path} {route temporaryRoute : Route} {last other : String}
    (hroute : t.route path = .ok route) (hslash : route.slash = false)
    (hlast : route.steps.getLast? = some last) (hdots : isDots last = false)
    (htemporary : t'.route (temporary path) = .ok temporaryRoute)
    (hother : temporaryRoute.steps.getLast? = some other) :
    other ≠ last ∧ temporaryRoute.slash = false := by
  obtain rfl := route_eq_ok hroute
  obtain rfl := route_eq_ok htemporary
  obtain ⟨before, hpieces, hne, hfree⟩ := exists_pieces hslash hlast
  simp only [isDots, Bool.or_eq_false_iff, beq_eq_false_iff_ne] at hdots
  have hplain : Path.PlainName last := ⟨hne, hdots.1, hdots.2, hfree⟩
  have hname : path.fileName = some last := Path.fileName_of_pieces hpieces hplain
  have hlonger : last.toList.length + 4 = (last ++ ".tmp").toList.length := by
    rw [String.toList_append, List.length_append]
    rfl
  have hmore := hplain.temporary
  have htmp : temporary path = path.withFileName (last ++ ".tmp") := by
    simp [temporary, hname]
  obtain ⟨others, hothers, front, hfront⟩ := Path.withFileName_eq hmore path
  rw [htmp] at hother ⊢
  obtain ⟨init, hinit⟩ := stepsOf_eq hothers hmore.ne
  rw [hinit, List.getLast?_concat, Option.some.injEq] at hother
  refine ⟨fun heq => ?_, endsInSlash_eq_false hfront hmore⟩
  rw [hother, heq] at hlonger
  omega

/-- A file adds nothing to folders and links. -/
theorem scaffold_of_fill {a : Address} (ha : a ≠ []) (contents : Contents) :
    (t.fill a contents).Scaffold t := by
  refine scaffold_of_kept (by simp) (by simp) fun x entry hkind hx => ?_
  rw [get?_fill ha] at hx
  split at hx
  · exact absurd (Option.some.inj hx).symm (hkind contents)
  · exact hx

/-- What is to be moved is the file as it has been filled, if it is no link. -/
theorem moved_entry {path : Path} {contents : Contents} {filled : Tree} {route : Route}
    {a folder : Address} {last : String} {entry : Entry}
    (hfill : t.fillFile path contents = .ok filled) (hroute : filled.route path = .ok route)
    (hslash : route.slash = false) (htargets : filled.Targets route a folder last)
    (hentry : filled.get? a = some entry) (hlink : ∀ aim, entry ≠ .link aim) :
    filled = t.fill a contents ∧ entry = .file contents := by
  rw [route_fillFile hfill] at hroute
  obtain ⟨other, place, hother, hlead, hne, rfl⟩ := fillFile_eq_ok hfill
  obtain rfl := Except.ok.inj (hroute.symm.trans hother)
  obtain rfl : a = place.address := by
    refine Decidable.byContradiction fun ha => ?_
    -- What stands there now stood there before, or it is another name of the same file.
    have hbefore : ∀ aim, t.get? a ≠ some (.link aim) := by
      intro aim haim
      rw [get?_fill hne, if_neg, haim] at hentry
      · exact hlink aim (Option.some.inj hentry).symm
      · rintro (heq | hshares)
        · exact ha heq
        · obtain ⟨old, hold⟩ := exists_file_of_shares hshares
          simp [haim] at hold
    have hreached := htargets.lead hslash (scaffold_of_fill hne contents) hbefore true
    rw [hlead] at hreached
    rw [Except.ok.inj hreached] at ha
    split at ha
    · exact ha rfl
    · exact ha htargets.address
  rw [get?_fill hne, if_pos (.inl rfl)] at hentry
  exact ⟨rfl, (Option.some.inj hentry).symm⟩

theorem locate_eq_ok {path : Path} {a : Address} (h : t.locate path = .ok a) : ∃ route,
    t.route path = .ok route ∧
      t.lead false t.limits.links route.slash route.start route.steps = .ok (.taken a) := by
  unfold locate at h
  obtain ⟨route, hroute, h⟩ := bind_eq_ok.mp h
  obtain ⟨place, hlead, h⟩ := bind_eq_ok.mp h
  cases place with
  | free folder name => cases h
  | taken x =>
      obtain rfl := Except.ok.inj h
      exact ⟨route, hroute, hlead⟩

theorem locate_of_lead {path : Path} {route : Route} {x : Address}
    (hroute : t.route path = .ok route)
    (hlead : t.lead false t.limits.links route.slash route.start route.steps = .ok (.taken x)) :
    t.locate path = .ok x :=
  bind_eq_ok.mpr ⟨route, hroute, bind_eq_ok.mpr ⟨.taken x, hlead, rfl⟩⟩

theorem Scaffold.locate_eq {path : Path} {x : Address} (h : t.Scaffold t')
    (hlocate : t.locate path = .ok x) (hx : t'.Stands x) : t'.locate path = .ok x := by
  obtain ⟨route, hroute, hlead⟩ := locate_eq_ok hlocate
  exact locate_of_lead ((h.route path).trans hroute) (h.limits ▸ h.lead_eq hlead hx)

theorem read_eq_ok {path : Path} {text : String} : t.read path = .ok text ↔
    ∃ a, t.locate path = .ok a ∧ t.get? a = some (.file (.text text)) := by
  unfold read
  rw [bind_eq_ok]
  refine exists_congr fun a => and_congr_right fun _ => ?_
  split <;> simp_all

theorem isFolder_iff {path : Path} : t.isFolder path = true ↔
    ∃ x, t.locate path = .ok x ∧ t.isFolderAt x = true := by
  rw [isFolder, Option.any_eq_true]
  simp only [toOption_eq_some]

theorem linksFrom_fillFile {path : Path} {contents : Contents}
    (h : t.fillFile path contents = .ok t') : t.LinksFrom t' := by
  obtain ⟨_, place, -, -, hne, rfl⟩ := fillFile_eq_ok h
  exact (scaffold_of_fill hne contents).links

/-- Moving a file over anything but a folder or a link leaves all folders and links. -/
theorem scaffold_move {a b : Address} (ha : a ≠ []) {contents : Contents}
    (hfile : t.get? a = some (.file contents)) (hfinal : t.Final b) (entry : Entry) :
    t.Scaffold (t.move a b entry) := by
  refine scaffold_of_kept (by simp) (by simp) fun x other hkind hx => ?_
  have hxa : x ≠ a := by
    rintro rfl
    exact hkind contents (Option.some.inj (hx.symm.trans hfile))
  have hxb : x ≠ b := by
    rintro rfl
    obtain ⟨old, heq⟩ := hfinal.exists_file hx
    exact hkind old heq
  rw [get?_move ha (ne_nil_of_not_folder hfinal.1), if_neg hxb, if_neg hxa, hx]

/-- A path leads to the file in its place. -/
theorem Targets.locate {path : Path} {route : Route} {a folder : Address} {last : String}
    {contents : Contents} (h : t.Targets route a folder last) (hroute : t.route path = .ok route)
    (hslash : route.slash = false) (hscaffold : t.Scaffold t')
    (hfile : t'.get? a = some (.file contents)) : t'.locate path = .ok a := by
  have hreached := h.lead hslash hscaffold (by simp [hfile]) false
  rw [hfile] at hreached
  unfold Tree.locate
  rw [hscaffold.route, hroute]
  simp only [bind, Except.bind, hreached, Option.isSome_some, if_true]

/-- Writing ends with the first of its steps that fails, or with the last one. -/
inductive Writes (t : Tree) (path : Path) (text : String) : Except Fault Unit → Tree → Prop
  | unmade {fault : Fault} {made : Tree} (hmade : t.makeParents path = (.error fault, made)) :
      Writes t path text (.error fault) made
  | unfilled {fault : Fault} {made : Tree} (hmade : t.makeParents path = (.ok (), made))
      (hfill : made.fillFile (temporary path) (.text text) = .error fault) :
      Writes t path text (.error fault) made
  | unmoved {fault : Fault} {made filled : Tree} (hmade : t.makeParents path = (.ok (), made))
      (hfill : made.fillFile (temporary path) (.text text) = .ok filled)
      (hmove : filled.moveFile (temporary path) path = .error fault) :
      Writes t path text (.error fault) filled
  | moved {made filled t' : Tree} (hmade : t.makeParents path = (.ok (), made))
      (hfill : made.fillFile (temporary path) (.text text) = .ok filled)
      (hmove : filled.moveFile (temporary path) path = .ok t') : Writes t path text (.ok ()) t'

theorem writes_of_write {path : Path} {text : String} {result : Except Fault Unit}
    (h : t.write path text = (result, t')) : t.Writes path text result t' := by
  unfold write at h
  cases hmade : t.makeParents path with
  | mk parents made =>
      cases parents with
      | error fault =>
          simp only [hmade, Prod.mk.injEq] at h
          obtain ⟨rfl, rfl⟩ := h
          exact .unmade hmade
      | ok done =>
          cases hfill : made.fillFile (temporary path) (.text text) with
          | error fault =>
              simp only [hmade, hfill, Prod.mk.injEq] at h
              obtain ⟨rfl, rfl⟩ := h
              exact .unfilled hmade hfill
          | ok filled =>
              cases hmove : filled.moveFile (temporary path) path with
              | error fault =>
                  simp only [hmade, hfill, hmove, Prod.mk.injEq] at h
                  obtain ⟨rfl, rfl⟩ := h
                  exact .unmoved hmade hfill hmove
              | ok moved =>
                  simp only [hmade, hfill, hmove, Prod.mk.injEq] at h
                  obtain ⟨rfl, rfl⟩ := h
                  exact .moved hmade hfill hmove

theorem write_eq_ok {path : Path} {text : String} (h : t.write path text = (.ok (), t')) :
    ∃ made filled, t.Grows made ∧ made.fillFile (temporary path) (.text text) = .ok filled ∧
      filled.moveFile (temporary path) path = .ok t' := by
  have hgrows := grows_makeParents t path
  cases writes_of_write h with
  | @moved made filled _ hmade hfill hmove =>
      rw [hmade] at hgrows
      exact ⟨made, filled, hgrows, hfill, hmove⟩

/-- The names of one file have the same contents also after a write, whether it succeeds or fails. -/
theorem coherent_write (h : t.Coherent) (path : Path) (text : String) :
    (t.write path text).2.Coherent := by
  have hmade : (t.makeParents path).2.Coherent := by
    unfold makeParents
    split
    · exact h
    · refine makeFolders_induct (fun t path t' h hmake => ?_) h _
      obtain ⟨a, ha, -, rfl⟩ := makeFolder_eq_ok hmake
      exact coherent_put h ha .folder
  have hfilled : ∀ {made filled : Tree}, made.Coherent →
      made.fillFile (temporary path) (.text text) = .ok filled → filled.Coherent := by
    intro made filled h hfill
    obtain ⟨-, place, -, -, hne, rfl⟩ := fillFile_eq_ok hfill
    exact coherent_fill h hne (.text text)
  generalize hwrite : t.write path text = answer
  obtain ⟨result, t'⟩ := answer
  cases writes_of_write hwrite with
  | unmade hparents => rwa [hparents] at hmade
  | unfilled hparents hfill => rwa [hparents] at hmade
  | unmoved hparents hfill hmove =>
      rw [hparents] at hmade
      exact hfilled hmade hfill
  | moved hparents hfill hmove =>
      rw [hparents] at hmade
      obtain ⟨source, route, a, b, entry, -, -, ha, hb, hentry, -, -, -, rfl⟩ := moveFile_eq_ok hmove
      obtain ⟨_, _, hfrom⟩ := targets_of_target ha
      obtain ⟨_, _, hto⟩ := targets_of_target hb
      split
      · exact hfilled hmade hfill
      · exact coherent_move (hfilled hmade hfill) hfrom.ne_nil hto.ne_nil hentry

/-- What has been written is read back, as long as no link has been lost by it. -/
theorem read_write {path : Path} {text : String} (hwrite : t.write path text = (.ok (), t'))
    (hkeeps : t.KeepsLinks t' path) : t'.read path = .ok text := by
  obtain ⟨made, filled, hmade, hfill, hmove⟩ := write_eq_ok hwrite
  obtain ⟨source, route, a, b, entry, hsource, hroute, ha, hb, hentry, hkind, hslash, hfolder,
    hdone⟩ := moveFile_eq_ok hmove
  obtain ⟨sourceFolder, other, hfrom⟩ := targets_of_target ha
  obtain ⟨folder, last, hto⟩ := targets_of_target hb
  obtain ⟨hother, hplain⟩ :=
    temporary_route hroute hslash hto.steps hto.dots hsource hfrom.steps
  have hab : a ≠ b := by
    intro heq
    rw [hfrom.address, hto.address] at heq
    exact hother (by simpa using (List.append_inj_right' heq rfl))
  have hlinks : t.LinksFrom filled := hmade.linksFrom.trans (linksFrom_fillFile hfill)
  have hmoved := moved_entry hfill hsource hplain hfrom hentry
  by_cases hshares : filled.shares a b = true
  · -- The temporary file has been another name of the file that is to be replaced.
    rw [if_pos hshares] at hdone
    obtain ⟨old, hfile⟩ := exists_file_of_shares (shares_symm hshares)
    obtain rfl := Option.some.inj (hentry.symm.trans hfile)
    obtain ⟨rfl, -⟩ := hmoved (by simp)
    rw [shares_fill hfrom.ne_nil] at hshares
    have hthere := get?_fill (t := made) hfrom.ne_nil (.text text) b
    rw [if_pos (.inr hshares)] at hthere
    rw [hdone]
    exact read_eq_ok.mpr ⟨b, hto.locate hroute hslash (.refl _) hthere, hthere⟩
  rw [if_neg hshares] at hdone
  subst hdone
  have hafter := get?_move (t := filled) hfrom.ne_nil hto.ne_nil entry
  have hthere := hafter b
  rw [if_pos rfl] at hthere
  by_cases htemporary : ∃ aim, entry = .link aim
  · -- The temporary file is a link then, and moving it takes it away.
    obtain ⟨aim, rfl⟩ := htemporary
    have hgone := hafter a
    rw [if_neg hab, if_pos rfl] at hgone
    rcases hkeeps a aim (hlinks a aim hentry) with hlost | ⟨-, contents, hlost⟩ <;>
    · rw [hgone] at hlost
      cases hlost
  obtain ⟨-, rfl⟩ := hmoved fun aim heq => htemporary ⟨aim, heq⟩
  by_cases hlink : ∃ aim, filled.get? b = some (.link aim)
  · obtain ⟨aim, haim⟩ := hlink
    rcases hkeeps b aim (hlinks b aim haim) with hkept | ⟨hlocate, -⟩
    · rw [hthere] at hkept
      cases hkept
    · exact read_eq_ok.mpr ⟨b, hlocate, hthere⟩
  · have hscaffold := scaffold_move hfrom.ne_nil hentry
      ⟨hfolder, fun aim haim => hlink ⟨aim, haim⟩⟩ (.file (.text text))
    exact read_eq_ok.mpr ⟨b, hto.locate hroute hslash hscaffold hthere, hthere⟩

end Tree

end PluginHost.Storage
