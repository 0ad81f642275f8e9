import PluginHost.Proofs.Storage.Rewriting

/-!
Writing a file as a replacement of what has its name. A write that succeeds leaves the file with the
new text and no temporary file; one that fails leaves whatever could be read there. In both cases
all other entries are kept, and only folders are added to them. What stands in the place of the
temporary file must be no link, and its other names show what has been written of the new text. A
path that goes through the link in its own place leads nowhere when this link has been replaced.
-/

namespace PluginHost

namespace Path

/-- The last name of a path is plain, and only idle pieces follow it. -/
theorem pieces_of_fileName {p : Path} {name : String} (h : p.fileName = some name) :
    ∃ before idle, p.pieces = before ++ [name.toList] ++ idle ∧ Idle idle ∧ PlainName name := by
  obtain ⟨dropped, hdropped, hidle, -, -⟩ := dropEmpty_eq p.pieces.reverse
  unfold fileName at h
  cases hkept : dropEmpty p.pieces.reverse with
  | nil => simp [hkept] at h
  | cons piece rest =>
      have hpieces : p.pieces = rest.reverse ++ [piece] ++ dropped.reverse := by
        rw [← List.reverse_reverse p.pieces, hdropped, hkept]
        simp
      have hslash : '/' ∉ piece := by
        refine Text.not_mem_of_mem_fields (s := p.text.toList) ?_
        rw [show Text.fields '/' p.text.toList = _ from hpieces]
        simp
      rw [hkept, List.head?_cons, Option.bind_some, component?] at h
      by_cases hempty : piece = []
      · simp [hempty] at h
      by_cases hdot : piece = ['.']
      · simp [hdot] at h
      by_cases hdots : piece = ['.', '.']
      · simp [hdots] at h
      simp only [hempty, hdot, hdots, if_false, Option.some.injEq] at h
      subst h
      have hlist {text : String} (heq : String.ofList piece = text) : piece = text.toList := by
        rw [← heq, String.toList_ofList]
      refine ⟨rest.reverse, dropped.reverse, by simpa using hpieces,
        fun other hother => hidle other (List.mem_reverse.mp hother), ?_⟩
      exact ⟨fun heq => hempty (hlist heq), fun heq => hdot (hlist heq),
        fun heq => hdots (hlist heq), by simpa using hslash⟩

end Path

namespace Storage.Tree

variable {t t' : Tree} {path : Path} {a b : Address} {name : String}

theorem steps_of_fileName (h : path.fileName = some name) : ∃ init dots,
    stepsOf path.text = init ++ name :: dots ∧ ∀ dot ∈ dots, dot = "." := by
  obtain ⟨before, idle, hpieces, hidle, hname⟩ := Path.pieces_of_fileName h
  have hlist : name.toList ≠ [] := fun hnil => hname.ne (Path.toList_eq_nil_iff.mp hnil)
  refine ⟨(before.filter (· ≠ [])).map String.ofList, (idle.filter (· ≠ [])).map String.ofList, ?_,
    fun dot hdot => ?_⟩
  · unfold Path.pieces at hpieces
    simp [stepsOf, hpieces, hname.ne]
  · obtain ⟨piece, hpiece, rfl⟩ := List.mem_map.mp hdot
    obtain ⟨hmem, hfull⟩ := List.mem_filter.mp hpiece
    rw [(hidle piece hmem).resolve_left (by simpa using hfull)]

theorem steps_temporary (h : path.fileName = some name) : ∃ init,
    stepsOf (temporary path).text = init ++ [name ++ ".tmp"] ∧
      endsInSlash (temporary path).text = false := by
  obtain ⟨-, -, -, -, hname⟩ := Path.pieces_of_fileName h
  have hmore := hname.temporary
  obtain ⟨before, hpieces, front, htext⟩ := Path.withFileName_eq hmore path
  have hbeside : temporary path = path.withFileName (name ++ ".tmp") := by simp [temporary, h]
  rw [hbeside]
  obtain ⟨init, hsteps⟩ := stepsOf_eq hpieces hmore.ne
  exact ⟨init, hsteps, endsInSlash_eq_false htext hmore⟩

/-! The place of a path. -/

/-- Where the entry of a path is or would be; a link there is not followed. -/
def addressOf (t : Tree) (path : Path) : Option Address :=
  (t.route path >>= fun route => t.target route .busy).toOption

theorem addressOf_eq_some : t.addressOf path = some a ↔
    ∃ route, t.route path = .ok route ∧ t.target route .busy = .ok a := by
  rw [addressOf, toOption_eq_some, bind_eq_ok]

def isLinkAt (t : Tree) (a : Address) : Bool :=
  match t.get? a with
  | some (.link _) => true
  | _ => false

theorem isLinkAt_eq_false : t.isLinkAt a = false ↔ ∀ aim, t.get? a ≠ some (.link aim) := by
  unfold isLinkAt
  split <;> simp_all

/-- What stands in the place of a path, if anything, is no link. -/
def Solid (t : Tree) (path : Path) : Prop :=
  ∀ a ∈ t.addressOf path, t.isLinkAt a = false

instance (t : Tree) (path : Path) : Decidable (t.Solid path) :=
  inferInstanceAs (Decidable (∀ a ∈ t.addressOf path, t.isLinkAt a = false))

/-- The address is the place of a path, or another name of the file that stands there. -/
def Names (t : Tree) (path : Path) (x : Address) : Prop :=
  ∃ a ∈ t.addressOf path, x = a ∨ t.shares a x = true

instance (t : Tree) (path : Path) (x : Address) : Decidable (t.Names path x) :=
  inferInstanceAs (Decidable (∃ a ∈ t.addressOf path, x = a ∨ t.shares a x = true))

/-- A link stands in the place of a path, and the path goes through this link. -/
def Loops (t : Tree) (path : Path) : Prop :=
  ∃ a ∈ t.addressOf path, t.isLinkAt a = true ∧ (t.erase a).addressOf path ≠ some a

instance (t : Tree) (path : Path) : Decidable (t.Loops path) :=
  inferInstanceAs (Decidable (∃ a ∈ t.addressOf path,
    t.isLinkAt a = true ∧ (t.erase a).addressOf path ≠ some a))

theorem Solid.not_link (h : t.Solid path) (ha : t.addressOf path = some a) (aim : String) :
    t.get? a ≠ some (.link aim) :=
  isLinkAt_eq_false.mp (h a ha) aim

theorem addressOf_of_scaffold (h : t.Scaffold t') (ha : t.addressOf path = some a) :
    t'.addressOf path = some a := by
  obtain ⟨route, hroute, htarget⟩ := addressOf_eq_some.mp ha
  obtain ⟨folder, init, last, hlead, hsteps, hdots, hshort, rfl⟩ := target_eq_ok htarget
  refine addressOf_eq_some.mpr ⟨route, (h.route path).trans hroute, ?_⟩
  exact target_of_front hsteps (lead_front_of_scaffold h hlead) hdots (h.limits ▸ hshort) .busy

/-- A path that leads anywhere has a place. If no link stands there, then this is where it leads. -/
theorem addressOf_of_lead {making : Bool} {place : Place} {init : List String} {last : String}
    {start : Address} (hroute : t.route path = .ok ⟨start, init ++ [last], false⟩)
    (hdots : isDots last = false)
    (hlead : t.lead making t.limits.links false start (init ++ [last]) = .ok place) :
    ∃ a, t.addressOf path = some a ∧ ((∀ aim, t.get? a ≠ some (.link aim)) →
      place.address = a ∧ (t.get? a ≠ none → place = .taken a)) := by
  obtain ⟨folder, hfront⟩ :=
    exists_lead_front (Bool.and_false making) (List.cons_ne_nil last []) hlead
  obtain ⟨hfolder, left, hlast⟩ := lead_last hfront
  rw [hlast t (.refl t)] at hlead
  have hshort : ¬ t.limits.name < last.utf8ByteSize := by
    intro hlong
    rw [lead, Bool.and_false, advance_name hfolder hdots (by simp), if_pos hlong] at hlead
    cases hlead
  refine ⟨folder ++ [last], addressOf_eq_some.mpr ⟨_, hroute, ?_⟩, fun hlink => ?_⟩
  · exact target_of_front rfl hfront hdots hshort .busy
  · rw [lead_name hfolder hdots hshort hlink] at hlead
    rw [← Except.ok.inj hlead]
    cases t.get? (folder ++ [last]) <;> simp [Place.address]

/-- A file that has been filled stands in the place of its path, if no link does. -/
theorem addressOf_of_fillFile {contents : Contents} {init : List String} {last : String}
    (hsteps : stepsOf path.text = init ++ [last]) (hdots : isDots last = false)
    (hslash : endsInSlash path.text = false) (hsolid : t.Solid path)
    (hfill : t.fillFile path contents = .ok t') :
    ∃ b, t.addressOf path = some b ∧ t.isFolderAt b = false ∧ t' = t.fill b contents := by
  obtain ⟨route, place, hroute, hlead, -, hput⟩ := fillFile_eq_ok hfill
  obtain rfl := route_eq_ok hroute
  rw [hsteps, hslash] at hroute hlead
  obtain ⟨b, hb, hplace⟩ := addressOf_of_lead hroute hdots hlead
  obtain ⟨rfl, htaken⟩ := hplace (hsolid.not_link hb)
  refine ⟨place.address, hb, ?_, hput⟩
  rw [Bool.eq_false_iff]
  intro hthere
  have hsome : t.get? place.address ≠ none := by simp [isFolderAt_iff.mp hthere]
  rw [htaken hsome] at hlead hthere
  simp [fillFile, bind, Except.bind, hroute, hlead, Place.address] at hfill hthere
  simp [hthere] at hfill

theorem addressOf_of_fill {contents : Contents} (hname : path.fileName = some name)
    (hsolid : t.Solid (temporary path))
    (hfill : t.fillFile (temporary path) contents = .ok t') :
    ∃ b, t.addressOf (temporary path) = some b ∧ t.isFolderAt b = false ∧
      t' = t.fill b contents := by
  obtain ⟨-, -, -, -, hplain⟩ := Path.pieces_of_fileName hname
  obtain ⟨init, hsteps, hslash⟩ := steps_temporary hname
  exact addressOf_of_fillFile hsteps hplain.temporary.isDots_eq_false hslash hsolid hfill

/-- Filling the file at a path is not seen at other addresses than its names. -/
theorem get?_fill_of_not_names {contents : Contents} {x : Address} (hb : t.addressOf path = some b)
    (hkind : t.isFolderAt b = false) (hx : ¬ t.Names path x) :
    (t.fill b contents).get? x = t.get? x := by
  rw [get?_fill (ne_nil_of_not_folder hkind), if_neg fun hnamed => hx ⟨b, hb, hnamed⟩]

/-! A write that succeeds. -/

/-- The file at `b`, which may be missing at first, has been given the text and moved to `a`. -/
structure Replaced (t t' : Tree) (a b : Address) (text : String) : Prop where
  limits : t'.limits = t.limits
  here : t'.here = t.here
  same : ∀ x, t'.get? x =
    if x = a then some (.file (.text text))
    else if x = b then none
    else if t.shares b x then some (.file (.text text))
    else t.get? x
  differ : a ≠ b
  kind : t.isFolderAt a = false
  beside : t.Final b

section

variable {text : String}

theorem Replaced.ne_nil (h : t.Replaced t' a b text) : a ≠ [] :=
  ne_nil_of_not_folder h.kind

theorem Replaced.get?_self (h : t.Replaced t' a b text) :
    t'.get? a = some (.file (.text text)) := by
  rw [h.same, if_pos rfl]

theorem Replaced.get?_beside (h : t.Replaced t' a b text) : t'.get? b = none := by
  rw [h.same, if_neg h.differ.symm, if_pos rfl]

/-- Folders and links are those that there are without the entry that has been replaced. -/
theorem Replaced.scaffold (h : t.Replaced t' a b text) : (t.erase a).Scaffold t' := by
  refine scaffold_of_kept h.limits h.here fun x entry hkind hx => ?_
  rw [get?_erase h.ne_nil] at hx
  split at hx
  · cases hx
  rename_i hne
  have hother : x ≠ b := by
    rintro rfl
    obtain ⟨old, heq⟩ := h.beside.exists_file hx
    exact hkind old heq
  have hshares : ¬ t.shares b x = true := by
    intro hshares
    obtain ⟨old, hold⟩ := exists_file_of_shares hshares
    exact hkind old (Option.some.inj (hx.symm.trans hold))
  rw [h.same, if_neg hne, if_neg hother, if_neg hshares, hx]

theorem Replaced.scaffold_back (h : t.Replaced t' a b text) : t'.Scaffold (t.erase a) := by
  refine scaffold_of_kept h.limits.symm h.here.symm fun x entry hkind hx => ?_
  rw [h.same] at hx
  rw [get?_erase h.ne_nil]
  split at hx
  · exact absurd (Option.some.inj hx).symm (hkind _)
  split at hx
  · cases hx
  split at hx
  · exact absurd (Option.some.inj hx).symm (hkind _)
  · rwa [if_neg ‹_›]

/-- A way to a folder leads to the same one as before. -/
theorem Replaced.leads_eq (h : t.Replaced t' a b text) {start m folder : Address}
    {steps : List String} (hleads' : Leads t' start steps m) (hthere : t'.isFolderAt m = true)
    (hleads : Leads t start steps folder) : m = folder := by
  have hfinal := final_of_file h.get?_self
  refine Leads.agree (b := a) (fun x hx => ?_) (fun c step rest x hmet hdots hmore => ?_)
    hleads' hleads hthere
  · have hsame := h.same x
    rw [if_neg hx] at hsame
    split at hsame
    · exact .inl (final_of_none hsame)
    split at hsame
    · exact .inl (final_of_file hsame)
    · exact .inr hsame
  · obtain ⟨-, rfl⟩ := hmore.of_final hdots (hmet ▸ hfinal)
    rw [hmet]
    exact hfinal.1

/-- A write that succeeds has moved the temporary file into its place, or found it there under
another name. -/
theorem exists_replaced (hname : path.fileName = some name) {made : Tree}
    (hmade : (t.makeParents path).2 = made) (hsolid : made.Solid (temporary path))
    (hwrite : t.write path text = (.ok (), t')) :
    ∃ a b, made.addressOf path = some a ∧ made.addressOf (temporary path) = some b ∧
      endsInSlash path.text = false ∧
      (made.shares b a = true ∧ t' = made.fill b (.text text) ∨
        made.shares b a = false ∧ made.Replaced t' a b text) := by
  cases writes_of_write hwrite with
  | @moved before filled _ hparents hfill hmove =>
  obtain rfl : before = made := by rw [← hmade, hparents]
  obtain ⟨b, hb, hkind, rfl⟩ := addressOf_of_fill hname hsolid hfill
  obtain ⟨source, route, other, a, entry, hsource, hroute, hother, ha, hentry, -, hslash, hfolder,
    hdone⟩ := moveFile_eq_ok hmove
  have hne := ne_nil_of_not_folder hkind
  have hscaffold := scaffold_of_fill (t := before) hne (.text text)
  have hfilled := get?_fill (t := before) hne (.text text)
  have haddress := addressOf_of_scaffold hscaffold (addressOf_eq_some.mpr ⟨route, hroute, ha⟩)
  have hbeside := addressOf_of_scaffold hscaffold (addressOf_eq_some.mpr ⟨source, hsource, hother⟩)
  obtain rfl : other = b := Option.some.inj (hbeside.symm.trans hb)
  have hdiffer : a ≠ other := by
    obtain ⟨into, last, hto⟩ := targets_of_target ha
    obtain ⟨folder, first, hfrom⟩ := targets_of_target hother
    obtain ⟨hnames, -⟩ := temporary_route hroute hslash hto.steps hto.dots hsource hfrom.steps
    rintro rfl
    have hsame := List.append_inj_right' (hfrom.address.symm.trans hto.address) rfl
    exact hnames (List.singleton_inj.mp hsame)
  obtain rfl : entry = .file (.text text) := by
    rw [hfilled, if_pos (.inl rfl)] at hentry
    exact (Option.some.inj hentry).symm
  obtain rfl := route_eq_ok hroute
  refine ⟨a, other, haddress, hbeside, hslash, ?_⟩
  rw [shares_fill hne] at hdone
  by_cases hshares : before.shares other a = true
  · rw [if_pos hshares] at hdone
    exact .inl ⟨hshares, hdone⟩
  rw [if_neg hshares] at hdone
  subst hdone
  refine .inr ⟨by simpa using hshares, by simp, by simp, fun x => ?_, hdiffer, ?_, hkind,
    hsolid.not_link hbeside⟩
  · rw [get?_move hne (ne_nil_of_not_folder hfolder), hfilled]
    refine if_congr Iff.rfl rfl (ite_congr rfl (fun _ => rfl) fun hx => ?_)
    simp only [hx, false_or]
  · rw [isFolderAt, hfilled, if_neg (by simp [hdiffer, hshares])] at hfolder
    exact hfolder

theorem Replaced.route_eq (h : t.Replaced t' a b text) (other : Path) :
    t'.route other = t.route other :=
  route_congr h.limits h.here other

/-- Where the temporary file was there is nothing any more. -/
theorem Replaced.isThere_eq_false (h : t.Replaced t' a b text) (hb : t.addressOf path = some b) :
    t'.isThere path = false := by
  obtain ⟨route, hroute, htarget⟩ := addressOf_eq_some.mp hb
  obtain ⟨folder, init, last, hfront, hsteps, hdots, -, rfl⟩ := target_eq_ok htarget
  unfold isThere
  cases hlocate : t'.locate path with
  | error fault => rfl
  | ok x =>
      obtain ⟨again, hagain, hlead⟩ := locate_eq_ok hlocate
      rw [h.route_eq] at hagain
      obtain rfl := Except.ok.inj (hroute.symm.trans hagain)
      rw [hsteps] at hlead
      obtain ⟨m, hreached, hthere, hentry⟩ := finds_lead hdots hlead
      obtain rfl := h.leads_eq hreached hthere (leads_of_front hfront)
      rw [h.same, if_neg h.differ.symm, if_pos rfl] at hentry
      exact absurd rfl hentry

/-- What stands in the place of a path is read there. -/
theorem read_of_addressOf (ha : t.addressOf path = some a) (hslash : endsInSlash path.text = false)
    (hfile : t.get? a = some (.file (.text text))) : t.read path = .ok text := by
  obtain ⟨route, hroute, htarget⟩ := addressOf_eq_some.mp ha
  obtain ⟨folder, last, hto⟩ := targets_of_target htarget
  obtain rfl := route_eq_ok hroute
  have hlead := hto.lead hslash (.refl t) (by simp [hfile]) false
  rw [hfile] at hlead
  exact read_eq_ok.mpr ⟨a, locate_of_lead hroute hlead, hfile⟩

/-- The text is read back if and only if the path does not go through what has been replaced. -/
theorem Replaced.read_iff (h : t.Replaced t' a b text) (ha : t.addressOf path = some a)
    (hslash : endsInSlash path.text = false) : t'.read path = .ok text ↔ ¬ t.Loops path := by
  have hfile : t'.get? a = some (.file (.text text)) := by rw [h.same, if_pos rfl]
  constructor
  · rintro hread ⟨a', ha', -, hlost⟩
    obtain rfl := Option.some.inj (ha.symm.trans ha')
    refine hlost (addressOf_of_scaffold h.scaffold_back ?_)
    obtain ⟨route, hroute, htarget⟩ := addressOf_eq_some.mp ha
    obtain ⟨folder, init, last, hfront, hsteps, hdots, hshort, rfl⟩ := target_eq_ok htarget
    obtain ⟨x, hlocate, -⟩ := read_eq_ok.mp hread
    obtain ⟨again, hagain, hlead⟩ := locate_eq_ok hlocate
    rw [h.route_eq] at hagain
    obtain rfl := Except.ok.inj (hroute.symm.trans hagain)
    rw [hsteps] at hlead
    obtain ⟨m, hfront'⟩ := exists_lead_front rfl (List.cons_ne_nil last []) hlead
    obtain rfl := h.leads_eq (leads_of_front hfront') (lead_last hfront').1 (leads_of_front hfront)
    refine addressOf_eq_some.mpr ⟨route, (h.route_eq path).trans hroute, ?_⟩
    exact target_of_front hsteps hfront' hdots (h.limits ▸ hshort) .busy
  · intro hloops
    refine read_of_addressOf (addressOf_of_scaffold h.scaffold ?_) hslash hfile
    cases hlink : t.isLinkAt a with
    | true =>
        by_contra hlost
        exact hloops ⟨a, ha, hlink, hlost⟩
    | false =>
        exact addressOf_of_scaffold (scaffold_erase ⟨h.kind, isLinkAt_eq_false.mp hlink⟩) ha

/-- If the temporary file is another name of the file at the path, then both are there with the new
text. -/
theorem read_of_shares (hname : path.fileName = some name) (ha : t.addressOf path = some a)
    (hb : t.addressOf (temporary path) = some b) (hslash : endsInSlash path.text = false)
    (hshares : t.shares b a = true) (text : String) :
    ¬ t.Loops path ∧ (t.fill b (.text text)).read path = .ok text ∧
      (t.fill b (.text text)).isThere (temporary path) = true := by
  obtain ⟨old, hold⟩ := exists_file_of_shares hshares
  obtain ⟨beside, hbeside⟩ := exists_file_of_shares (shares_symm hshares)
  have hfinal := final_of_file hbeside
  have hfilled := get?_fill (t := t) (ne_nil_of_not_folder hfinal.1) (.text text)
  have hscaffold := scaffold_fill hfinal (.text text)
  refine ⟨?_, ?_, ?_⟩
  · rintro ⟨x, hx, hlink, -⟩
    obtain rfl := Option.some.inj (ha.symm.trans hx)
    simp [isLinkAt, hold] at hlink
  · exact read_of_addressOf (addressOf_of_scaffold hscaffold ha) hslash
      ((hfilled a).trans (if_pos (.inr hshares)))
  · obtain ⟨-, -, hopen⟩ := steps_temporary hname
    have hread := read_of_addressOf (addressOf_of_scaffold hscaffold hb) hopen
      ((hfilled b).trans (if_pos (.inl rfl)))
    obtain ⟨x, hlocate, -⟩ := read_eq_ok.mp hread
    rw [isThere, hlocate]
    rfl

end

/-! A write that fails. -/

theorem Grows.read_eq (h : t.Grows t') {found : String} (hread : t.read path = .ok found) :
    t'.read path = .ok found := by
  obtain ⟨x, hlocate, hfile⟩ := read_eq_ok.mp hread
  have hfile' := h.get?_eq hfile
  exact read_eq_ok.mpr ⟨x, h.scaffold.locate_eq hlocate (stands_of_file hfile'), hfile'⟩

/-- A path with a slash at its end leads to a folder. -/
theorem folder_of_lead {making : Bool} {budget : Nat} {steps : List String} {x : Address}
    (h : t.lead making budget true a steps = .ok (.taken x)) : t.isFolderAt x = true := by
  generalize hslash : true = slash at h
  fun_induction lead t making budget slash a steps with
  | case2 budget slash a steps y hstop hthere =>
      cases h
      subst hslash
      simpa using hthere
  | case7 slash a steps f aim rest hstop budget haim ih =>
      subst hslash
      exact ih rfl h
  | _ => cases h

/-- A file that can be read has a place. -/
theorem addressOf_of_read {found : String} (hname : path.fileName = some name)
    (hread : t.read path = .ok found) :
    ∃ a, t.addressOf path = some a ∧ t.isFolderAt a = false ∧ endsInSlash path.text = false := by
  obtain ⟨init, dots, hsteps, hidle⟩ := steps_of_fileName hname
  obtain ⟨-, -, -, -, hplain⟩ := Path.pieces_of_fileName hname
  obtain ⟨x, hlocate, hfile⟩ := read_eq_ok.mp hread
  have hx : ¬ t.isFolderAt x = true := by simp [isFolderAt, hfile]
  obtain ⟨route, hroute, hlead⟩ := locate_eq_ok hlocate
  obtain rfl := route_eq_ok hroute
  have hslash : endsInSlash path.text = false := by
    rw [Bool.eq_false_iff]
    intro hslash
    rw [hslash] at hlead
    exact hx (folder_of_lead hlead)
  rcases List.eq_nil_or_concat dots with rfl | ⟨more, dot, rfl⟩
  · rw [hsteps, hslash] at hroute hlead
    obtain ⟨a, ha, hplace⟩ := addressOf_of_lead hroute hplain.isDots_eq_false hlead
    refine ⟨a, ha, Bool.eq_false_iff.mpr fun hfolder => hx ?_, hslash⟩
    have hentry := isFolderAt_iff.mp hfolder
    obtain ⟨rfl, -⟩ := hplace (by simp [hentry])
    exact hfolder
  · -- With a dot at its end the path leads to a folder, too.
    have hleads := leads_lead hlead
    have hall : stepsOf path.text = (init ++ name :: more) ++ [dot] := by
      rw [hsteps, List.concat_eq_append]
      simp
    rw [hall] at hleads
    obtain ⟨m, -, hlast⟩ := hleads.split
    have hdot : ∀ step ∈ [dot], step = "." := by simpa using hidle dot (by simp)
    obtain rfl := hlast.of_dots hdot
    exact absurd hlast.folder hx

/-! Writing as a whole. -/

/-- All entries are kept, and only folders are added, but at these addresses. -/
def KeepsBut (t t' : Tree) (but : Address → Prop) : Prop :=
  ∀ x, ¬ but x → t'.get? x = t.get? x ∨ t.get? x = none ∧ t'.get? x = some .folder

theorem Grows.keepsBut (h : t.Grows t') {t'' : Tree} {but : Address → Prop}
    (hsame : ∀ x, ¬ but x → t''.get? x = t'.get? x) : t.KeepsBut t'' but := by
  intro x hx
  rw [hsame x hx]
  exact h.same x

/-- A write that fails has made folders, and perhaps the temporary file, which is not moved then. -/
theorem left_of_write_fails {text : String} {fault : Fault} (hname : path.fileName = some name)
    {made : Tree} (hmade : (t.makeParents path).2 = made) (hsolid : made.Solid (temporary path))
    (hwrite : t.write path text = (.error fault, t')) : t' = made ∨
      ∃ b, made.addressOf (temporary path) = some b ∧ made.isFolderAt b = false ∧
        t' = made.fill b (.text text) ∧
        ∃ fault, t'.moveFile (temporary path) path = .error fault := by
  cases writes_of_write hwrite with
  | unmade hparents | unfilled hparents =>
      left
      rw [← hmade, hparents]
  | @unmoved _ before _ hparents hfill hmove =>
      obtain rfl : before = made := by rw [← hmade, hparents]
      obtain ⟨b, hb, hkind, rfl⟩ := addressOf_of_fill hname hsolid hfill
      exact .inr ⟨b, hb, hkind, rfl, fault, hmove⟩

/-- A write that fails leaves what could be read at the path. -/
theorem read_of_write_fails {text found : String} {fault : Fault}
    (hname : path.fileName = some name) {made : Tree} (hmade : (t.makeParents path).2 = made)
    (hsolid : made.Solid (temporary path)) (hwrite : t.write path text = (.error fault, t'))
    (hread : t.read path = .ok found) : t'.read path = .ok found := by
  have hgrows := grows_makeParents t path
  rw [hmade] at hgrows
  have hbefore := hgrows.read_eq hread
  rcases left_of_write_fails hname hmade hsolid hwrite with rfl | ⟨b, hb, hkind, rfl, fault, hmove⟩
  · exact hbefore
  · -- The file could have been moved, since there is a place for it.
    obtain ⟨a, ha, hfolder, hslash⟩ := addressOf_of_read hname hbefore
    have hfilled := get?_fill (t := made) (ne_nil_of_not_folder hkind) (.text text)
    have hscaffold := scaffold_fill ⟨hkind, hsolid.not_link hb⟩ (.text text)
    obtain ⟨beside, hbeside, htarget⟩ := addressOf_eq_some.mp (addressOf_of_scaffold hscaffold hb)
    obtain ⟨route, hroute, hdestination⟩ :=
      addressOf_eq_some.mp (addressOf_of_scaffold hscaffold ha)
    have hfile := hfilled b
    rw [if_pos (.inl rfl)] at hfile
    have hplace : (made.fill b (.text text)).isFolderAt a = false := by
      rw [isFolderAt, hfilled]
      split
      · rfl
      · exact hfolder
    have hopen : route.slash = false := by
      rw [route_eq_ok hroute]
      exact hslash
    rw [moveFile_of_targets hbeside htarget hroute hdestination hfile hopen hplace] at hmove
    cases hmove

/-- A temporary file that has been filled in part only leaves what could be read at the path, if the
path does not lead to this very file. -/
theorem read_of_fill {contents : Contents} {found : String} (hname : path.fileName = some name)
    (hsolid : t.Solid (temporary path)) (hfill : t.fillFile (temporary path) contents = .ok t')
    (hother : ∀ a, t.locate path = .ok a → ¬ t.Names (temporary path) a)
    (hread : t.read path = .ok found) : t'.read path = .ok found := by
  obtain ⟨b, hb, hkind, rfl⟩ := addressOf_of_fill hname hsolid hfill
  obtain ⟨a, hlocate, hfile⟩ := read_eq_ok.mp hread
  have hkept : (t.fill b contents).get? a = some (.file (.text found)) :=
    (get?_fill_of_not_names hb hkind (hother a hlocate)).trans hfile
  have hscaffold := scaffold_fill ⟨hkind, hsolid.not_link hb⟩ contents
  exact read_eq_ok.mpr ⟨a, hscaffold.locate_eq hlocate (stands_of_file hkept), hkept⟩

/-- Once the folders of a path have been made, let what stands beside it in the place of the
temporary file be no link. If a write succeeds, then the text stands in the place of the path. It is
read back, unless the path goes through the very link that has been replaced, and nothing is left
beside it, unless that is another name of the file at the path. If a write fails, then what could be
read at the path still can. The same holds when a write breaks off with any contents in the temporary
file, unless the path leads to this file. In all cases all other entries are kept, but for other
names of the file beside the path, and only folders are added. -/
theorem write_atomic (t : Tree) (path : Path) (text : String) {name : String}
    (hname : path.fileName = some name) {made : Tree} (hmade : (t.makeParents path).2 = made)
    (hsolid : made.Solid (temporary path)) :
    (∀ t', t.write path text = (.ok (), t') →
      ∃ a b, made.addressOf path = some a ∧ made.addressOf (temporary path) = some b ∧
        t'.get? a = some (.file (.text text)) ∧ (made.shares b a = false → t'.get? b = none) ∧
        (t'.read path = .ok text ↔ ¬ made.Loops path) ∧
        t'.isThere (temporary path) = made.shares b a ∧
        t.KeepsBut t' fun x => made.addressOf path = some x ∨ made.Names (temporary path) x) ∧
    (∀ fault t', t.write path text = (.error fault, t') →
      (∀ found, t.read path = .ok found → t'.read path = .ok found) ∧
      t.KeepsBut t' (made.Names (temporary path))) ∧
    ∀ contents t', made.fillFile (temporary path) contents = .ok t' →
      ((∀ a, made.locate path = .ok a → ¬ made.Names (temporary path) a) →
        ∀ found, t.read path = .ok found → t'.read path = .ok found) ∧
      t.KeepsBut t' (made.Names (temporary path)) := by
  have hgrows := grows_makeParents t path
  rw [hmade] at hgrows
  refine ⟨fun t' hwrite => ?_, fun fault t' hwrite => ⟨fun found hread => ?_, ?_⟩,
    fun contents t' hfill => ⟨fun hother found hread => ?_, ?_⟩⟩
  · obtain ⟨a, b, ha, hb, hslash, ⟨hshares, rfl⟩ | ⟨hshares, hreplaced⟩⟩ :=
      exists_replaced hname hmade hsolid hwrite
    · obtain ⟨hloops, hread, hthere⟩ := read_of_shares hname ha hb hslash hshares text
      obtain ⟨beside, hbeside⟩ := exists_file_of_shares (shares_symm hshares)
      have hkind := (final_of_file hbeside).1
      refine ⟨a, b, ha, hb, ?_, by simp [hshares], iff_of_true hread hloops,
        hthere.trans hshares.symm, hgrows.keepsBut fun x hx => ?_⟩
      · rw [get?_fill (ne_nil_of_not_folder hkind), if_pos (.inr hshares)]
      · exact get?_fill_of_not_names hb hkind fun hnamed => hx (.inr hnamed)
    · refine ⟨a, b, ha, hb, hreplaced.get?_self, fun _ => hreplaced.get?_beside,
        hreplaced.read_iff ha hslash, (hreplaced.isThere_eq_false hb).trans hshares.symm,
        hgrows.keepsBut fun x hx => ?_⟩
      obtain ⟨hplace, hnames⟩ := not_or.mp hx
      rw [hreplaced.same, if_neg fun heq => hplace (by rw [ha, heq]),
        if_neg fun heq => hnames ⟨b, hb, .inl heq⟩,
        if_neg fun hnamed => hnames ⟨b, hb, .inr hnamed⟩]
  · exact read_of_write_fails hname hmade hsolid hwrite hread
  · refine hgrows.keepsBut fun x hx => ?_
    rcases left_of_write_fails hname hmade hsolid hwrite with rfl | ⟨b, hb, hkind, rfl, -⟩
    · rfl
    · exact get?_fill_of_not_names hb hkind hx
  · exact read_of_fill hname hsolid hfill hother (hgrows.read_eq hread)
  · obtain ⟨b, hb, hkind, rfl⟩ := addressOf_of_fill hname hsolid hfill
    exact hgrows.keepsBut fun x hx => get?_fill_of_not_names hb hkind hx

/-- A file that can be replaced through a link in its place or under one of its names, and one beside
which a folder stands in the place of the temporary file. -/
def cabinet : Tree where
  limits := .usual
  entries := ⟨⟨[
    (["ink"], .file (.text "Ink")),
    (["quill"], .file (.text "Quill")),
    (["drawer"], .folder),
    (["drawer", "pen"], .link "../ink"),
    (["drawer", "quill"], .file (.text "Quill")),
    (["drawer", "nib"], .file (.text "Nib")),
    (["drawer", "nib.tmp"], .folder)]⟩,
    ⟨[(["quill"], 1), (["drawer", "quill"], 1)]⟩⟩
  here := []

theorem write_atomic_cabinet :
    let pen : Path := ⟨"drawer/pen"⟩
    let quill : Path := ⟨"drawer/quill"⟩
    let nib : Path := ⟨"drawer/nib"⟩
    let written := (cabinet.write pen "Pen").2
    let other := (cabinet.write quill "Pen").2
    let failed := (cabinet.write nib "Pen").2
    (cabinet.read pen = .ok "Ink" ∧ (cabinet.write pen "Pen").1 = .ok () ∧
      written.read pen = .ok "Pen" ∧ written.isThere (temporary pen) = false ∧
      written.read ⟨"ink"⟩ = .ok "Ink") ∧
    ((cabinet.write quill "Pen").1 = .ok () ∧ other.read quill = .ok "Pen" ∧
      other.read ⟨"quill"⟩ = .ok "Quill") ∧
    ((cabinet.write nib "Pen").1 = .error .isFolder ∧ failed.read nib = .ok "Nib") ∧
    ∃ broken, (cabinet.makeParents pen).2.fillFile (temporary pen) (.text "P") = .ok broken ∧
      broken.read (temporary pen) = .ok "P" ∧ broken.read pen = .ok "Ink" := by
  intro pen quill nib written other failed
  have hpen : pen.fileName = some "pen" := by decide +kernel
  have hquill : quill.fileName = some "quill" := by decide +kernel
  have hnib : nib.fileName = some "nib" := by decide +kernel
  have hwrite : cabinet.write pen "Pen" = (.ok (), written) :=
    Prod.ext (by decide +kernel) rfl
  have hother : cabinet.write quill "Pen" = (.ok (), other) :=
    Prod.ext (by decide +kernel) rfl
  have hfail : cabinet.write nib "Pen" = (.error .isFolder, failed) :=
    Prod.ext (by decide +kernel) rfl
  have hsound : cabinet.read pen = .ok "Ink" := by decide +kernel
  have hlocate : (cabinet.makeParents pen).2.locate pen = .ok ["ink"] := by decide +kernel
  have hpart : ((cabinet.makeParents pen).2.fillFile
      (temporary pen) (.text "P")).toOption.isSome = true := by decide +kernel
  obtain ⟨broken, hfill⟩ := Option.isSome_iff_exists.mp hpart
  rw [toOption_eq_some] at hfill
  obtain ⟨hmoved, -, hbroken⟩ := write_atomic cabinet pen "Pen" hpen rfl (by decide +kernel)
  obtain ⟨hnamed, -⟩ := write_atomic cabinet quill "Pen" hquill rfl (by decide +kernel)
  obtain ⟨-, hkept, -⟩ := write_atomic cabinet nib "Pen" hnib rfl (by decide +kernel)
  obtain ⟨a, b, ha, hb, -, -, hread, hgone, -⟩ := hmoved written hwrite
  obtain ⟨-, -, -, -, -, -, hagain, -, -⟩ := hnamed other hother
  obtain rfl : ["drawer", "pen.tmp"] = b := Option.some.inj (hb ▸ by decide +kernel)
  refine ⟨⟨hsound, congrArg Prod.fst hwrite, hread.mpr (by decide +kernel),
      hgone.trans (shares_of_none (by decide +kernel)), by decide +kernel⟩,
    ⟨congrArg Prod.fst hother, hagain.mpr (by decide +kernel), by decide +kernel⟩,
    ⟨congrArg Prod.fst hfail, (hkept _ failed hfail).1 "Nib" (by decide +kernel)⟩,
    broken, hfill, ?_, (hbroken _ broken hfill).1 (fun x hx => ?_) "Ink" hsound⟩
  · obtain ⟨place, hplace, -, rfl⟩ := addressOf_of_fill hpen (by decide +kernel) hfill
    obtain rfl := Option.some.inj (hb.symm.trans hplace)
    decide +kernel
  · obtain rfl := Except.ok.inj (hlocate.symm.trans hx)
    decide +kernel

/-- A link to the folder that it is in, a link that can be reached past a folder to be made, and
temporary files that are other names, once of the file to be written and once of another one. -/
def knot : Tree where
  limits := .usual
  entries := ⟨⟨[
    (["d"], .folder),
    (["d", "l"], .link "."),
    (["e"], .folder),
    (["e", "other"], .file (.text "Ink")),
    (["e", "f.tmp"], .link "other"),
    (["e", "g"], .file (.text "Ink")),
    (["e", "g.tmp"], .file (.text "Ink")),
    (["e", "h.tmp"], .file (.text "Ink")),
    (["e", "another"], .file (.text "Ink"))]⟩,
    ⟨[(["e", "g"], 1), (["e", "g.tmp"], 1), (["e", "h.tmp"], 2), (["e", "another"], 2)]⟩⟩
  here := []

/-- A path may go through the link that is replaced by writing there, so that it leads nowhere then.
The folders of a path may make way to a link in the place of the temporary file, so that another
file is overwritten. And where the temporary file has another name, it stays if this is the path, and
what was read there is lost once the temporary file is filled in part; otherwise the file is
overwritten under its other name. -/
theorem write_not_atomic_knot :
    let through : Path := ⟨"d/l/l"⟩
    let past : Path := ⟨"new/../e/f"⟩
    let same : Path := ⟨"e/g"⟩
    let shared : Path := ⟨"e/h"⟩
    (knot.isThere (temporary through) = false ∧ (knot.write through "Pen").1 = .ok () ∧
      (knot.write through "Pen").2.read through = .error .notFolder) ∧
    (knot.isThere (temporary past) = false ∧ (knot.write past "Pen").1 = .ok () ∧
      knot.read ⟨"e/other"⟩ = .ok "Ink" ∧
      (knot.write past "Pen").2.read ⟨"e/other"⟩ = .ok "Pen") ∧
    ((knot.write same "Pen").1 = .ok () ∧
      (knot.write same "Pen").2.isThere (temporary same) = true ∧ knot.read same = .ok "Ink" ∧
      (knot.fillFile (temporary same) (.text "P") >>= fun broken => broken.read same) = .ok "P") ∧
    (knot.write shared "Pen").1 = .ok () ∧ knot.read ⟨"e/another"⟩ = .ok "Ink" ∧
      (knot.write shared "Pen").2.read ⟨"e/another"⟩ = .ok "Pen" := by
  decide +kernel

end Storage.Tree

end PluginHost
