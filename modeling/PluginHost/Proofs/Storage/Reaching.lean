import Mathlib.Order.Filter.AtTopBot.Basic
import Mathlib.Order.Filter.Finite
import PluginHost.Proofs.Storage.Spelling
import PluginHost.Proofs.Storage.Walking

/-!
The folders that paths open when they may be as long and take as many links as they like. In a tree
as a file system holds it, limits that are high enough are as good as none for any one path, and so
for all paths that go on from one path by some number of names.
-/

namespace PluginHost.Storage.Tree

/-- What a file system allows for the name of an entry. -/
structure Admits (t : Tree) (name : String) : Prop where
  plain : Path.PlainName name
  clean : '\x00' ∉ name.toList
  short : name.utf8ByteSize ≤ t.limits.name

/-- A tree as a file system holds it: nothing is there twice, every name is allowed, and no link is
empty. -/
structure Sound (t : Tree) : Prop where
  unique : t.entries.keys.Nodup
  names : ∀ a ∈ t.entries.keys, ∀ name ∈ a.getLast?, t.Admits name
  links : ∀ entry ∈ t.entries.entries, entry.2 ≠ .link ""

instance (t : Tree) (name : String) : Decidable (t.Admits name) :=
  decidable_of_iff (Path.PlainName name ∧ '\x00' ∉ name.toList ∧
      name.utf8ByteSize ≤ t.limits.name)
    ⟨fun ⟨plain, clean, short⟩ => ⟨plain, clean, short⟩, fun h => ⟨h.plain, h.clean, h.short⟩⟩

instance (t : Tree) : Decidable t.Sound :=
  decidable_of_iff (t.entries.keys.Nodup ∧
      (∀ a ∈ t.entries.keys, ∀ name ∈ a.getLast?, t.Admits name) ∧
      ∀ entry ∈ t.entries.entries, entry.2 ≠ .link "")
    ⟨fun ⟨unique, names, links⟩ => ⟨unique, names, links⟩, fun h => ⟨h.unique, h.names, h.links⟩⟩

/-- The same tree where paths may take this many links and have fewer octets than `size`. -/
def allowing (t : Tree) (links size : Nat) : Tree :=
  { t with limits := { t.limits with links, path := size } }

/-- The path leads to this folder, whatever the limits. -/
structure Opens (t : Tree) (path : Path) (folder : Address) : Prop where
  text : path.text ≠ ""
  leads : Leads t (startOf t.here path.text) (stepsOf path.text) folder
  folder : t.isFolderAt folder = true

variable {t : Tree} {a f m x : Address} {first rest steps : List String} {step name : String}
  {path : Path}

/-! Entries and their names. -/

theorem mem_keys_of_get? {entry : Entry} (h : t.get? (a ++ [name]) = some entry) :
    a ++ [name] ∈ t.entries.keys := by
  rw [get?, if_neg (by simp)] at h
  exact List.mem_map_of_mem (Table.mem_entries_of_get? h)

theorem mem_of_isFolderAt (h : t.isFolderAt f = true) : f ∈ [] :: t.entries.keys := by
  rw [isFolderAt_iff, get?] at h
  split at h
  · rename_i hroot
    exact hroot ▸ List.mem_cons_self
  · exact List.mem_cons_of_mem _ (List.mem_map_of_mem (Table.mem_entries_of_get? h))

theorem get?_ne_none_of_mem_keys (h : a ∈ t.entries.keys) : t.get? a ≠ none := by
  unfold get?
  split
  · simp
  · exact Table.get?_ne_none_of_mem_keys h

theorem mem_namesIn : name ∈ t.namesIn f ↔ f ++ [name] ∈ t.entries.keys := by
  unfold namesIn
  constructor
  · intro h
    obtain ⟨a, ha, hname⟩ := List.mem_filterMap.mp h
    split at hname
    · rename_i hfolder
      obtain ⟨front, rfl⟩ := List.getLast?_eq_some_iff.mp hname
      rw [List.dropLast_concat] at hfolder
      exact hfolder ▸ ha
    · cases hname
  · intro h
    exact List.mem_filterMap.mpr ⟨f ++ [name], h, by simp⟩

theorem Sound.admits (hsound : t.Sound) (h : name ∈ t.namesIn f) : t.Admits name :=
  hsound.names _ (mem_namesIn.mp h) name (by simp)

theorem Sound.nodup_namesIn (hsound : t.Sound) (f : Address) : (t.namesIn f).Nodup := by
  refine List.Nodup.filterMap (fun a b name ha hb => ?_) hsound.unique
  have haddress : ∀ a : Address, name ∈ (if a.dropLast = f then a.getLast? else none) →
      a = f ++ [name] := by
    intro a ha
    split at ha
    · rename_i hfolder
      obtain ⟨front, rfl⟩ := List.getLast?_eq_some_iff.mp ha
      rw [← hfolder, List.dropLast_concat]
    · cases ha
  rw [haddress a ha, haddress b hb]

theorem Sound.aim_ne (hsound : t.Sound) {aim : String} (h : t.get? a = some (.link aim)) :
    aim ≠ "" := by
  rintro rfl
  unfold get? at h
  split at h
  · cases h
  · exact hsound.links _ (Table.mem_entries_of_get? h) rfl

theorem Sound.allowing (hsound : t.Sound) (links size : Nat) : (t.allowing links size).Sound where
  unique := hsound.unique
  names := fun a ha name hname =>
    let hadmits := hsound.names a ha name hname
    ⟨hadmits.plain, hadmits.clean, hadmits.short⟩
  links := hsound.links

/-! Ways to folders. -/

theorem Leads.append (h : Leads t a first m) (hrest : Leads t m rest x) :
    Leads t a (first ++ rest) x := by
  induction h with
  | done a => exact hrest
  | step hfolder _ ih => exact .step hfolder (by simpa using ih hrest)

/-- There is something on every step of the way to an entry. -/
theorem Leads.mem_namesIn_of_entry (h : Leads t a (step :: rest) x) (hx : t.get? x ≠ none)
    (hdots : isDots step = false) : step ∈ t.namesIn a := by
  cases h with
  | step _ hrest =>
      cases hentry : t.get? (a ++ [step]) with
      | some entry => exact Tree.mem_namesIn.mpr (mem_keys_of_get? hentry)
      | none =>
          rw [stepFrom_name hdots (by simp [hentry])] at hrest
          obtain ⟨-, rfl⟩ := hrest.of_not_folder (not_folder_of_none hentry)
          exact absurd hentry hx

theorem Leads.mem_namesIn (h : Leads t a (step :: rest) x) (hx : t.isFolderAt x = true)
    (hdots : isDots step = false) : step ∈ t.namesIn a :=
  h.mem_namesIn_of_entry (by simp [isFolderAt_iff.mp hx]) hdots

theorem Leads.clean (hsound : t.Sound) (h : Leads t a steps x) (hx : t.isFolderAt x = true) :
    ∀ step ∈ steps, '\x00' ∉ step.toList := by
  induction h with
  | done a => simp
  | @step a x step rest hfolder hrest ih =>
      refine List.forall_mem_cons.mpr ⟨?_, fun other hother => ih hx other (by simp [hother])⟩
      cases hdots : isDots step with
      | true =>
          have hstep : step = "." ∨ step = ".." := by simpa [isDots] using hdots
          rcases hstep with rfl | rfl <;> decide
      | false => exact (hsound.admits ((Leads.step hfolder hrest).mem_namesIn hx hdots)).clean

theorem leads_allowing {links size : Nat} :
    Leads (t.allowing links size) a steps x ↔ Leads t a steps x := by
  constructor
  · intro h
    induction h with
    | done a => exact .done a
    | step hfolder _ ih => exact .step hfolder ih
  · intro h
    induction h with
    | done a => exact .done a
    | step hfolder _ ih => exact .step hfolder ih

/-! Limits that are high enough for one way. -/

/-- A step on the way to a folder is made at once or is a link. -/
theorem advance_of_leads (hsound : t.Sound) (h : Leads t a (step :: rest) x)
    (hx : t.isFolderAt x = true) :
    (∃ aim, aim ≠ "" ∧ t.stepFrom a step = (startOf a aim, stepsOf aim) ∧
      t.advance false a (step :: rest) = .link a aim rest) ∨
    ∃ next, t.stepFrom a step = (next, []) ∧
      t.advance false a (step :: rest) = t.advance false next rest := by
  by_cases hhere : step = "."
  · subst hhere
    exact .inr ⟨a, rfl, advance_here h.folder rest⟩
  by_cases hup : step = ".."
  · subst hup
    exact .inr ⟨a.dropLast, rfl, advance_up h.folder rest⟩
  have hdots : isDots step = false := by simp [isDots, hhere, hup]
  have hname := h.mem_namesIn hx hdots
  have hadvance : t.advance false a (step :: rest) = _ := advance_name h.folder hdots (by simp)
  rw [if_neg (Nat.not_lt.mpr (hsound.admits hname).short)] at hadvance
  cases hentry : t.get? (a ++ [step]) with
  | none => exact absurd hentry (get?_ne_none_of_mem_keys (mem_namesIn.mp hname))
  | some entry =>
      rw [hentry] at hadvance
      cases entry with
      | link aim => exact .inl ⟨aim, hsound.aim_ne hentry, stepFrom_link hdots hentry, hadvance⟩
      | folder => exact .inr ⟨_, stepFrom_name hdots (by simp [hentry]), hadvance⟩
      | file contents => exact .inr ⟨_, stepFrom_name hdots (by simp [hentry]), hadvance⟩

theorem lead_of_link {aim : String} {slash : Bool} (h : t.advance false a steps = .link f aim rest)
    (haim : aim ≠ "") (budget : Nat) :
    t.lead false (budget + 1) slash a steps =
      t.lead false budget (slash || (rest.isEmpty && endsInSlash aim)) (startOf f aim)
        (stepsOf aim ++ rest) := by
  rw [lead, Bool.false_and, h]
  simp [haim]

theorem exists_budget (hsound : t.Sound) (h : Leads t a steps x) (hx : t.isFolderAt x = true) :
    ∃ budget, ∀ slash, t.lead false budget slash a steps = .ok (.taken x) := by
  -- The way is finite, so it takes finitely many links: one more for each of its steps at most.
  induction h with
  | done a => exact ⟨0, fun slash => by simp [lead, advance, hx]⟩
  | @step a x step rest hfolder hrest ih =>
      obtain ⟨budget, hlead⟩ := ih hx
      rcases advance_of_leads hsound (.step hfolder hrest) hx with
        ⟨aim, haim, hstep, hadvance⟩ | ⟨next, hstep, hadvance⟩
      · rw [hstep] at hlead
        refine ⟨budget + 1, fun slash => ?_⟩
        rw [lead_of_link hadvance haim]
        exact hlead _
      · rw [hstep] at hlead
        refine ⟨budget, fun slash => ?_⟩
        rw [lead_congr hadvance]
        exact hlead slash

/-- More links make a difference only where there were too many. -/
theorem lead_more {making slash : Bool} {budget : Nat}
    (h : t.lead making budget slash a steps ≠ .error .tooManyLinks) (more : Nat) :
    t.lead making (budget + more) slash a steps = t.lead making budget slash a steps := by
  induction budget generalizing slash a steps with
  | zero =>
      rw [lead] at h ⊢
      rw [lead]
      cases hstop : t.advance (making && slash) a steps with
      | link f aim rest => simp [hstop] at h
      | _ => rfl
  | succ budget ih =>
      rw [lead] at h
      rw [Nat.add_right_comm, lead, lead]
      cases hstop : t.advance (making && slash) a steps with
      | link f aim rest =>
          rw [hstop] at h
          dsimp only at h ⊢
          split at h
          · rename_i haim
            rw [if_pos haim, if_pos haim]
          · rename_i haim
            rw [if_neg haim, if_neg haim, ih h]
      | _ => rfl

theorem advance_allowing {barred : Bool} {links size : Nat} :
    (t.allowing links size).advance barred a steps = t.advance barred a steps := by
  induction steps generalizing a with
  | nil => rfl
  | cons step rest ih =>
      rw [advance, advance]
      simp only [ih]
      rfl

theorem lead_allowing {making slash : Bool} {budget links size : Nat} :
    (t.allowing links size).lead making budget slash a steps =
      t.lead making budget slash a steps := by
  induction budget generalizing slash a steps with
  | zero =>
      rw [lead, lead, advance_allowing]
      rfl
  | succ budget ih =>
      rw [lead, lead, advance_allowing]
      simp only [ih]
      rfl

/-! What paths open. -/

theorem Opens.unique (hx : t.Opens path x) (hf : t.Opens path f) : x = f :=
  hx.leads.unique hf.leads

theorem opens_join (h : t.Opens path f) (hname : Path.PlainName name) :
    t.Opens (path.join name) x ↔ Leads t f [name] x ∧ t.isFolderAt x = true := by
  constructor
  · intro hx
    have hleads := hx.leads
    rw [startOf_join hname, stepsOf_join hname] at hleads
    obtain ⟨m, hfirst, hlast⟩ := hleads.split
    obtain rfl := hfirst.unique h.leads
    exact ⟨hlast, hx.folder⟩
  · rintro ⟨hlast, hx⟩
    refine ⟨Path.text_join_ne hname path, ?_, hx⟩
    rw [startOf_join hname, stepsOf_join hname]
    exact h.leads.append hlast

/-- The parent of what is below a path opens what the path opens. -/
theorem Opens.parent (h : t.Opens path f) (hname : Path.PlainName name) :
    ∃ parent, (path.join name).parent = some parent ∧ t.Opens parent f := by
  obtain ⟨before, hne, hpieces, -⟩ := Path.pieces_join hname h.text
  obtain ⟨parent, dots, hparent, hsteps, hdots, hstart, htext⟩ := parent_way hpieces hname
  rw [stepsOf_join hname] at hsteps
  have hleads := h.leads
  rw [List.append_cancel_right hsteps, ← startOf_join hname, ← hstart] at hleads
  obtain ⟨m, hfirst, hlast⟩ := hleads.split
  obtain rfl := hlast.of_dots hdots
  exact ⟨parent, hparent, htext hne, hfirst, h.folder⟩

theorem opens_of_locate (hlocate : t.locate path = .ok x) (hx : t.isFolderAt x = true) :
    t.Opens path x := by
  obtain ⟨route, hroute, hlead⟩ := locate_eq_ok hlocate
  have hleads := leads_lead hlead
  rw [route_eq_ok hroute] at hleads
  refine ⟨fun hempty => ?_, hleads, hx⟩
  simp [Tree.route, hempty] at hroute

theorem size_lt_of_locate (hlocate : t.locate path = .ok x) :
    path.text.utf8ByteSize < t.limits.path := by
  obtain ⟨route, hroute, -⟩ := locate_eq_ok hlocate
  unfold Tree.route at hroute
  split at hroute
  · cases hroute
  · split at hroute
    · cases hroute
    · split at hroute
      · cases hroute
      · exact Nat.not_le.mp ‹_›

theorem Opens.clean (hsound : t.Sound) (h : t.Opens path x) : '\x00' ∉ path.text.toList := by
  intro hmem
  have hslash : '\x00' ≠ '/' := by decide
  obtain ⟨piece, hpiece, hnul⟩ := Text.exists_field_of_mem hslash hmem
  have hstep : String.ofList piece ∈ stepsOf path.text := by
    refine List.mem_map_of_mem (List.mem_filter.mpr ⟨hpiece, ?_⟩)
    simpa using List.ne_nil_of_mem hnul
  exact h.leads.clean hsound h.folder _ hstep (by simpa using hnul)

/-! Limits that are high enough for many paths. -/

open Filter

theorem eventually_locate (hsound : t.Sound) (h : t.Opens path x) :
    ∀ᶠ limit : Nat × Nat in atTop, (t.allowing limit.1 limit.2).locate path = .ok x := by
  obtain ⟨budget, hlead⟩ := exists_budget hsound h.leads h.folder
  refine eventually_atTop.mpr ⟨(budget, path.text.utf8ByteSize + 1), fun limit hle => ?_⟩
  obtain ⟨more, hmore⟩ := Nat.exists_eq_add_of_le hle.1
  have hsize : ¬ (t.allowing limit.1 limit.2).limits.path ≤ path.text.utf8ByteSize :=
    Nat.not_le.mpr hle.2
  have hroute : (t.allowing limit.1 limit.2).route path =
      .ok ⟨startOf t.here path.text, stepsOf path.text, endsInSlash path.text⟩ := by
    rw [route, if_neg (h.clean hsound), if_neg h.text, if_neg hsize]
    rfl
  have hfound : (t.allowing limit.1 limit.2).lead false limit.1 (endsInSlash path.text)
      (startOf t.here path.text) (stepsOf path.text) = .ok (.taken x) := by
    rw [lead_allowing, hmore, lead_more (by simp [hlead]), hlead]
  exact bind_eq_ok.mpr ⟨_, hroute, bind_eq_ok.mpr ⟨.taken x, hfound, rfl⟩⟩

def names (t : Tree) : List String :=
  t.entries.keys.filterMap List.getLast?

theorem mem_names_of_mem_namesIn (h : name ∈ t.namesIn f) : name ∈ t.names :=
  List.mem_filterMap.mpr ⟨_, mem_namesIn.mp h, List.getLast?_concat⟩

theorem Sound.plain (hsound : t.Sound) (h : name ∈ t.names) : Path.PlainName name := by
  obtain ⟨a, ha, hlast⟩ := List.mem_filterMap.mp h
  exact (hsound.names a ha name hlast).plain

/-- Every folder that a path opens is found there, if the path goes on from `dir` by so many names
of entries at most. -/
def Clear (t : Tree) (dir : Path) (depth : Nat) : Prop :=
  ∀ names, names.length ≤ depth → (∀ name ∈ names, name ∈ t.names) → ∀ x,
    t.Opens (dir.spell names) x → t.locate (dir.spell names) = .ok x

theorem opens_allowing {links size : Nat} :
    (t.allowing links size).Opens path x ↔ t.Opens path x :=
  ⟨fun h => ⟨h.text, leads_allowing.mp h.leads, h.folder⟩,
    fun h => ⟨h.text, leads_allowing.mpr h.leads, h.folder⟩⟩

theorem eventually_clear (hsound : t.Sound) (dir : Path) (depth : Nat) :
    ∀ᶠ limit : Nat × Nat in atTop, (t.allowing limit.1 limit.2).Clear dir depth := by
  have hhere : ∀ dir : Path, ∀ᶠ limit : Nat × Nat in atTop, ∀ x, t.Opens dir x →
      (t.allowing limit.1 limit.2).locate dir = .ok x := by
    intro dir
    by_cases hopens : ∃ x, t.Opens dir x
    · obtain ⟨x, hx⟩ := hopens
      filter_upwards [eventually_locate hsound hx] with limit hlocate y hy
      rw [hlocate, hx.unique hy]
    · exact .of_forall fun limit x hx => absurd ⟨x, hx⟩ hopens
  induction depth generalizing dir with
  | zero =>
      filter_upwards [hhere dir] with limit hlocate names hlength _ x hx
      obtain rfl := List.length_eq_zero_iff.mp (Nat.le_zero.mp hlength)
      exact hlocate x (opens_allowing.mp hx)
  | succ depth ih =>
      have hbelow := (eventually_all_finite t.names.finite_toSet).mpr fun name _ =>
        ih (dir.join name)
      filter_upwards [hhere dir, hbelow] with limit hlocate hbelow names hlength hnames x hx
      cases names with
      | nil => exact hlocate x (opens_allowing.mp hx)
      | cons name rest =>
          obtain ⟨hname, hrest⟩ := List.forall_mem_cons.mp hnames
          exact hbelow name hname rest (Nat.le_of_succ_le_succ hlength) hrest x hx

end PluginHost.Storage.Tree
