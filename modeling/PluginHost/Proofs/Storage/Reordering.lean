import PluginHost.Proofs.Storage.Differing

/-!
Trees with the same folders and links whose folders give their names in different orders. A folder
may then be entered by another way, and its files be listed under other paths; but complete listings
have one path for each entry that is to be listed, so what is done for each entry is done for the same
ones, in another order.
-/

namespace PluginHost.Storage

/-- Of two lists whose elements have different keys, what is made of the elements is the same in
another order if equal keys give the same and a key that is in one of them only gives nothing. -/
theorem perm_flatMap_of_keys {α α' β κ : Type} (key : α → κ) (key' : α' → κ) {f : α → List β}
    {f' : α' → List β} {l : List α} {l' : List α'} (hkeys : (l.map key).Nodup)
    (hkeys' : (l'.map key').Nodup) (hboth : ∀ a ∈ l, ∀ a' ∈ l', key a = key' a' → f a = f' a')
    (hlone : ∀ a ∈ l, key a ∉ l'.map key' → f a = [])
    (hlone' : ∀ a' ∈ l', key' a' ∉ l.map key → f' a' = []) :
    (l.flatMap f).Perm (l'.flatMap f') := by
  induction l generalizing l' with
  | nil =>
      rw [List.flatMap_nil, List.flatMap_eq_nil_iff.mpr fun a' ha' => hlone' a' ha' (by simp)]
  | cons a l ih =>
      obtain ⟨hnew, hkeys⟩ := List.nodup_cons.mp hkeys
      obtain ⟨hfirst, hboth⟩ := List.forall_mem_cons.mp hboth
      obtain ⟨hnone, hlone⟩ := List.forall_mem_cons.mp hlone
      rw [List.flatMap_cons]
      by_cases hthere : key a ∈ l'.map key'
      · obtain ⟨a', ha', hkey⟩ := List.mem_map.mp hthere
        rw [hfirst a' ha' hkey.symm]
        obtain ⟨front, back, rfl⟩ := List.append_of_mem ha'
        have hmiddle : (front ++ a' :: back).Perm (a' :: (front ++ back)) := List.perm_middle
        obtain ⟨hnew', hrest⟩ := List.nodup_cons.mp ((hmiddle.map key').nodup_iff.mp hkeys')
        refine .trans (.append_left _ (ih hkeys hrest ?_ ?_ ?_)) (hmiddle.flatMap_right f').symm
        · exact fun b hb b' hb' => hboth b hb b' (hmiddle.mem_iff.mpr (.tail _ hb'))
        · intro b hb hother
          refine hlone b hb fun hmem => ?_
          rcases List.mem_cons.mp ((hmiddle.map key').mem_iff.mp hmem) with hsame | hmem
          · exact hnew (hkey ▸ hsame ▸ List.mem_map_of_mem hb)
          · exact hother hmem
        · intro b' hb' hother
          refine hlone' b' (hmiddle.mem_iff.mpr (.tail _ hb')) fun hmem => ?_
          rcases List.mem_cons.mp hmem with hsame | hmem
          · exact hnew' (hkey ▸ hsame ▸ List.mem_map_of_mem hb')
          · exact hother hmem
      · rw [hnone hthere, List.nil_append]
        refine ih hkeys hkeys' hboth hlone fun b' hb' hother => hlone' b' hb' fun hmem => ?_
        rcases List.mem_cons.mp hmem with hsame | hmem
        · exact hthere (hsame ▸ List.mem_map_of_mem hb')
        · exact hother hmem

namespace Tree

variable {t t' : Tree} {dir path : Path} {a f g x : Address} {name other step suffix : String}
  {steps : List String} {found : List Path}

/-! Ways through folders and links. -/

section

variable (h : t.Scaffold t') (h' : t'.Scaffold t)
include h h'

theorem Scaffold.stepFrom_eq : t'.stepFrom a step = t.stepFrom a step := by
  cases hdots : isDots step with
  | true => exact stepFrom_congr fun hname => by simp [hdots] at hname
  | false =>
      by_cases hlink : ∃ aim, t.get? (a ++ [step]) = some (.link aim)
      · obtain ⟨aim, haim⟩ := hlink
        rw [stepFrom_link hdots haim, stepFrom_link hdots (h.links _ aim haim)]
      · have hnone : ∀ aim, t.get? (a ++ [step]) ≠ some (.link aim) :=
          fun aim haim => hlink ⟨aim, haim⟩
        rw [stepFrom_name hdots hnone,
          stepFrom_name hdots fun aim haim => hnone aim (h'.links _ aim haim)]

theorem Leads.of_scaffold (hleads : Leads t a steps x) : Leads t' a steps x := by
  induction hleads with
  | done a => exact .done a
  | step hfolder _ ih =>
      rw [← h.stepFrom_eq h'] at ih
      exact .step (h.isFolderAt hfolder) ih

theorem Opens.of_scaffold (hopens : t.Opens path f) : t'.Opens path f where
  text := hopens.text
  leads := h.here ▸ hopens.leads.of_scaffold h h'
  folder := h.isFolderAt hopens.folder

theorem Denotes.of_scaffold (hdenotes : t.Denotes path f name) : t'.Denotes path f name where
  name := hdenotes.name
  parent := by
    obtain ⟨parent, hparent, hopens⟩ := hdenotes.parent
    exact ⟨parent, hparent, hopens.of_scaffold h h'⟩

theorem Reached.of_scaffold (hsound : t.Sound) (hreached : t.Reached dir f) :
    t'.Reached dir f := by
  induction hreached with
  | start hopens => exact .start (hopens.of_scaffold h h')
  | enter _ hname hleads hx ih =>
      have hleads' := hleads.of_scaffold h h'
      have hfolder := h.isFolderAt hx
      exact .enter ih (hleads'.mem_namesIn hfolder (hsound.admits hname).plain.isDots_eq_false)
        hleads' hfolder

theorem Ends.of_scaffold (hends : t.Ends f name) (hname : name ∈ t'.namesIn f) :
    t'.Ends f name where
  entry := hname
  ends := by
    intro x hleads
    rw [← Bool.not_eq_true]
    intro hfolder
    have hfile := hends.ends x (hleads.of_scaffold h' h)
    simp [h'.isFolderAt hfolder] at hfile

end

/-! The entries that a listing is about. -/

theorem Denotes.unique (h : t.Denotes path f name) (h' : t.Denotes path g other) :
    f = g ∧ name = other := by
  obtain ⟨parent, hparent, hf⟩ := h.parent
  obtain ⟨again, hagain, hg⟩ := h'.parent
  obtain rfl := Option.some.inj (hparent.symm.trans hagain)
  exact ⟨hf.unique hg, Option.some.inj (h.name.symm.trans h'.name)⟩

/-- Each path of a complete listing stands for another entry. -/
theorem Walked.exists_key (h : t.Walked dir suffix found) :
    ∃ key : Path → Address × String,
      (∀ path ∈ found, t.Denotes path (key path).1 (key path).2) ∧ (found.map key).Nodup ∧
        ∀ f name, (f, name) ∈ found.map key ↔
          t.Reached dir f ∧ t.Ends f name ∧ Text.endsWithLetters name suffix = true := by
  have hentries : ∀ path ∈ found, ∃ entry : Address × String, t.Reached dir entry.1 ∧
      t.Ends entry.1 entry.2 ∧ Text.endsWithLetters entry.2 suffix = true ∧
        t.Denotes path entry.1 entry.2 := by
    intro path hpath
    obtain ⟨f, name, hentry⟩ := h.only path hpath
    exact ⟨(f, name), hentry⟩
  choose! key hkey using hentries
  refine ⟨key, fun path hpath => (hkey path hpath).2.2.2, ?_, fun f name => ?_⟩
  · have hnodup : found.Nodup := h.sorted.imp fun hlt heq => by
      rw [heq, Std.ReflOrd.compare_self] at hlt
      cases hlt
    refine (List.nodup_map_iff_inj_on hnodup).mpr fun path hpath again hagain hsame => ?_
    obtain ⟨hreached, hends, hsuffix, hdenotes⟩ := hkey path hpath
    exact (h.once _ _ hreached hends hsuffix).unique ⟨hpath, hdenotes⟩
      ⟨hagain, hsame ▸ (hkey again hagain).2.2.2⟩
  · constructor
    · intro hmem
      obtain ⟨path, hpath, hpair⟩ := List.mem_map.mp hmem
      obtain ⟨hreached, hends, hsuffix, -⟩ := hkey path hpath
      rw [hpair] at hreached hends hsuffix
      exact ⟨hreached, hends, hsuffix⟩
    · rintro ⟨hreached, hends, hsuffix⟩
      obtain ⟨path, ⟨hpath, hdenotes⟩, -⟩ := h.once f name hreached hends hsuffix
      obtain ⟨hfolder, hname⟩ := (hkey path hpath).2.2.2.unique hdenotes
      exact List.mem_map.mpr ⟨path, hpath, Prod.ext hfolder hname⟩

/-- What is made of the paths of two complete listings is the same in another order, if paths of one
entry give the same and entries that are in one tree only give nothing. -/
theorem perm_of_walked {β : Type} (h : t.Scaffold t') (h' : t'.Scaffold t) (hsound : t.Sound)
    (hsound' : t'.Sound) {found' : List Path} (hwalked : t.Walked dir suffix found)
    (hwalked' : t'.Walked dir suffix found') {make make' : Path × Nat → List β}
    (hboth : ∀ place ∈ found.zipIdx, ∀ place' ∈ found'.zipIdx, ∀ f name,
      t.Denotes place.1 f name → t'.Denotes place'.1 f name → make place = make' place')
    (hlone : ∀ place ∈ found.zipIdx, ∀ f name, t.Denotes place.1 f name → name ∉ t'.namesIn f →
      make place = [])
    (hlone' : ∀ place ∈ found'.zipIdx, ∀ f name, t'.Denotes place.1 f name → name ∉ t.namesIn f →
      make' place = []) :
    (found.zipIdx.flatMap make).Perm (found'.zipIdx.flatMap make') := by
  obtain ⟨key, hdenotes, hnodup, hmem⟩ := hwalked.exists_key
  obtain ⟨key', hdenotes', hnodup', hmem'⟩ := hwalked'.exists_key
  have hkeys : ∀ {key : Path → Address × String} {found : List Path},
      found.zipIdx.map (fun place => key place.1) = found.map key := by
    intro key found
    conv_rhs => rw [← List.zipIdx_map_fst 0 found, List.map_map]
    rfl
  refine perm_flatMap_of_keys (fun place => key place.1) (fun place => key' place.1)
    (hkeys ▸ hnodup) (hkeys ▸ hnodup') ?_ ?_ ?_
  · intro place hplace place' hplace' hsame
    have hfirst := hdenotes _ (List.fst_mem_of_mem_zipIdx hplace)
    exact hboth place hplace place' hplace' _ _ hfirst
      (hsame ▸ hdenotes' _ (List.fst_mem_of_mem_zipIdx hplace'))
  · intro place hplace hnone
    rw [hkeys] at hnone
    have hpath := List.fst_mem_of_mem_zipIdx hplace
    obtain ⟨hreached, hends, hsuffix⟩ := (hmem _ _).mp (List.mem_map_of_mem hpath)
    exact hlone place hplace _ _ (hdenotes _ hpath) fun hname => hnone ((hmem' _ _).mpr
      ⟨hreached.of_scaffold h h' hsound, hends.of_scaffold h h' hname, hsuffix⟩)
  · intro place hplace hnone
    rw [hkeys] at hnone
    have hpath := List.fst_mem_of_mem_zipIdx hplace
    obtain ⟨hreached, hends, hsuffix⟩ := (hmem' _ _).mp (List.mem_map_of_mem hpath)
    exact hlone' place hplace _ _ (hdenotes' _ hpath) fun hname => hnone ((hmem _ _).mpr
      ⟨hreached.of_scaffold h' h hsound', hends.of_scaffold h' h hname, hsuffix⟩)

end Tree

end PluginHost.Storage
