import PluginHost.Proofs.Storage.Differing

/-!
Trees that differ in the names of files only. What a walk finds are the files of the folders that it
enters, and which folders these are depends on no file. So files that have other names in the same
folders have other names in the listing, and nothing else changes but the order.
-/

namespace PluginHost.Storage

namespace Terrain

variable {m : Terrain} {w v : Walk}

/-- The ways that go on from one by a name and end there. -/
def filesBelow (m : Terrain) (way : List String) : List (List String) :=
  ((m.below way).map fun name => way ++ [name]).filter fun way => !m.folder way

/-- The files that have been found or are still to be visited are those of the folders that have been
entered. -/
def Accounted (m : Terrain) (w : Walk) : Prop :=
  (w.files ++ w.ways.filter fun way => !m.folder way).Perm (w.entered.flatMap m.filesBelow)

theorem Step.accounted (h : m.Step w v) (hw : m.Accounted w) : m.Accounted v := by
  unfold Accounted at hw ⊢
  cases h with
  | again hfolder _ => simpa [hfolder] using hw
  | @enter way ways entered files hfolder _ =>
      have hrest : (files ++ ways.filter fun way => !m.folder way).Perm
          (entered.flatMap m.filesBelow) := by simpa [hfolder] using hw
      rw [List.filter_append, List.flatMap_cons, ← filesBelow]
      exact (List.perm_append_comm_assoc ..).trans (hrest.append_left _)
  | @file way ways entered files hfile =>
      have hall : (files ++ way :: ways.filter fun way => !m.folder way).Perm
          (entered.flatMap m.filesBelow) := by simpa [hfile] using hw
      exact List.perm_middle.symm.trans hall

theorem accounted_of_steps (h : Relation.ReflTransGen m.Step w v) (hw : m.Accounted w) :
    m.Accounted v := by
  induction h with
  | refl => exact hw
  | tail _ hstep ih => exact hstep.accounted ih

end Terrain

namespace Tree

variable {t t' : Tree} {dir path : Path} {way : List String} {entered files : List (List String)}

/-- The files in the folder that a path leads to, under this path. -/
def filesIn (t : Tree) (path : Path) : List Path :=
  match t.locate path with
  | .ok f => (t.pathsIn path f).filter fun path => !t.isFolder path
  | .error _ => []

theorem map_filesBelow (t : Tree) (dir : Path) (way : List String) :
    ((t.terrain dir).filesBelow way).map dir.spell = t.filesIn (dir.spell way) := by
  simp only [Terrain.filesBelow, filesIn, terrain, namesAt]
  cases hlocate : t.locate (dir.spell way) with
  | error fault => rfl
  | ok f => simp only [pathsIn_spell, List.filter_map, Function.comp_def]

/-- A listing of everything holds the files of all folders that have been entered. -/
theorem perm_listing (hdir : t.isFolder dir = true)
    (hvisit : (t.visit t.visitBound [dir] ⟨[], []⟩).files = files.map dir.spell)
    (hfiles : ∀ way ∈ files, Plain way ∧ t.isFolder (dir.spell way) = false)
    (hstrides : Relation.ReflTransGen (t.Stride dir) ⟨[[]], [], []⟩ ⟨[], entered, files⟩) :
    (t.listing dir "").Perm (entered.flatMap fun way => t.filesIn (dir.spell way)) := by
  have hstart : (t.terrain dir).Accounted ⟨[[]], [], []⟩ := by
    simp [Terrain.Accounted, terrain, hdir]
  have hend := Terrain.accounted_of_steps (hstrides.lift id fun _ _ hstride => hstride.2) hstart
  have hall : files.filter (hasSuffix "") = files := by
    refine List.filter_eq_self.mpr fun way hway => ?_
    cases hlast : way.getLast? with
    | some name => simp [hasSuffix, hlast, Text.endsWithLetters, Text.lower]
    | none =>
        obtain rfl := List.getLast?_eq_none_iff.mp hlast
        have hfile : t.isFolder dir = false := (hfiles [] hway).2
        simp [hdir] at hfile
  rw [listing_eq hdir hvisit hfiles, hall]
  have hfound : (files.map dir.spell).Perm ((entered.flatMap (t.terrain dir).filesBelow).map
      dir.spell) := by
    refine List.Perm.map _ ?_
    simpa [Terrain.Accounted] using hend
  rw [List.map_flatMap] at hfound
  simp only [map_filesBelow] at hfound
  exact ((List.mergeSort_perm _ _).map _).trans hfound

/-! The order of a listing. -/

theorem pairwise_listing (t : Tree) (dir : Path) (suffix : String) :
    (t.listing dir suffix).Pairwise fun a b => (compare a b).isLE = true := by
  unfold listing
  split
  · exact List.pairwise_mergeSort isLE_trans isLE_total _
  · exact .nil

/-- No two paths of a listing stand in one place of the order. -/
theorem eq_of_compare_listing (hsound : t.Sound) {suffix : String} {p q : Path}
    (hp : p ∈ t.listing dir suffix) (hq : q ∈ t.listing dir suffix) (h : compare p q = .eq) :
    p = q := by
  have hdir : dir.text ≠ "" := by
    intro hempty
    have hnone : t.isFolder dir = false := by simp [isFolder, locate, route, hempty]; rfl
    simp [listing, hnone] at hp
  obtain ⟨files, hlisting, hplain, -⟩ := exists_ending hsound dir suffix
  have hmem : ∀ way ∈ inOrder (files.filter (hasSuffix suffix)), Plain way :=
    fun way hway => hplain way (List.mem_filter.mp (List.mem_mergeSort.mp hway)).1
  rw [hlisting] at hp hq
  obtain ⟨way, hway, rfl⟩ := List.mem_map.mp hp
  obtain ⟨other, hother, rfl⟩ := List.mem_map.mp hq
  rw [Path.names_of_compare hdir (hmem way hway) (hmem other hother) h]

/-! Other names for files. -/

/-- Below `dir` stand the same folders in both trees, in the same order, and in each folder the same
files, if those of `t` are called by the paths that `rename` gives them. -/
structure Renamed (t t' : Tree) (rename : Path → Path) (dir : Path) : Prop where
  folder : ∀ way, Plain way → t'.isFolder (dir.spell way) = t.isFolder (dir.spell way)
  same : ∀ way other, Plain way → Plain other → t.isFolder (dir.spell way) = true →
    t.isFolder (dir.spell other) = true →
    (t.locate (dir.spell way) = t.locate (dir.spell other) ↔
      t'.locate (dir.spell way) = t'.locate (dir.spell other))
  order : ∀ way, Plain way → t.isFolder (dir.spell way) = true →
    (t.namesAt (dir.spell way)).filter (fun name => t.isFolder (dir.spell (way ++ [name]))) =
      (t'.namesAt (dir.spell way)).filter fun name => t.isFolder (dir.spell (way ++ [name]))
  files : ∀ way, Plain way → t.isFolder (dir.spell way) = true →
    ((t.filesIn (dir.spell way)).map rename).Perm (t'.filesIn (dir.spell way))

variable {rename : Path → Path}

/-- Trees with the same folders and links differ in files only. -/
theorem Scaffold.renamed (h : t.Scaffold t') (h' : t'.Scaffold t)
    (horder : ∀ way, Plain way → t.isFolder (dir.spell way) = true →
      (t.namesAt (dir.spell way)).filter (fun name => t.isFolder (dir.spell (way ++ [name]))) =
        (t'.namesAt (dir.spell way)).filter fun name => t.isFolder (dir.spell (way ++ [name])))
    (hfiles : ∀ way, Plain way → t.isFolder (dir.spell way) = true →
      ((t.filesIn (dir.spell way)).map rename).Perm (t'.filesIn (dir.spell way))) :
    t.Renamed t' rename dir where
  folder := fun way _ => (h.isFolder_eq h' _).symm
  same := by
    intro way other _ _ hfolder hfolder'
    obtain ⟨x, hlocate, hx⟩ := isFolder_iff.mp hfolder
    obtain ⟨y, hlocate', hy⟩ := isFolder_iff.mp hfolder'
    rw [hlocate, hlocate', h.locate_folder hlocate hx, h.locate_folder hlocate' hy]
  order := horder
  files := hfiles

theorem Renamed.inCommon (h : t.Renamed t' rename dir) :
    t.InCommon dir t' dir fun way => t.isFolder (dir.spell way) where
  closed := closed_of_folders fun _ hfolder => hfolder
  closed' := {
    below := fun way _ hway hfolder _ => (h.folder way hway).symm.trans hfolder
    apart := by
      intro way other hway hother hfolder _ hsame
      obtain ⟨x, hlocate, hx⟩ := isFolder_iff.mp hfolder
      rw [← h.folder other hother]
      exact isFolder_iff.mpr ⟨x, hsame.trans hlocate, hx⟩ }
  alike := fun way hway hfolder => .inl ⟨hfolder, (h.folder way hway).trans hfolder⟩
  same := fun way other hway hother _ _ hfolder hfolder' =>
    h.same way other hway hother hfolder hfolder'
  order := fun way hway _ hfolder => h.order way hway hfolder

theorem Renamed.perm_listing (h : t.Renamed t' rename dir) (hsound : t.Sound)
    (hsound' : t'.Sound) : ((t.listing dir "").map rename).Perm (t'.listing dir "") := by
  have hnil : Plain [] := by simp [Plain]
  have hdirs : t'.isFolder dir = t.isFolder dir := h.folder [] hnil
  cases hdir : t.isFolder dir with
  | false => simp [listing, hdirs, hdir]
  | true =>
      obtain ⟨entered, files, hvisit, hfiles, hproper, hstrides⟩ := exists_strides hsound dir
      obtain ⟨entered', files', hvisit', hfiles', hproper', hstrides'⟩ := exists_strides hsound' dir
      -- Both walks enter the same folders, by the same ways and in the same order.
      have hwalk := congrArg Walk.entered
        (h.inCommon.keeping_eq hstrides hstrides' rfl rfl)
      have hentered : entered = entered' := by
        have hall : ∀ way ∈ entered', t.isFolder (dir.spell way) = true := by
          intro way hway
          obtain ⟨hplain, hfolder⟩ := hproper'.entered way hway
          exact (h.folder way hplain).symm.trans hfolder
        simp only [Walk.keeping] at hwalk
        rwa [List.filter_eq_self.mpr fun way hway => (hproper.entered way hway).2,
          List.filter_eq_self.mpr hall] at hwalk
      subst hentered
      refine ((Tree.perm_listing hdir hvisit hfiles hstrides).map rename).trans ?_
      refine .trans ?_ (Tree.perm_listing (hdirs.trans hdir) hvisit' hfiles' hstrides').symm
      rw [List.map_flatMap]
      refine List.Perm.flatMap_left _ fun way hway => ?_
      obtain ⟨hplain, hfolder⟩ := hproper.entered way hway
      exact h.files way hplain hfolder

/-- The files of one kind are listed under their other names, if these stand in the same order. -/
theorem Renamed.filter_listing (h : t.Renamed t' rename dir) (hsound : t.Sound)
    (hsound' : t'.Sound) {p p' : Path → Bool}
    (hkind : ∀ path ∈ t.listing dir "", p' (rename path) = p path)
    (horder : ∀ a ∈ (t.listing dir "").filter p, ∀ b ∈ (t.listing dir "").filter p,
      compare (rename a) (rename b) = compare a b) :
    (t'.listing dir "").filter p' = ((t.listing dir "").filter p).map rename := by
  have hkept : ((t.listing dir "").map rename).filter p' =
      ((t.listing dir "").filter p).map rename := by
    rw [List.filter_map]
    exact congrArg _ (List.filter_congr hkind)
  have hperm : ((t'.listing dir "").filter p').Perm (((t.listing dir "").filter p).map rename) :=
    hkept ▸ ((h.perm_listing hsound hsound').filter p').symm
  have hsorted : (((t.listing dir "").filter p).map rename).Pairwise
      fun a b => (compare a b).isLE = true := by
    rw [List.pairwise_map]
    refine ((pairwise_listing t dir "").filter p).imp_of_mem fun ha hb hab => ?_
    rwa [horder _ ha _ hb]
  refine hperm.eq_of_pairwise (fun a b hfirst hsecond hab hba => ?_)
    ((pairwise_listing t' dir "").filter p') hsorted
  obtain ⟨a, ha, rfl⟩ := List.mem_map.mp (hperm.mem_iff.mp hfirst)
  obtain ⟨b, hb, rfl⟩ := List.mem_map.mp hsecond
  have heq := Std.OrientedCmp.isLE_antisymm hab hba
  rw [horder a ha b hb] at heq
  rw [eq_of_compare_listing hsound (List.mem_filter.mp ha).1 (List.mem_filter.mp hb).1 heq]

end Tree

end PluginHost.Storage
