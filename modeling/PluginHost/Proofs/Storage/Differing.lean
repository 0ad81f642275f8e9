import Mathlib.Logic.Relation
import PluginHost.Proofs.Storage.Enumerating

/-!
Listings of two folders that have some ways in common. What a walk does is determined by what it
comes upon. A way that is not common leads to no common one, so if the common names come in the same
order, both walks enter the common folders by the same ways, and their listings agree in the common
files, whatever else there is.
-/

namespace PluginHost.Storage

/-! Walks that know the ways only. -/

/-- How far a walk has come: the ways that are still to be visited, those by which folders have been
entered, and those that have ended. -/
structure Walk where
  ways : List (List String)
  entered : List (List String)
  files : List (List String)

/-- All that a walk asks: whether a way leads to a folder, whether two lead to the same one, and
which names are in it. -/
structure Terrain where
  folder : List String → Bool
  same : List String → List String → Prop
  below : List String → List String

/-- What is left when some ways are left out. -/
def Walk.keeping (w : Walk) (kept : List String → Bool) : Walk :=
  ⟨w.ways.filter kept, w.entered.filter kept, w.files.filter kept⟩

namespace Terrain

def keeping (m : Terrain) (kept : List String → Bool) : Terrain :=
  { m with below := fun way => (m.below way).filter fun name => kept (way ++ [name]) }

/-- A visit to the first way. -/
inductive Step (m : Terrain) : Walk → Walk → Prop
  | again {way : List String} {ways entered files : List (List String)}
      (hfolder : m.folder way = true) (hentered : ∃ other ∈ entered, m.same other way) :
      Step m ⟨way :: ways, entered, files⟩ ⟨ways, entered, files⟩
  | enter {way : List String} {ways entered files : List (List String)}
      (hfolder : m.folder way = true) (hnew : ∀ other ∈ entered, ¬ m.same other way) :
      Step m ⟨way :: ways, entered, files⟩
        ⟨(m.below way).map (fun name => way ++ [name]) ++ ways, way :: entered, files⟩
  | file {way : List String} {ways entered files : List (List String)}
      (hfile : m.folder way = false) :
      Step m ⟨way :: ways, entered, files⟩ ⟨ways, entered, way :: files⟩

variable {m m' : Terrain} {w v v' : Walk}

theorem step_unique : Relator.RightUnique m.Step := by
  intro w v v' h h'
  cases h with
  | again hfolder hentered =>
      cases h' with
      | again _ _ => rfl
      | enter _ hnew =>
          obtain ⟨other, hother, hsame⟩ := hentered
          exact absurd hsame (hnew other hother)
      | file hfile => simp [hfolder] at hfile
  | enter hfolder hnew =>
      cases h' with
      | again _ hentered =>
          obtain ⟨other, hother, hsame⟩ := hentered
          exact absurd hsame (hnew other hother)
      | enter _ _ => rfl
      | file hfile => simp [hfolder] at hfile
  | file hfile =>
      cases h' with
      | again hfolder _ => simp [hfile] at hfolder
      | enter hfolder _ => simp [hfile] at hfolder
      | file _ => rfl

theorem eq_of_over (h : Relation.ReflTransGen m.Step w v) (hover : w.ways = []) : w = v := by
  cases Relation.ReflTransGen.cases_head h with
  | inl heq => exact heq
  | inr hstep =>
      obtain ⟨next, hstep, -⟩ := hstep
      cases hstep <;> simp at hover

/-- Walks that begin alike end alike. -/
theorem end_unique (h : Relation.ReflTransGen m.Step w v) (h' : Relation.ReflTransGen m.Step w v')
    (hover : v.ways = []) (hover' : v'.ways = []) : v = v' := by
  rcases Relation.ReflTransGen.total_of_right_unique step_unique h h' with hmore | hmore
  · exact eq_of_over hmore hover
  · exact (eq_of_over hmore hover').symm

/-- A visit to a way that is kept is one also when the others are left out, and a visit to one of
these is none, if the others lead neither to ways that are kept nor to their folders. -/
theorem Step.keeping {kept : List String → Bool} (h : m.Step w v)
    (hbelow : ∀ way ∈ w.ways, m.folder way = true → ∀ name, kept (way ++ [name]) = true →
      kept way = true)
    (hapart : ∀ way ∈ w.ways, m.folder way = true → kept way = true →
      ∀ other ∈ w.entered, m.same other way → kept other = true) :
    w.keeping kept = v.keeping kept ∨ (m.keeping kept).Step (w.keeping kept) (v.keeping kept) := by
  cases h with
  | @again way ways entered files hfolder hentered =>
      cases hway : kept way with
      | false => exact .inl (by simp [Walk.keeping, hway])
      | true =>
          obtain ⟨other, hother, hsame⟩ := hentered
          have hkept := hapart way List.mem_cons_self hfolder hway other hother hsame
          rw [Walk.keeping, List.filter_cons_of_pos hway]
          exact .inr (.again hfolder ⟨other, List.mem_filter.mpr ⟨hother, hkept⟩, hsame⟩)
  | @enter way ways entered files hfolder hnew =>
      cases hway : kept way with
      | false =>
          have hnone : ((m.below way).map fun name => way ++ [name]).filter kept = [] := by
            rw [List.filter_eq_nil_iff, List.forall_mem_map]
            intro name _ hname
            simp [hbelow way List.mem_cons_self hfolder name hname] at hway
          exact .inl (by simp [Walk.keeping, hway, hnone])
      | true =>
          rw [Walk.keeping, Walk.keeping, List.filter_cons_of_pos hway,
            List.filter_cons_of_pos hway, List.filter_append, List.filter_map]
          exact .inr (.enter hfolder fun other hother => hnew other (List.mem_filter.mp hother).1)
  | @file way ways entered files hfile =>
      cases hway : kept way with
      | false => exact .inl (by simp [Walk.keeping, hway])
      | true =>
          rw [Walk.keeping, Walk.keeping, List.filter_cons_of_pos hway,
            List.filter_cons_of_pos hway]
          exact .inr (.file hfile)

/-- A visit depends on what is known of the ways that the walk has come upon. -/
theorem Step.congr (h : m.Step w v) (hfolder : ∀ way ∈ w.ways, m.folder way = m'.folder way)
    (hsame : ∀ way ∈ w.ways, m.folder way = true → ∀ other ∈ w.entered,
      (m.same other way ↔ m'.same other way))
    (hbelow : ∀ way ∈ w.ways, m.folder way = true → m.below way = m'.below way) :
    m'.Step w v := by
  cases h with
  | @again way ways entered files hthere hentered =>
      have hway := List.mem_cons_self (a := way) (l := ways)
      obtain ⟨other, hother, hother'⟩ := hentered
      exact .again (hfolder way hway ▸ hthere)
        ⟨other, hother, (hsame way hway hthere other hother).mp hother'⟩
  | @enter way ways entered files hthere hnew =>
      have hway := List.mem_cons_self (a := way) (l := ways)
      rw [hbelow way hway hthere]
      exact .enter (hfolder way hway ▸ hthere) fun other hother hagain =>
        hnew other hother ((hsame way hway hthere other hother).mpr hagain)
  | @file way ways entered files hfile =>
      exact .file (hfolder way List.mem_cons_self ▸ hfile)

end Terrain

namespace Tree

variable {t t' : Tree} {dir dir' path : Path} {a f x : Address} {name : String}
  {way steps : List String} {rest paths : List Path} {found next : Listing} {w v : Walk}

/-! The walk through a tree. -/

/-- The names in the folder that a path leads to, in the order in which they come. -/
def namesAt (t : Tree) (path : Path) : List String :=
  match t.locate path with
  | .ok f => t.namesIn f
  | .error _ => []

/-- What a walk meets below a path. -/
def terrain (t : Tree) (dir : Path) : Terrain where
  folder way := t.isFolder (dir.spell way)
  same way other := t.locate (dir.spell way) = t.locate (dir.spell other)
  below way := t.namesAt (dir.spell way)

def Plain (way : List String) : Prop :=
  ∀ name ∈ way, Path.PlainName name

/-- All names are plain, and folders have been entered. -/
structure Proper (t : Tree) (dir : Path) (w : Walk) : Prop where
  ways : ∀ way ∈ w.ways, Plain way
  entered : ∀ way ∈ w.entered, Plain way ∧ t.isFolder (dir.spell way) = true

/-- A visit on a walk of plain names. -/
def Stride (t : Tree) (dir : Path) (w v : Walk) : Prop :=
  t.Proper dir w ∧ (t.terrain dir).Step w v

section

variable {seen : List (Address × List String)} {stack files : List (List String)}

theorem Progress.plain (h : t.Progress dir seen stack files) (hsound : t.Sound)
    (hway : way ∈ stack ++ files) : Plain way :=
  fun name hname => hsound.plain (h.mem_names (h.due way hway) name hname)

theorem Progress.proper (h : t.Progress dir seen stack files) (hsound : t.Sound) :
    t.Proper dir ⟨stack, seen.map Prod.snd, files⟩ where
  ways := fun way hway => h.plain hsound (List.mem_append_left _ hway)
  entered := by
    intro way hway
    obtain ⟨entry, hentry, rfl⟩ := List.mem_map.mp hway
    exact ⟨fun name hname => hsound.plain (h.named entry hentry name hname),
      isFolder_iff.mpr ⟨_, h.located entry hentry, h.folder entry hentry⟩⟩

/-- The walk has come this far by visits to ways. -/
def Strode (t : Tree) (dir : Path) (paths : List Path) (found : Listing) : Prop :=
  ∃ seen stack files, paths = stack.map dir.spell ∧
    found = ⟨seen.map Prod.fst, files.map dir.spell⟩ ∧ t.Progress dir seen stack files ∧
    Relation.ReflTransGen (t.Stride dir) ⟨[[]], [], []⟩ ⟨stack, seen.map Prod.snd, files⟩

theorem Strode.onward (hsound : t.Sound) (h : t.Strode dir (path :: rest) found)
    (honward : t.Onward path rest found paths next) : t.Strode dir paths next := by
  obtain ⟨seen, stack, files, hpaths, rfl, h, hstrode⟩ := h
  obtain ⟨way, stack, rfl, rfl, rfl⟩ := List.map_eq_cons_iff.mp hpaths.symm
  have hproper := h.proper hsound
  cases honward with
  | @again f hlocate hfolder hentered =>
      obtain ⟨entry, hentry, rfl⟩ := List.mem_map.mp hentered
      refine ⟨_, _, _, rfl, rfl, h.again hlocate hentered, hstrode.tail ⟨hproper, .again ?_ ?_⟩⟩
      · exact isFolder_iff.mpr ⟨_, hlocate, hfolder⟩
      · exact ⟨entry.2, List.mem_map_of_mem hentry,
          (h.located entry hentry).trans hlocate.symm⟩
  | @enter f hlocate hfolder hnew =>
      have hbelow : (t.terrain dir).below way = t.namesIn f := by
        simp only [terrain, namesAt, hlocate]
      refine ⟨_, _, _, ?_, rfl, h.enter hsound hlocate hfolder hnew,
        hstrode.tail ⟨hproper, ?_⟩⟩
      · rw [List.map_append, pathsIn_spell]
      · rw [← hbelow]
        refine .enter (isFolder_iff.mpr ⟨_, hlocate, hfolder⟩) fun other hother hsame => ?_
        obtain ⟨entry, hentry, rfl⟩ := List.mem_map.mp hother
        obtain rfl := Except.ok.inj ((h.located entry hentry).symm.trans (hsame.trans hlocate))
        exact hnew (List.mem_map_of_mem hentry)
  | file hfile =>
      refine ⟨_, _, _, rfl, rfl, h.file hfile, hstrode.tail ⟨hproper, .file ?_⟩⟩
      rw [← Bool.not_eq_true]
      intro hfolder
      obtain ⟨x, hlocate, hx⟩ := isFolder_iff.mp hfolder
      simp [hfile x hlocate] at hx

/-- The walk goes by visits to ways until none is left. -/
theorem exists_strides (hsound : t.Sound) (dir : Path) : ∃ entered files,
    (t.visit t.visitBound [dir] ⟨[], []⟩).files = files.map dir.spell ∧
      (∀ way ∈ files, Plain way ∧ t.isFolder (dir.spell way) = false) ∧
      t.Proper dir ⟨[], entered, files⟩ ∧
      Relation.ReflTransGen (t.Stride dir) ⟨[[]], [], []⟩ ⟨[], entered, files⟩ := by
  have hstart : t.Strode dir [dir] ⟨[], []⟩ := ⟨[], [[]], [], rfl, rfl, .start, .refl⟩
  obtain ⟨seen, stack, files, hstack, hfound, h, hstrode⟩ := visit_induction
    (fun h honward => h.onward hsound honward) (pending_start t dir) hstart
  obtain rfl := List.map_eq_nil_iff.mp hstack.symm
  refine ⟨_, files, congrArg Listing.files hfound, fun way hway => ⟨h.plain hsound hway, ?_⟩,
    h.proper hsound, hstrode⟩
  rw [← Bool.not_eq_true]
  intro hfolder
  obtain ⟨x, hlocate, hx⟩ := isFolder_iff.mp hfolder
  simp [h.ended way hway x hlocate] at hx

end

/-! Two folders. -/

/-- Ways that are left out lead neither to ways that are kept nor to their folders. -/
structure Closed (t : Tree) (dir : Path) (kept : List String → Bool) : Prop where
  below : ∀ way name, Plain way → t.isFolder (dir.spell way) = true →
    kept (way ++ [name]) = true → kept way = true
  apart : ∀ way other, Plain way → Plain other → t.isFolder (dir.spell way) = true →
    kept way = true → t.locate (dir.spell other) = t.locate (dir.spell way) → kept other = true

/-- The ways that are kept lead to folders from both paths or to files with the same text, and to
the same folder from both or from neither; in a folder the names that are kept come in the same
order. -/
structure InCommon (t : Tree) (dir : Path) (t' : Tree) (dir' : Path)
    (kept : List String → Bool) : Prop where
  closed : t.Closed dir kept
  closed' : t'.Closed dir' kept
  alike : ∀ way, Plain way → kept way = true →
    (t.isFolder (dir.spell way) = true ∧ t'.isFolder (dir'.spell way) = true) ∨
      ∃ text, t.read (dir.spell way) = .ok text ∧ t'.read (dir'.spell way) = .ok text
  same : ∀ way other, Plain way → Plain other → kept way = true → kept other = true →
    t.isFolder (dir.spell way) = true → t.isFolder (dir.spell other) = true →
    (t.locate (dir.spell way) = t.locate (dir.spell other) ↔
      t'.locate (dir'.spell way) = t'.locate (dir'.spell other))
  order : ∀ way, Plain way → kept way = true → t.isFolder (dir.spell way) = true →
    (t.namesAt (dir.spell way)).filter (fun name => kept (way ++ [name])) =
      (t'.namesAt (dir'.spell way)).filter fun name => kept (way ++ [name])

variable {kept : List String → Bool}

theorem not_folder_of_read {text : String} (h : t.read path = .ok text) :
    t.isFolder path = false := by
  obtain ⟨x, hlocate, hx⟩ := read_eq_ok.mp h
  rw [← Bool.not_eq_true]
  intro hfolder
  obtain ⟨y, hlocate', hy⟩ := isFolder_iff.mp hfolder
  obtain rfl := Except.ok.inj (hlocate.symm.trans hlocate')
  simp [isFolderAt_iff, hx] at hy

theorem InCommon.folder_eq (h : t.InCommon dir t' dir' kept) (hway : Plain way)
    (hkept : kept way = true) : t.isFolder (dir.spell way) = t'.isFolder (dir'.spell way) := by
  rcases h.alike way hway hkept with ⟨hfolder, hfolder'⟩ | ⟨text, hread, hread'⟩
  · rw [hfolder, hfolder']
  · rw [not_folder_of_read hread, not_folder_of_read hread']

/-- A visit is one also where only the ways that are kept are known, or none. -/
theorem Stride.step_keeping (h : t.Stride dir w v) (hclosed : t.Closed dir kept) :
    w.keeping kept = v.keeping kept ∨
      ((t.terrain dir).keeping kept).Step (w.keeping kept) (v.keeping kept) := by
  obtain ⟨hproper, hstep⟩ := h
  apply hstep.keeping
  · intro way hway hfolder name hkept
    exact hclosed.below way name (hproper.ways way hway) hfolder hkept
  · intro way hway hfolder hkept other hother hsame
    exact hclosed.apart way other (hproper.ways way hway) (hproper.entered other hother).1 hfolder
      hkept hsame

theorem Stride.keeping (h : t.Stride dir w v) (hclosed : t.Closed dir kept) :
    Relation.ReflTransGen ((t.terrain dir).keeping kept).Step (w.keeping kept)
      (v.keeping kept) := by
  rcases h.step_keeping hclosed with heq | hstep
  · rw [heq]
  · exact .single hstep

/-- The common part of a walk from the second path is one from the first. -/
theorem InCommon.stride (h : t.InCommon dir t' dir' kept) (hstride : t'.Stride dir' w v) :
    Relation.ReflTransGen ((t.terrain dir).keeping kept).Step (w.keeping kept)
      (v.keeping kept) := by
  rcases hstride.step_keeping h.closed' with heq | hstep
  · rw [heq]
  · have hways : ∀ way ∈ (w.keeping kept).ways, Plain way ∧ kept way = true := by
      intro way hway
      obtain ⟨hmem, hkept⟩ := List.mem_filter.mp hway
      exact ⟨hstride.1.ways way hmem, hkept⟩
    refine .single (hstep.congr ?_ ?_ ?_)
    · intro way hway
      obtain ⟨hplain, hkept⟩ := hways way hway
      exact (h.folder_eq hplain hkept).symm
    · intro way hway hfolder other hother
      obtain ⟨hplain, hkept⟩ := hways way hway
      obtain ⟨hmem, hkept'⟩ := List.mem_filter.mp hother
      obtain ⟨hplain', hother⟩ := hstride.1.entered other hmem
      exact (h.same other way hplain' hplain hkept' hkept
        ((h.folder_eq hplain' hkept').trans hother)
        ((h.folder_eq hplain hkept).trans hfolder)).symm
    · intro way hway hfolder
      obtain ⟨hplain, hkept⟩ := hways way hway
      exact (h.order way hplain hkept ((h.folder_eq hplain hkept).trans hfolder)).symm

/-! Listings. -/

theorem compare_append {α : Type} [Ord α] [Std.ReflOrd α] (front a b : List α) :
    compare (front ++ a) (front ++ b) = compare a b := by
  induction front with
  | nil => rfl
  | cons c front ih =>
      have hcons : compare (c :: (front ++ a)) (c :: (front ++ b)) =
          (compare c c).then (compare (front ++ a) (front ++ b)) := List.compareLex_cons_cons
      rw [List.cons_append, List.cons_append, hcons, Std.ReflOrd.compare_self]
      exact ih

/-- Ways in the order of the paths that they spell. -/
def inOrder (ways : List (List String)) : List (List String) :=
  ways.mergeSort fun a b =>
    (compare (a.map Path.Component.name) (b.map Path.Component.name)).isLE

theorem map_inOrder (hdir : dir.text ≠ "") {ways : List (List String)}
    (hways : ∀ way ∈ ways, Plain way) :
    (inOrder ways).map dir.spell =
      (ways.map dir.spell).mergeSort fun a b => (compare a b).isLE := by
  apply List.map_mergeSort
  intro a ha b hb
  have hcompare : compare (dir.spell a) (dir.spell b) =
      compare (dir.spell a).components (dir.spell b).components := rfl
  rw [hcompare, Path.components_spell hdir (hways a ha), Path.components_spell hdir (hways b hb),
    compare_append]

theorem filter_inOrder (p : List String → Bool) (ways : List (List String)) :
    (inOrder ways).filter p = inOrder (ways.filter p) :=
  filter_mergeSort
    (fun a b c => isLE_trans (a.map Path.Component.name) (b.map .name) (c.map .name))
    (fun a b => isLE_total (a.map Path.Component.name) (b.map .name)) p ways

def hasSuffix (suffix : String) (way : List String) : Bool :=
  way.getLast?.any fun name => Text.endsWithLetters name suffix

theorem hasSuffix_spell (dir : Path) (suffix : String) (hway : Plain way) (hne : way ≠ []) :
    (dir.spell way).hasSuffix suffix = hasSuffix suffix way := by
  induction way using List.reverseRecOn with
  | nil => exact absurd rfl hne
  | append_singleton front name _ =>
      have hname : Path.PlainName name := hway name (by simp)
      rw [Path.spell_concat, Path.hasSuffix_join hname, hasSuffix, List.getLast?_concat,
        Option.any_some]

theorem listing_eq {files : List (List String)} (hdir : t.isFolder dir = true)
    (hvisit : (t.visit t.visitBound [dir] ⟨[], []⟩).files = files.map dir.spell)
    (hfiles : ∀ way ∈ files, Plain way ∧ t.isFolder (dir.spell way) = false) (suffix : String) :
    t.listing dir suffix = (inOrder (files.filter (hasSuffix suffix))).map dir.spell := by
  obtain ⟨x, hlocate, hx⟩ := isFolder_iff.mp hdir
  have hplain : ∀ way ∈ files.filter (hasSuffix suffix), Plain way :=
    fun way hway => (hfiles way (List.mem_filter.mp hway).1).1
  have hsuffix : (files.map dir.spell).filter (·.hasSuffix suffix) =
      (files.filter (hasSuffix suffix)).map dir.spell := by
    rw [List.filter_map]
    apply congrArg
    apply List.filter_congr
    intro way hway
    obtain ⟨hplain, hfile⟩ := hfiles way hway
    apply hasSuffix_spell dir suffix hplain
    rintro rfl
    simp [Path.spell, hdir] at hfile
  rw [map_inOrder (opens_of_locate hlocate hx).text hplain, ← hsuffix, listing, if_pos hdir]
  dsimp only
  rw [hvisit]

/-- The ways that a walk from a path ends with; there are none if the path leads to no folder. -/
inductive Ending (t : Tree) (dir : Path) : List (List String) → Prop
  | nothing (hdir : t.isFolder dir = false) : Ending t dir []
  | walk {entered files : List (List String)} (hdir : t.isFolder dir = true)
      (hstrides : Relation.ReflTransGen (t.Stride dir) ⟨[[]], [], []⟩ ⟨[], entered, files⟩) :
      Ending t dir files

theorem exists_ending (hsound : t.Sound) (dir : Path) (suffix : String) : ∃ files,
    t.listing dir suffix = (inOrder (files.filter (hasSuffix suffix))).map dir.spell ∧
      (∀ way ∈ files, Plain way) ∧ t.Ending dir files := by
  cases hdir : t.isFolder dir with
  | false => exact ⟨[], by simp [listing, hdir, inOrder], by simp, .nothing hdir⟩
  | true =>
      obtain ⟨entered, files, hvisit, hfiles, -, hstrides⟩ := exists_strides hsound dir
      exact ⟨files, listing_eq hdir hvisit hfiles suffix, fun way hway => (hfiles way hway).1,
        .walk hdir hstrides⟩

variable {files files' : List (List String)}

/-- If the folder itself is left out, everything below it is. -/
theorem Ending.filter_eq_nil (h : t.Ending dir files) (hclosed : t.Closed dir kept)
    (hroot : kept [] = false) : files.filter kept = [] := by
  cases h with
  | nothing _ => rfl
  | walk _ hstrides =>
      have hrun := hstrides.lift' (Walk.keeping · kept) fun _ _ h => h.keeping hclosed
      have hnothing := Terrain.eq_of_over hrun (by simp [Walk.keeping, hroot])
      exact (congrArg Walk.files hnothing).symm

/-- The common parts of walks from both paths are one walk. -/
theorem InCommon.keeping_eq (h : t.InCommon dir t' dir' kept)
    (hstrides : Relation.ReflTransGen (t.Stride dir) ⟨[[]], [], []⟩ w)
    (hstrides' : Relation.ReflTransGen (t'.Stride dir') ⟨[[]], [], []⟩ v) (hover : w.ways = [])
    (hover' : v.ways = []) : w.keeping kept = v.keeping kept := by
  have hrun := hstrides.lift' (Walk.keeping · kept) fun _ _ hstride => hstride.keeping h.closed
  have hrun' := hstrides'.lift' (Walk.keeping · kept) fun _ _ hstride => h.stride hstride
  -- Both are walks over one terrain from one beginning.
  refine Terrain.end_unique hrun hrun' ?_ ?_
  · simp [Walk.keeping, hover]
  · simp [Walk.keeping, hover']

theorem InCommon.ending_eq (h : t.InCommon dir t' dir' kept) (hfiles : t.Ending dir files)
    (hfiles' : t'.Ending dir' files') : files.filter kept = files'.filter kept := by
  cases hroot : kept [] with
  | false =>
      rw [hfiles.filter_eq_nil h.closed hroot, hfiles'.filter_eq_nil h.closed' hroot]
  | true =>
      have hnil : Plain [] := by simp [Plain]
      have hdirs := h.folder_eq hnil hroot
      rw [Path.spell_nil, Path.spell_nil] at hdirs
      cases hfiles with
      | nothing hdir =>
          cases hfiles' with
          | nothing _ => rfl
          | walk hdir' _ => simp [hdirs, hdir'] at hdir
      | walk hdir hstrides =>
          cases hfiles' with
          | nothing hdir' => simp [hdirs, hdir'] at hdir
          | walk _ hstrides' =>
              exact congrArg Walk.files (h.keeping_eq hstrides hstrides' rfl rfl)

/-- The common files below two folders are listed alike. -/
theorem InCommon.listings (h : t.InCommon dir t' dir' kept) (hsound : t.Sound) (hsound' : t'.Sound)
    (suffix : String) : ∃ ways ways' : List (List String),
      t.listing dir suffix = ways.map dir.spell ∧
      t'.listing dir' suffix = ways'.map dir'.spell ∧
      (∀ way ∈ ways, Plain way) ∧ (∀ way ∈ ways', Plain way) ∧
      ways.filter kept = ways'.filter kept := by
  obtain ⟨files, hlisting, hplain, hending⟩ := exists_ending hsound dir suffix
  obtain ⟨files', hlisting', hplain', hending'⟩ := exists_ending hsound' dir' suffix
  have hmem : ∀ {files : List (List String)} {way : List String},
      way ∈ inOrder (files.filter (hasSuffix suffix)) → way ∈ files :=
    fun hway => (List.mem_filter.mp (List.mem_mergeSort.mp hway)).1
  have hswap : ∀ files : List (List String),
      (files.filter (hasSuffix suffix)).filter kept =
        (files.filter kept).filter (hasSuffix suffix) := fun files => by
    simp only [List.filter_filter, Bool.and_comm]
  refine ⟨_, _, hlisting, hlisting', fun way hway => hplain way (hmem hway),
    fun way hway => hplain' way (hmem hway), ?_⟩
  rw [filter_inOrder, filter_inOrder, hswap, hswap, h.ending_eq hending hending']

/-! One path in two trees with the same folders and links. -/

theorem Scaffold.locate_folder (h : t.Scaffold t') (hlocate : t.locate path = .ok x)
    (hx : t.isFolderAt x = true) : t'.locate path = .ok x :=
  h.locate_eq hlocate (stands_of_folder (h.isFolderAt hx))

/-- The path leads to a folder, or to files with the same text. -/
def agreesAt (t t' : Tree) (path : Path) : Bool :=
  t.isFolder path ||
    ((t.read path).toOption.isSome && decide ((t.read path).toOption = (t'.read path).toOption))

theorem Scaffold.isFolder_eq (h : t.Scaffold t') (h' : t'.Scaffold t) (path : Path) :
    t.isFolder path = t'.isFolder path := by
  rw [Bool.eq_iff_iff, isFolder_iff, isFolder_iff]
  constructor
  · rintro ⟨x, hlocate, hx⟩
    exact ⟨x, h.locate_folder hlocate hx, h.isFolderAt hx⟩
  · rintro ⟨x, hlocate, hx⟩
    exact ⟨x, h'.locate_folder hlocate hx, h'.isFolderAt hx⟩

theorem closed_of_folders
    (h : ∀ way, t.isFolder (dir.spell way) = true → kept way = true) : t.Closed dir kept where
  below := fun way _ _ hfolder _ => h way hfolder
  apart := by
    intro way other _ _ hfolder _ hsame
    obtain ⟨x, hlocate, hx⟩ := isFolder_iff.mp hfolder
    exact h other (isFolder_iff.mpr ⟨x, hsame.trans hlocate, hx⟩)

/-- The path leads to this folder, which holds nothing but files. -/
structure Flat (t : Tree) (dir : Path) (f : Address) : Prop where
  located : t.locate dir = .ok f
  folder : t.isFolderAt f = true
  files : ∀ name ∈ t.namesIn f, ∃ contents, t.get? (f ++ [name]) = some (.file contents)

theorem Flat.opens {f : Address} (h : t.Flat dir f) : t.Opens dir f :=
  opens_of_locate h.located h.folder

/-- No way goes on to a folder from one that holds nothing but files. -/
theorem Flat.eq_nil_of_opens {f : Address} (h : t.Flat dir f) (hway : Plain way)
    (hopens : t.Opens (dir.spell way) x) : way = [] := by
  induction way using List.reverseRecOn generalizing x with
  | nil => rfl
  | append_singleton front name ih =>
      obtain ⟨hfront, hname⟩ := List.forall_mem_append.mp hway
      have hname : Path.PlainName name := hname name List.mem_cons_self
      have hleads := hopens.leads
      rw [Path.spell_concat, startOf_join hname, stepsOf_join hname] at hleads
      obtain ⟨m, hfirst, hlast⟩ := hleads.split
      have hm : t.Opens (dir.spell front) m :=
        ⟨Path.text_spell_ne h.opens.text hfront, hfirst, hlast.folder⟩
      obtain rfl := ih hfront hm
      obtain rfl := h.opens.unique hm
      have hdots := hname.isDots_eq_false
      obtain ⟨contents, hfile⟩ := h.files name (hlast.mem_namesIn hopens.folder hdots)
      have hend := (ends_of_file hdots hfile).ends x hlast
      simp [hopens.folder] at hend

theorem Flat.eq_nil {f : Address} (h : t.Flat dir f) (hway : Plain way)
    (hfolder : t.isFolder (dir.spell way) = true) : way = [] := by
  obtain ⟨x, hlocate, hx⟩ := isFolder_iff.mp hfolder
  exact h.eq_nil_of_opens hway (opens_of_locate hlocate hx)

/-- The limits hide nothing where there is nothing but files. -/
theorem Flat.clear {f : Address} (h : t.Flat dir f) (hsound : t.Sound) (depth : Nat) :
    t.Clear dir depth := by
  intro way _ hnames x hopens
  obtain rfl := h.eq_nil_of_opens (fun name hname => hsound.plain (hnames name hname)) hopens
  rw [← h.opens.unique hopens]
  exact h.located

/-- If the names that lead to folders or agree come in the same order in each folder. -/
theorem Scaffold.inCommon (h : t.Scaffold t') (h' : t'.Scaffold t) (dir : Path)
    (horder : ∀ way, Plain way → t.isFolder (dir.spell way) = true →
      (t.namesAt (dir.spell way)).filter (fun name => t.agreesAt t' (dir.spell (way ++ [name]))) =
        (t'.namesAt (dir.spell way)).filter fun name =>
          t.agreesAt t' (dir.spell (way ++ [name]))) :
    t.InCommon dir t' dir (fun way => t.agreesAt t' (dir.spell way)) where
  closed := closed_of_folders fun way hfolder => by simp [agreesAt, hfolder]
  closed' := closed_of_folders fun way hfolder => by
    simp [agreesAt, h.isFolder_eq h', hfolder]
  alike := by
    intro way _ hkept
    rcases Bool.or_eq_true_iff.mp hkept with hfolder | hread
    · exact .inl ⟨hfolder, h.isFolder_eq h' _ ▸ hfolder⟩
    · obtain ⟨hsome, heq⟩ := Bool.and_eq_true_iff.mp hread
      obtain ⟨text, htext⟩ := Option.isSome_iff_exists.mp hsome
      have htext' := (of_decide_eq_true heq).symm.trans htext
      exact .inr ⟨text, toOption_eq_some.mp htext, toOption_eq_some.mp htext'⟩
  same := by
    intro way other _ _ _ _ hfolder hfolder'
    obtain ⟨x, hlocate, hx⟩ := isFolder_iff.mp hfolder
    obtain ⟨y, hlocate', hy⟩ := isFolder_iff.mp hfolder'
    rw [hlocate, hlocate', h.locate_folder hlocate hx, h.locate_folder hlocate' hy]
  order := fun way hway _ hfolder => horder way hway hfolder

/-- A tree with the limits, the folders and the links of another one. -/
theorem scaffold_of_entries (hlimits : t'.limits = t.limits) (hhere : t'.here = t.here)
    (h : ∀ entry ∈ t.entries.entries, (∀ contents, entry.2 ≠ .file contents) →
      t'.get? entry.1 = some entry.2) : t.Scaffold t' := by
  refine scaffold_of_kept hlimits hhere fun x entry hkind hx => ?_
  unfold get? at hx
  split at hx
  · rename_i hroot
    rw [hroot, get?, if_pos rfl, hx]
  · exact h _ (Table.mem_entries_of_get? hx) hkind

end Tree

end PluginHost.Storage
