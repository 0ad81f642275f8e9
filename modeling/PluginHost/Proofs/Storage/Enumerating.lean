import PluginHost.Proofs.Storage.Reaching

/-!
What a listing holds. The walk enters every folder that can be reached once, by the way that it
comes upon first, and what is no folder is listed under this way. Each visit either enters a folder,
and then the entries of this folder are to be visited, or is the last one of its path; so the walk
comes to an end.
-/

namespace PluginHost.Storage.Tree

/-- The folders that are reached from the one that a path opens, through folders and links. -/
inductive Reached (t : Tree) (dir : Path) : Address → Prop
  | start {f : Address} (hopens : t.Opens dir f) : Reached t dir f
  | enter {f x : Address} {name : String} (hreached : Reached t dir f)
      (hname : name ∈ t.namesIn f) (hleads : Leads t f [name] x) (hx : t.isFolderAt x = true) :
      Reached t dir x

/-- There is an entry of this name that is not a folder and does not lead to one. -/
structure Ends (t : Tree) (f : Address) (name : String) : Prop where
  entry : name ∈ t.namesIn f
  ends : ∀ x, Leads t f [name] x → t.isFolderAt x = false

/-- The path has this name below one that opens this folder. -/
structure Denotes (t : Tree) (path : Path) (f : Address) (name : String) : Prop where
  name : path.fileName = some name
  parent : ∃ parent, path.parent = some parent ∧ t.Opens parent f

/-- The paths are in order, none of them twice, and every entry with the suffix of every folder that
is reached is found exactly once, if it does not lead to a folder, and nothing else is. -/
structure Walked (t : Tree) (dir : Path) (suffix : String) (found : List Path) : Prop where
  sorted : found.Pairwise fun a b => compare a b = .lt
  once : ∀ f name, t.Reached dir f → t.Ends f name → Text.endsWithLetters name suffix = true →
    ∃! path, path ∈ found ∧ t.Denotes path f name
  only : ∀ path ∈ found, ∃ f name, t.Reached dir f ∧ t.Ends f name ∧
    Text.endsWithLetters name suffix = true ∧ t.Denotes path f name

variable {t : Tree} {dir path : Path} {rest paths : List Path} {found next : Listing}
  {f x : Address} {name : String}

theorem denotes_join (hopens : t.Opens path f) (hname : Path.PlainName name) {other : String} :
    t.Denotes (path.join name) x other ↔ f = x ∧ name = other := by
  obtain ⟨parent, hparent, hf⟩ := hopens.parent hname
  constructor
  · rintro ⟨hfile, _, hsame, hx⟩
    rw [Path.fileName_join hname] at hfile
    obtain rfl := Option.some.inj (hparent.symm.trans hsame)
    exact ⟨hf.unique hx, Option.some.inj hfile⟩
  · rintro ⟨rfl, rfl⟩
    exact ⟨Path.fileName_join hname _, parent, hparent, hf⟩

/-! A visit. -/

/-- What a visit to a path can do. -/
inductive Onward (t : Tree) (path : Path) (rest : List Path) (found : Listing) :
    List Path → Listing → Prop
  | again {f : Address} (hlocate : t.locate path = .ok f) (hfolder : t.isFolderAt f = true)
      (hentered : f ∈ found.entered) : Onward t path rest found rest found
  | enter {f : Address} (hlocate : t.locate path = .ok f) (hfolder : t.isFolderAt f = true)
      (hnew : f ∉ found.entered) :
      Onward t path rest found (t.pathsIn path f ++ rest)
        { found with entered := f :: found.entered }
  | file (hfile : ∀ f, t.locate path = .ok f → t.isFolderAt f = false) :
      Onward t path rest found rest { found with files := path :: found.files }

theorem exists_onward (t : Tree) (path : Path) (rest : List Path) (found : Listing) :
    ∃ paths next, t.Onward path rest found paths next := by
  cases hlocate : t.locate path with
  | error fault => exact ⟨_, _, .file (by simp [hlocate])⟩
  | ok f =>
      cases hfolder : t.isFolderAt f with
      | false => exact ⟨_, _, .file (by simp [hlocate, hfolder])⟩
      | true =>
          by_cases hentered : f ∈ found.entered
          · exact ⟨_, _, .again hlocate hfolder hentered⟩
          · exact ⟨_, _, .enter hlocate hfolder hentered⟩

theorem Onward.visit (h : t.Onward path rest found paths next) (fuel : Nat) :
    t.visit (fuel + 1) (path :: rest) found = t.visit fuel paths next := by
  cases h with
  | again hlocate hfolder hentered => simp [Tree.visit, hlocate, hfolder, hentered]
  | enter hlocate hfolder hnew => simp [Tree.visit, hlocate, hfolder, hnew]
  | file hfile =>
      cases hlocate : t.locate path with
      | error fault => simp only [Tree.visit, hlocate]
      | ok f => simp [Tree.visit, hlocate, hfile f hlocate]

/-- The paths that are still to be visited, with those in folders that have not been entered. -/
def pending (t : Tree) (paths : List Path) (found : Listing) : Nat :=
  paths.length + t.entries.keys.countP fun a => !found.entered.contains a.dropLast

theorem length_namesIn_add_le {entered : List Address} (hnew : f ∉ entered) :
    (t.namesIn f).length + t.entries.keys.countP (fun a => !(f :: entered).contains a.dropLast) ≤
      t.entries.keys.countP fun a => !entered.contains a.dropLast := by
  unfold namesIn
  -- The entries of `f` are counted on the right and named on the left, all others are as before.
  induction t.entries.keys with
  | nil => simp
  | cons a keys ih =>
      by_cases hf : a.dropLast = f
      · have hin : (!(f :: entered).contains a.dropLast) = false := by simp [hf]
        have hout : (!entered.contains a.dropLast) = true := by simp [hf, hnew]
        simp only [List.filterMap_cons, List.countP_cons, hin, hout, Bool.false_eq_true, if_true,
          if_false]
        split
        · omega
        · rw [List.length_cons]
          omega
      · have hsame : (!(f :: entered).contains a.dropLast) = !entered.contains a.dropLast := by
          simp [hf]
        simp only [List.filterMap_cons, List.countP_cons, if_neg hf, hsame]
        omega

theorem Onward.pending_lt (h : t.Onward path rest found paths next) :
    t.pending paths next < t.pending (path :: rest) found := by
  cases h with
  | again => simp [pending]
  | file => simp [pending]
  | enter _ _ hnew =>
      have hle := length_namesIn_add_le (t := t) hnew
      simp only [pending, pathsIn, List.length_append, List.length_map, List.length_cons]
      omega

theorem pending_start (t : Tree) (dir : Path) : t.pending [dir] ⟨[], []⟩ ≤ t.visitBound := by
  have hle := List.countP_le_length (p := fun a : Address => !([] : List Address).contains a.dropLast)
    (l := t.entries.keys)
  simp only [Table.keys, List.length_map] at hle
  simp only [pending, visitBound, Table.size, Table.keys, List.length_singleton]
  omega

/-- What every visit preserves holds when the walk has come to its end. -/
theorem visit_induction {P : List Path → Listing → Prop}
    (hstep : ∀ {path rest found paths next}, P (path :: rest) found →
      t.Onward path rest found paths next → P paths next)
    {fuel : Nat} (hfuel : t.pending paths found ≤ fuel) (h : P paths found) :
    P [] (t.visit fuel paths found) := by
  induction fuel generalizing paths found with
  | zero =>
      have hnil : paths = [] := List.length_eq_zero_iff.mp (by unfold pending at hfuel; omega)
      exact hnil ▸ h
  | succ fuel ih =>
      cases paths with
      | nil => exact h
      | cons path rest =>
          obtain ⟨paths, next, honward⟩ := exists_onward t path rest found
          rw [honward.visit]
          exact ih (by have := honward.pending_lt; omega) (hstep h honward)

theorem visit_add {fuel : Nat} (hfuel : t.pending paths found ≤ fuel) (more : Nat) :
    t.visit (fuel + more) paths found = t.visit fuel paths found := by
  induction fuel generalizing paths found with
  | zero =>
      have hnil : paths = [] := List.length_eq_zero_iff.mp (by unfold pending at hfuel; omega)
      subst hnil
      cases more <;> rfl
  | succ fuel ih =>
      cases paths with
      | nil =>
          rw [Nat.add_right_comm]
          rfl
      | cons path rest =>
          obtain ⟨paths, next, honward⟩ := exists_onward t path rest found
          rw [Nat.add_right_comm, honward.visit, honward.visit]
          exact ih (by have := honward.pending_lt; omega)

/-! How far a walk has come. -/

/-- The ways that come up when these folders have been entered, each by the way beside it. -/
def Due (t : Tree) (seen : List (Address × List String)) (names : List String) : Prop :=
  names = [] ∨ ∃ entry ∈ seen, ∃ name ∈ t.namesIn entry.1, names = entry.2 ++ [name]

/-- The folders that have been entered, the ways that are still to be visited and those that end. -/
structure Progress (t : Tree) (dir : Path) (seen : List (Address × List String))
    (stack files : List (List String)) : Prop where
  reached : ∀ entry ∈ seen, t.Reached dir entry.1
  located : ∀ entry ∈ seen, t.locate (dir.spell entry.2) = .ok entry.1
  folder : ∀ entry ∈ seen, t.isFolderAt entry.1 = true
  depth : ∀ entry ∈ seen, entry.2.length < seen.length
  named : ∀ entry ∈ seen, ∀ name ∈ entry.2, name ∈ t.names
  fresh : (seen.map Prod.fst).Nodup
  unique : (stack ++ files).Nodup
  due : ∀ names ∈ stack ++ files, t.Due seen names
  covered : ∀ names, t.Due seen names → names ∈ stack ++ files ∨
    ∃ x ∈ seen.map Prod.fst, t.locate (dir.spell names) = .ok x
  ended : ∀ names ∈ files, ∀ x, t.locate (dir.spell names) = .ok x → t.isFolderAt x = false

section

variable {seen : List (Address × List String)} {entry : Address × List String}
  {stack files : List (List String)} {names : List String}

theorem Due.cons (h : t.Due seen names) : t.Due (entry :: seen) names := by
  rcases h with hnil | ⟨other, hother, hfrom⟩
  · exact .inl hnil
  · exact .inr ⟨other, List.mem_cons_of_mem _ hother, hfrom⟩

theorem Progress.opens (h : t.Progress dir seen stack files) (hentry : entry ∈ seen) :
    t.Opens (dir.spell entry.2) entry.1 :=
  opens_of_locate (h.located entry hentry) (h.folder entry hentry)

theorem Progress.opens_iff (h : t.Progress dir seen stack files) (hsound : t.Sound)
    (hentry : entry ∈ seen) (hname : name ∈ t.namesIn entry.1) :
    t.Opens (dir.spell (entry.2 ++ [name])) x ↔
      Leads t entry.1 [name] x ∧ t.isFolderAt x = true := by
  rw [Path.spell_concat]
  exact opens_join (h.opens hentry) (hsound.admits hname).plain

theorem Progress.mem_names (h : t.Progress dir seen stack files) (hdue : t.Due seen names) :
    ∀ name ∈ names, name ∈ t.names := by
  rcases hdue with rfl | ⟨entry, hentry, name, hname, rfl⟩
  · simp
  · intro other hother
    rcases List.mem_append.mp hother with hother | hother
    · exact h.named entry hentry other hother
    · rw [List.mem_singleton.mp hother]
      exact mem_names_of_mem_namesIn hname

theorem Progress.length_seen_le (h : t.Progress dir seen stack files) :
    seen.length ≤ t.visitBound := by
  have hsub : seen.map Prod.fst ⊆ [] :: t.entries.keys := by
    intro f hf
    obtain ⟨entry, hentry, rfl⟩ := List.mem_map.mp hf
    exact mem_of_isFolderAt (h.folder entry hentry)
  simpa [visitBound, Table.keys, Table.size] using (h.fresh.subperm hsub).length_le

theorem Progress.length_le (h : t.Progress dir seen stack files) (hdue : t.Due seen names) :
    names.length ≤ seen.length := by
  rcases hdue with rfl | ⟨entry, hentry, name, -, rfl⟩
  · exact Nat.zero_le _
  · rw [List.length_append]
    exact h.depth entry hentry

theorem Progress.start : t.Progress dir [] [[]] [] where
  reached := by simp
  located := by simp
  folder := by simp
  depth := by simp
  named := by simp
  fresh := by simp
  unique := by simp
  due := by simp [Due]
  covered := by simp [Due]
  ended := by simp

theorem Progress.again (h : t.Progress dir seen (names :: stack) files)
    (hlocate : t.locate (dir.spell names) = .ok x) (hx : x ∈ seen.map Prod.fst) :
    t.Progress dir seen stack files where
  reached := h.reached
  located := h.located
  folder := h.folder
  depth := h.depth
  named := h.named
  fresh := h.fresh
  unique := (List.nodup_cons.mp h.unique).2
  due := fun other hother => h.due other (List.mem_cons_of_mem _ hother)
  covered := by
    intro other hdue
    rcases h.covered other hdue with hway | hknown
    · rcases List.mem_cons.mp hway with rfl | hway
      · exact .inr ⟨x, hx, hlocate⟩
      · exact .inl hway
    · exact .inr hknown
  ended := h.ended

/-- A way that leads to another folder brings the ways of the entries of this folder. -/
theorem Progress.enter (h : t.Progress dir seen (names :: stack) files) (hsound : t.Sound)
    (hlocate : t.locate (dir.spell names) = .ok x) (hfolder : t.isFolderAt x = true)
    (hx : x ∉ seen.map Prod.fst) :
    t.Progress dir ((x, names) :: seen) ((t.namesIn x).map (fun name => names ++ [name]) ++ stack)
      files where
  reached := by
    refine List.forall_mem_cons.mpr ⟨?_, h.reached⟩
    have hopens := opens_of_locate hlocate hfolder
    rcases h.due names List.mem_cons_self with rfl | ⟨entry, hentry, name, hname, rfl⟩
    · exact .start hopens
    · have hleads := ((h.opens_iff hsound hentry hname).mp hopens).1
      exact .enter (h.reached entry hentry) hname hleads hfolder
  located := List.forall_mem_cons.mpr ⟨hlocate, h.located⟩
  folder := List.forall_mem_cons.mpr ⟨hfolder, h.folder⟩
  depth := by
    refine List.forall_mem_cons.mpr ⟨?_, fun entry hentry => Nat.lt_succ_of_lt (h.depth entry hentry)⟩
    exact Nat.lt_succ_of_le (h.length_le (h.due names List.mem_cons_self))
  named := List.forall_mem_cons.mpr ⟨h.mem_names (h.due names List.mem_cons_self), h.named⟩
  fresh := List.nodup_cons.mpr ⟨hx, h.fresh⟩
  unique := by
    rw [List.append_assoc]
    refine List.Nodup.append ?_ (List.nodup_cons.mp h.unique).2 ?_
    · refine List.Nodup.map (fun a b hab => ?_) (hsound.nodup_namesIn x)
      simpa using hab
    · -- A way that is there already comes from a folder that has been entered, unlike `x`.
      intro way hway hother
      obtain ⟨name, -, rfl⟩ := List.mem_map.mp hway
      rcases h.due _ (List.mem_cons_of_mem _ hother) with hnil | ⟨entry, hentry, other, -, heq⟩
      · simp at hnil
      · obtain ⟨rfl, -⟩ := List.append_inj' heq rfl
        obtain rfl := Except.ok.inj (hlocate.symm.trans (h.located entry hentry))
        exact hx (List.mem_map_of_mem hentry)
  due := by
    intro way hway
    rw [List.append_assoc] at hway
    rcases List.mem_append.mp hway with hway | hway
    · obtain ⟨name, hname, rfl⟩ := List.mem_map.mp hway
      exact .inr ⟨_, List.mem_cons_self, name, hname, rfl⟩
    · exact (h.due way (List.mem_cons_of_mem _ hway)).cons
  covered := by
    intro way hdue
    have hold : t.Due seen way → way ∈ (t.namesIn x).map (fun name => names ++ [name]) ++ stack ++ files ∨
        ∃ y ∈ ((x, names) :: seen).map Prod.fst, t.locate (dir.spell way) = .ok y := by
      intro hdue
      rw [List.append_assoc]
      rcases h.covered way hdue with hway | ⟨y, hy, hknown⟩
      · rcases List.mem_cons.mp hway with rfl | hway
        · exact .inr ⟨x, List.mem_cons_self, hlocate⟩
        · exact .inl (List.mem_append_right _ hway)
      · exact .inr ⟨y, List.mem_cons_of_mem _ hy, hknown⟩
    rcases hdue with hnil | ⟨entry, hentry, name, hname, rfl⟩
    · exact hold (.inl hnil)
    · rcases List.mem_cons.mp hentry with rfl | hentry
      · rw [List.append_assoc]
        exact .inl (List.mem_append_left _ (List.mem_map_of_mem hname))
      · exact hold (.inr ⟨entry, hentry, name, hname, rfl⟩)
  ended := h.ended

theorem Progress.file (h : t.Progress dir seen (names :: stack) files)
    (hfile : ∀ x, t.locate (dir.spell names) = .ok x → t.isFolderAt x = false) :
    t.Progress dir seen stack (names :: files) where
  reached := h.reached
  located := h.located
  folder := h.folder
  depth := h.depth
  named := h.named
  fresh := h.fresh
  unique := (List.perm_middle).nodup_iff.mpr h.unique
  due := fun other hother => h.due other (List.perm_middle.mem_iff.mp hother)
  covered := by
    intro other hdue
    rcases h.covered other hdue with hway | hknown
    · exact .inl (List.perm_middle.mem_iff.mpr hway)
    · exact .inr hknown
  ended := List.forall_mem_cons.mpr ⟨hfile, h.ended⟩

def Progressed (t : Tree) (dir : Path) (paths : List Path) (found : Listing) : Prop :=
  ∃ seen stack files, paths = stack.map dir.spell ∧
    found = ⟨seen.map Prod.fst, files.map dir.spell⟩ ∧ t.Progress dir seen stack files

theorem pathsIn_spell (t : Tree) (dir : Path) (names : List String) (f : Address) :
    t.pathsIn (dir.spell names) f =
      ((t.namesIn f).map fun name => names ++ [name]).map dir.spell := by
  rw [pathsIn, List.map_map]
  exact List.map_congr_left fun name _ => (Path.spell_concat dir names name).symm

theorem Progressed.onward (hsound : t.Sound) (h : t.Progressed dir (path :: rest) found)
    (honward : t.Onward path rest found paths next) : t.Progressed dir paths next := by
  obtain ⟨seen, stack, files, hpaths, rfl, h⟩ := h
  obtain ⟨names, stack, rfl, rfl, rfl⟩ := List.map_eq_cons_iff.mp hpaths.symm
  cases honward with
  | again hlocate _ hentered => exact ⟨_, _, _, rfl, rfl, h.again hlocate hentered⟩
  | @enter f hlocate hfolder hnew =>
      refine ⟨_, _, _, ?_, rfl, h.enter hsound hlocate hfolder hnew⟩
      rw [List.map_append, pathsIn_spell]
  | file hfile => exact ⟨_, _, _, rfl, rfl, h.file hfile⟩

theorem exists_progress (hsound : t.Sound) (dir : Path) : ∃ seen files,
    (t.visit t.visitBound [dir] ⟨[], []⟩).files = files.map dir.spell ∧
      t.Progress dir seen [] files := by
  have hstart : t.Progressed dir [dir] ⟨[], []⟩ := ⟨[], [[]], [], rfl, rfl, .start⟩
  obtain ⟨seen, stack, files, hstack, hfound, h⟩ := visit_induction
    (fun h honward => h.onward hsound honward) (pending_start t dir) hstart
  obtain rfl := List.map_eq_nil_iff.mp hstack.symm
  exact ⟨seen, files, congrArg Listing.files hfound, h⟩

/-! What has been found when nothing is left to be visited. -/

theorem Progress.locate_of_opens (h : t.Progress dir seen stack files)
    (hclear : t.Clear dir t.visitBound) (hdue : t.Due seen names)
    (hopens : t.Opens (dir.spell names) x) : t.locate (dir.spell names) = .ok x :=
  hclear names ((h.length_le hdue).trans h.length_seen_le) (h.mem_names hdue) x hopens

theorem Progress.mem_files_iff (h : t.Progress dir seen [] files)
    (hclear : t.Clear dir t.visitBound) (hdue : t.Due seen names) :
    names ∈ files ↔ ∀ x, ¬ t.Opens (dir.spell names) x := by
  constructor
  · intro hfile x hopens
    have hends := h.ended names hfile x (h.locate_of_opens hclear hdue hopens)
    simp [hopens.folder] at hends
  · intro hnone
    refine (h.covered names hdue).resolve_right fun ⟨x, hx, hlocate⟩ => ?_
    obtain ⟨entry, hentry, rfl⟩ := List.mem_map.mp hx
    exact hnone _ (opens_of_locate hlocate (h.folder entry hentry))

theorem Progress.exists_entry (h : t.Progress dir seen [] files)
    (hclear : t.Clear dir t.visitBound) (hdue : t.Due seen names)
    (hopens : t.Opens (dir.spell names) x) : ∃ entry ∈ seen, entry.1 = x := by
  rcases h.covered names hdue with hfile | ⟨y, hy, hlocate⟩
  · exact absurd hopens ((h.mem_files_iff hclear hdue).mp hfile x)
  · obtain ⟨entry, hentry, rfl⟩ := List.mem_map.mp hy
    have hsame := hlocate.symm.trans (h.locate_of_opens hclear hdue hopens)
    exact ⟨entry, hentry, Except.ok.inj hsame⟩

theorem Progress.exists_seen (h : t.Progress dir seen [] files) (hsound : t.Sound)
    (hclear : t.Clear dir t.visitBound) (hf : t.Reached dir f) : ∃ entry ∈ seen, entry.1 = f := by
  induction hf with
  | start hopens => exact h.exists_entry hclear (.inl rfl) hopens
  | enter hreached hname hleads hx ih =>
      obtain ⟨entry, hentry, rfl⟩ := ih
      exact h.exists_entry hclear (.inr ⟨entry, hentry, _, hname, rfl⟩)
        ((h.opens_iff hsound hentry hname).mpr ⟨hleads, hx⟩)

theorem Progress.ends_iff (h : t.Progress dir seen [] files) (hsound : t.Sound)
    (hclear : t.Clear dir t.visitBound) (hentry : entry ∈ seen) (hname : name ∈ t.namesIn entry.1) :
    t.Ends entry.1 name ↔ entry.2 ++ [name] ∈ files := by
  rw [h.mem_files_iff hclear (.inr ⟨entry, hentry, name, hname, rfl⟩)]
  simp only [h.opens_iff hsound hentry hname, not_and, Bool.not_eq_true]
  exact ⟨fun hends => hends.ends, fun hends => ⟨hname, hends⟩⟩

theorem Progress.denotes_iff (h : t.Progress dir seen stack files) (hsound : t.Sound)
    (hentry : entry ∈ seen) (hname : name ∈ t.namesIn entry.1) {other : String} :
    t.Denotes (dir.spell (entry.2 ++ [name])) f other ↔ entry.1 = f ∧ name = other := by
  rw [Path.spell_concat]
  exact denotes_join (h.opens hentry) (hsound.admits hname).plain

theorem Progress.pairwise (h : t.Progress dir seen stack files) (hsound : t.Sound)
    (htext : dir.text ≠ "") : (files.map dir.spell).Pairwise fun a b => compare a b ≠ .eq := by
  have hplain : ∀ names ∈ files, ∀ name ∈ names, Path.PlainName name := by
    intro names hnames name hname
    exact hsound.plain (h.mem_names (h.due names (List.mem_append_right _ hnames)) name hname)
  refine List.pairwise_map.mpr (List.Pairwise.imp_of_mem (fun ha hb hne heq => hne ?_)
    (List.nodup_append.mp h.unique).2.1)
  exact Path.names_of_compare htext (hplain _ ha) (hplain _ hb) heq

theorem Progress.walked (h : t.Progress dir seen [] files) (hsound : t.Sound)
    (hclear : t.Clear dir t.visitBound) {root : Address} (hroot : t.Opens dir root)
    (suffix : String) :
    t.Walked dir suffix (((files.map dir.spell).filter (·.hasSuffix suffix)).mergeSort
      fun a b => (compare a b).isLE) := by
  have hmem : ∀ path, path ∈ ((files.map dir.spell).filter (·.hasSuffix suffix)).mergeSort
      (fun a b => (compare a b).isLE) ↔ ∃ entry ∈ seen, ∃ name, t.Ends entry.1 name ∧
        Text.endsWithLetters name suffix = true ∧ path = dir.spell (entry.2 ++ [name]) := by
    intro path
    rw [List.mem_mergeSort, List.mem_filter, List.mem_map]
    constructor
    · rintro ⟨⟨names, hfile, rfl⟩, hsuffix⟩
      rcases h.due names hfile with rfl | ⟨entry, hentry, name, hname, rfl⟩
      · exact absurd hroot ((h.mem_files_iff hclear (.inl rfl)).mp hfile root)
      · rw [Path.spell_concat, Path.hasSuffix_join (hsound.admits hname).plain] at hsuffix
        exact ⟨entry, hentry, name, (h.ends_iff hsound hclear hentry hname).mpr hfile, hsuffix, rfl⟩
    · rintro ⟨entry, hentry, name, hends, hsuffix, rfl⟩
      refine ⟨⟨_, (h.ends_iff hsound hclear hentry hends.entry).mp hends, rfl⟩, ?_⟩
      rwa [Path.spell_concat, Path.hasSuffix_join (hsound.admits hends.entry).plain]
  refine ⟨pairwise_mergeSort_lt ((h.pairwise hsound hroot.text).filter _), ?_, ?_⟩
  · intro f name hf hends hsuffix
    obtain ⟨entry, hentry, rfl⟩ := h.exists_seen hsound hclear hf
    -- The one path is the way by which the folder has been entered; it has been entered once.
    refine ⟨_, ⟨(hmem _).mpr ⟨entry, hentry, name, hends, hsuffix, rfl⟩, ?_⟩, ?_⟩
    · exact (h.denotes_iff hsound hentry hends.entry).mpr ⟨rfl, rfl⟩
    · rintro path ⟨hpath, hdenotes⟩
      obtain ⟨other, hother, last, hlast, -, rfl⟩ := (hmem path).mp hpath
      obtain ⟨hfolder, rfl⟩ := (h.denotes_iff hsound hother hlast.entry).mp hdenotes
      obtain rfl := List.inj_on_of_nodup_map h.fresh hother hentry hfolder
      rfl
  · intro path hpath
    obtain ⟨entry, hentry, name, hends, hsuffix, rfl⟩ := (hmem path).mp hpath
    exact ⟨entry.1, name, h.reached entry hentry, hends, hsuffix,
      (h.denotes_iff hsound hentry hends.entry).mpr ⟨rfl, rfl⟩⟩

end

theorem Reached.exists_opens (h : t.Reached dir f) : ∃ root, t.Opens dir root := by
  induction h with
  | start hopens => exact ⟨_, hopens⟩
  | enter _ _ _ _ ih => exact ih

theorem listing_walked (hsound : t.Sound) (hclear : t.Clear dir t.visitBound) (suffix : String) :
    t.Walked dir suffix (t.listing dir suffix) := by
  unfold listing
  cases hfolder : t.isFolder dir with
  | true =>
      obtain ⟨root, hlocate, hroot⟩ := isFolder_iff.mp hfolder
      obtain ⟨seen, files, hfiles, h⟩ := exists_progress hsound dir
      rw [if_pos rfl]
      dsimp only
      rw [hfiles]
      exact h.walked hsound hclear (opens_of_locate hlocate hroot) suffix
  | false =>
      rw [if_neg Bool.false_ne_true]
      refine ⟨.nil, fun f name hf => ?_, by simp⟩
      -- What is no folder reaches none, as the limits hide no folder.
      obtain ⟨root, hroot⟩ := hf.exists_opens
      have hlocate : t.locate dir = .ok root := hclear [] (Nat.zero_le _) (by simp) root hroot
      simp [isFolder, hlocate, hroot.folder, Except.toOption] at hfolder

/-- Where the limits hide no folder, a listing holds what it has to hold, in whatever order the
folders give their names. The walk has always come to its end when its bound is reached, and limits
that are high enough hide no folder. -/
theorem listing_complete (t : Tree) (hsound : t.Sound) (dir : Path) (suffix : String) :
    (t.Clear dir t.visitBound → t.Walked dir suffix (t.listing dir suffix)) ∧
      (∀ fuel, t.visitBound ≤ fuel →
        t.visit fuel [dir] ⟨[], []⟩ = t.visit t.visitBound [dir] ⟨[], []⟩) ∧
      ∃ enough, ∀ links size, enough ≤ links → enough ≤ size →
        let u := t.allowing links size
        u.Clear dir u.visitBound ∧ u.Walked dir suffix (u.listing dir suffix) := by
  refine ⟨fun hclear => listing_walked hsound hclear suffix, fun fuel hfuel => ?_, ?_⟩
  · obtain ⟨more, rfl⟩ := Nat.exists_eq_add_of_le hfuel
    exact visit_add (pending_start t dir) more
  · obtain ⟨enough, hhigh⟩ := Filter.eventually_atTop.mp (eventually_clear hsound dir t.visitBound)
    refine ⟨max enough.1 enough.2, fun links size hlinks hsize => ?_⟩
    have hclear : (t.allowing links size).Clear dir t.visitBound :=
      hhigh (links, size) ⟨Nat.le_trans (Nat.le_max_left ..) hlinks,
        Nat.le_trans (Nat.le_max_right ..) hsize⟩
    exact ⟨hclear, listing_walked (hsound.allowing links size) hclear suffix⟩

/-- A folder with a link back to it, two links to one folder outside, through which it is reached
twice, a link to itself and one to nothing. -/
def tangle : Tree where
  limits := .usual
  entries := ⟨⟨[
    (["site"], .folder),
    (["site", "loop"], .link "../site"),
    (["site", "ink.MODULE"], .file (.text "")),
    (["site", "b"], .link "/spare"),
    (["site", "a"], .link "../spare"),
    (["site", "self.module"], .link "self.module"),
    (["site", "gone.module"], .link "nowhere"),
    (["spare"], .folder),
    (["spare", "Pen.module"], .file (.text "")),
    (["spare", "notes"], .file (.text "")),
    (["spare", "up"], .link "..")]⟩, .empty⟩
  here := []

/-- The folder with two links is listed under the one that comes first. -/
theorem listing_complete_tangle :
    tangle.Sound ∧
    (∃ enough, ∀ links size, enough ≤ links → enough ≤ size →
      let u := tangle.allowing links size
      u.Walked ⟨"site"⟩ ".module" (u.listing ⟨"site"⟩ ".module")) ∧
    tangle.listing ⟨"site"⟩ ".module" = [⟨"site/b/Pen.module"⟩, ⟨"site/gone.module"⟩,
      ⟨"site/ink.MODULE"⟩, ⟨"site/self.module"⟩] := by
  have hsound : tangle.Sound := by decide +kernel
  obtain ⟨-, -, enough, hhigh⟩ := listing_complete tangle hsound ⟨"site"⟩ ".module"
  refine ⟨hsound, ⟨enough, fun links size hlinks hsize => (hhigh links size hlinks hsize).2⟩, ?_⟩
  rw [listing_eq_insertionSort]
  decide +kernel

/-! A folder that is missing in a listing, because the way to it is too long where it is spelled. -/

theorem ends_of_file {contents : Contents} (hname : isDots name = false)
    (h : t.get? (f ++ [name]) = some (.file contents)) : t.Ends f name where
  entry := mem_namesIn.mpr (mem_keys_of_get? h)
  ends := by
    intro x hleads
    cases hleads with
    | step _ hrest =>
        rw [stepFrom_name hname (by simp [h])] at hrest
        obtain ⟨-, rfl⟩ := hrest.of_not_folder (by simp [isFolderAt, h])
        simp [isFolderAt, h]

/-- What is listed is an entry of a folder that is found under the path that is spelled to it. -/
theorem exists_of_mem_listing (hsound : t.Sound) {suffix : String}
    (hmem : path ∈ t.listing dir suffix) : ∃ names f name, path = (dir.spell names).join name ∧
      (∀ other ∈ names, other ∈ t.names) ∧ name ∈ t.namesIn f ∧
      t.locate (dir.spell names) = .ok f ∧ t.isFolderAt f = true := by
  unfold listing at hmem
  cases hfolder : t.isFolder dir with
  | false => simp [hfolder] at hmem
  | true =>
      obtain ⟨root, hlocate, hroot⟩ := isFolder_iff.mp hfolder
      obtain ⟨seen, files, hfiles, h⟩ := exists_progress hsound dir
      rw [if_pos hfolder] at hmem
      dsimp only at hmem
      rw [List.mem_mergeSort, List.mem_filter, hfiles, List.mem_map] at hmem
      obtain ⟨⟨names, hnames, rfl⟩, -⟩ := hmem
      rcases h.due names hnames with rfl | ⟨entry, hentry, name, hname, rfl⟩
      · have hends := h.ended [] hnames root hlocate
        simp [hroot] at hends
      · exact ⟨entry.2, entry.1, name, Path.spell_concat .., h.named entry hentry, hname,
          h.located entry hentry, h.folder entry hentry⟩

/-- Nothing is listed of a folder that is not the first one and can be spelled only at length. -/
theorem eq_root_of_full (hsound : t.Sound) {root : Address} (hroot : t.Opens dir root)
    (hfull : t.limits.path ≤ dir.text.utf8ByteSize + 1) {suffix : String}
    (hmem : path ∈ t.listing dir suffix) (hdenotes : t.Denotes path f name) : f = root := by
  obtain ⟨names, g, last, rfl, hnames, hlast, hlocate, hfolder⟩ := exists_of_mem_listing hsound hmem
  have hopens := opens_of_locate hlocate hfolder
  obtain ⟨rfl, -⟩ := (denotes_join hopens (hsound.admits hlast).plain).mp hdenotes
  have hsize := size_lt_of_locate hlocate
  have hspell := Path.size_spell (p := dir) fun name hname => hsound.plain (hnames name hname)
  obtain rfl : names = [] := List.length_eq_zero_iff.mp (by omega)
  exact hopens.unique hroot

/-- A folder in a folder. -/
def nested : Tree where
  limits := .usual
  entries := ⟨⟨[(["d"], .folder), (["d", "store"], .folder),
    (["d", "store", "Ink.module"], .file (.text ""))]⟩, .empty⟩
  here := []

/-- A path to the outer folder with this many slashes at its end. -/
def slashes (count : Nat) : Path :=
  ⟨String.ofList ('d' :: List.replicate count '/')⟩

theorem size_slashes (count : Nat) : (slashes count).text.utf8ByteSize = count + 1 := by
  have hsize : (String.ofList (List.replicate count '/')).utf8ByteSize = count := by
    induction count with
    | zero => rfl
    | succ count ih =>
        rw [List.replicate_succ, String.ofList_cons, String.utf8ByteSize_append, ih]
        exact Nat.add_comm 1 count
  rw [slashes, String.ofList_cons, String.utf8ByteSize_append, hsize]
  exact Nat.add_comm 1 count

theorem opens_slashes (count : Nat) : nested.Opens (slashes count) ["d"] := by
  have hfields : ∀ count, Text.fields '/' (List.replicate count '/') =
      List.replicate (count + 1) [] := by
    intro count
    induction count with
    | zero => rfl
    | succ count ih => simp [List.replicate_succ, Text.fields, ih]
  have hsteps : stepsOf (slashes count).text = ["d"] := by
    have hall := hfields count
    rw [List.replicate_succ] at hall
    simp [stepsOf, slashes, Text.fields, hall]
  refine ⟨fun hempty => ?_, ?_, by decide⟩
  · have hsize := size_slashes count
    simp [hempty] at hsize
  · rw [hsteps]
    have hstart : startOf nested.here (slashes count).text = [] := by simp [startOf, slashes, nested]
    rw [hstart]
    exact .step (isFolderAt_nil _) (.done _)

theorem nested_not_walked :
    nested.Sound ∧ ¬ ∃ enough, ∀ links, enough ≤ links →
      let u := nested.allowing links 4096
      u.Walked (slashes 4094) ".module" (u.listing (slashes 4094) ".module") := by
  have hsound : nested.Sound := by decide +kernel
  refine ⟨hsound, ?_⟩
  rintro ⟨enough, hwalked⟩
  have hwalked := hwalked enough (Nat.le_refl _)
  generalize hu : nested.allowing enough 4096 = u at hwalked
  have hroot : u.Opens (slashes 4094) ["d"] := hu ▸ opens_allowing.mpr (opens_slashes 4094)
  have hstore : u.Reached (slashes 4094) ["d", "store"] := by
    subst hu
    have hname : "store" ∈ nested.namesIn ["d"] := by decide
    have hfolder : nested.isFolderAt ["d", "store"] = true := by decide
    exact .enter (.start hroot) hname (.step hroot.folder (.done _)) hfolder
  have hends : u.Ends ["d", "store"] "Ink.module" := by
    subst hu
    have hfile : nested.get? ["d", "store", "Ink.module"] = some (.file (.text "")) := by decide
    exact ends_of_file (by decide) hfile
  obtain ⟨path, ⟨hmem, hdenotes⟩, -⟩ := hwalked.once _ _ hstore hends (by decide +kernel)
  have hsame := eq_root_of_full (hu ▸ hsound.allowing enough 4096) hroot
    (by rw [size_slashes, ← hu]; exact Nat.le_refl _) hmem hdenotes
  simp at hsame

end PluginHost.Storage.Tree
