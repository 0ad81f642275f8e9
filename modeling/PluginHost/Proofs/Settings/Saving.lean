import PluginHost.Proofs.Host.Effects
import PluginHost.Proofs.Settings.Contents
import PluginHost.Proofs.Settings.IndexText
import PluginHost.Proofs.Storage.Rewriting
import PluginHost.Settings.Store

/-!
What has been saved is loaded again.
-/

namespace PluginHost

open HostM

namespace ComponentIndex

def stamped (index : ComponentIndex) (time : Timestamp) : ComponentIndex :=
  { index with writtenAt := some time }

theorem version_ofResults (results : List ScanResult) :
    (ofResults results).version = currentVersion := by
  have hfold : ∀ (ones : List (String × Capability × Component)) (index : ComponentIndex),
      (ones.foldl (fun index one => index.enter one.1 one.2) index).version = index.version := by
    intro ones
    induction ones with
    | nil => exact fun _ => rfl
    | cons one rest ih => exact fun index => ih _
  rw [ofResults_eq, hfold]
  rfl

end ComponentIndex

namespace Storage.Tree

theorem isThere_of_read {t : Tree} {path : Path} {text : String} (h : t.read path = .ok text) :
    t.isThere path = true := by
  obtain ⟨a, hlocate, -⟩ := read_eq_ok.mp h
  rw [isThere, hlocate]
  rfl

end Storage.Tree

namespace Host

/-- One of the next readings meets no fault. -/
def ReadsWithin (h : Host) (attempts : Nat) : Prop :=
  ∃ n < attempts, h.disk.prospect.reads[n]?.join = none

instance (h : Host) (attempts : Nat) : Decidable (h.ReadsWithin attempts) :=
  inferInstanceAs (Decidable (∃ n < attempts, h.disk.prospect.reads[n]?.join = none))

theorem not_readsWithin_zero (h : Host) : ¬ h.ReadsWithin 0 :=
  fun ⟨n, hn, _⟩ => Nat.not_lt_zero n hn

theorem Calm.readsWithin {h : Host} {attempts : Nat} (hcalm : h.Calm) (hattempts : 0 < attempts) :
    h.ReadsWithin attempts := by
  refine ⟨0, hattempts, ?_⟩
  rw [← List.head?_eq_getElem?]
  exact firstFault_of_calm hcalm.1

theorem ReadsWithin.read_or_later {h : Host} {attempts : Nat} (hreads : h.ReadsWithin (attempts + 1))
    (path : Path) : (read path).result h = h.tree.read path ∨
      ∃ fault, (read path).result h = .error fault ∧
        ((read path).after h).ReadsWithin attempts := by
  simp only [read, note, result_bind, after_bind, after_modify, result_modifyGet, after_modifyGet,
    Storage.Disk.read, ReadsWithin]
  cases hfault : Storage.Disk.firstFault h.disk.prospect.reads with
  | none => exact .inl rfl
  | some fault =>
      obtain ⟨n, hn, hmet⟩ := hreads
      refine .inr ⟨fault, rfl, ?_⟩
      cases n with
      | zero =>
          rw [← List.head?_eq_getElem?] at hmet
          cases hfault.symm.trans hmet
      | succ n => exact ⟨n, Nat.lt_of_succ_lt_succ hn, by rwa [List.getElem?_tail]⟩

theorem write_done_or_failed (h : Host) (path : Path) (text : String) :
    (write path text).result h = .ok () ∧
        h.tree.write path text = (.ok (), ((write path text).after h).tree) ∨
      ∃ fault, (write path text).result h = .error fault := by
  simp only [write, result_modifyGet, after_modifyGet, Host.tree, Storage.Disk.write]
  cases Storage.Disk.firstFault h.disk.prospect.writes with
  | some fault => exact .inr ⟨fault, rfl⟩
  | none =>
      dsimp only
      generalize h.disk.tree.write path text = answer
      obtain ⟨written, tree⟩ := answer
      cases written with
      | error fault => exact .inr ⟨fault, rfl⟩
      | ok done => exact .inl ⟨rfl, rfl⟩

theorem write_of_clear {h : Host} (hclear : Storage.Disk.firstFault h.disk.prospect.writes = none)
    (path : Path) (text : String) :
    ((write path text).result h, ((write path text).after h).tree) = h.tree.write path text := by
  simp only [write, result_modifyGet, after_modifyGet, Host.tree, Storage.Disk.write, hclear]

theorem tree_of_failed_write {h : Host} {path : Path} {text : String} {fault : Storage.Fault}
    (hfault : (write path text).result h = .error fault) :
    ((write path text).after h).tree = h.tree ∨
      h.tree.write path text = (.error fault, ((write path text).after h).tree) := by
  simp only [write, result_modifyGet, after_modifyGet, Host.tree, Storage.Disk.write] at hfault ⊢
  cases hmet : Storage.Disk.firstFault h.disk.prospect.writes with
  | some met => exact .inl rfl
  | none =>
      rw [hmet] at hfault
      exact .inr (Prod.ext hfault rfl)

theorem remove_done_or_kept (h : Host) (path : Path) :
    (remove path).result h = .ok () ∧
        h.tree.remove path = .ok ((remove path).after h).tree ∨
      ∃ fault, (remove path).result h = .error fault ∧ ((remove path).after h).tree = h.tree := by
  simp only [remove, result_modifyGet, after_modifyGet, Host.tree, Storage.Disk.remove]
  cases Storage.Disk.firstFault h.disk.prospect.removals with
  | some fault => exact .inr ⟨fault, rfl, rfl⟩
  | none =>
      dsimp only
      cases h.disk.tree.remove path with
      | error fault => exact .inr ⟨fault, rfl, rfl⟩
      | ok tree => exact .inl ⟨rfl, rfl⟩

end Host

namespace SettingsStore

/-- How saving can end, and with which files. -/
inductive Saved (store : SettingsStore) (index : ComponentIndex) (h : Host) :
    Except Failure Bool → Storage.Tree → Prop
  | absent (hempty : index.isEmpty = true) (hthere : h.tree.isThere store.path = false) :
      Saved store index h (.ok false) h.tree
  | removed {tree : Storage.Tree} (hempty : index.isEmpty = true)
      (hthere : h.tree.isThere store.path = true)
      (hremove : (Host.remove store.path).result h = .ok ())
      (htree : h.tree.remove store.path = .ok tree) : Saved store index h (.ok false) tree
  | kept {fault : Storage.Fault} (hempty : index.isEmpty = true)
      (hthere : h.tree.isThere store.path = true)
      (hremove : (Host.remove store.path).result h = .error fault) :
      Saved store index h (.error (.io fault)) h.tree
  | written {tree : Storage.Tree} (hfull : index.isEmpty = false)
      (hwrite : h.tree.write store.path (index.stamped h.now).text = (.ok (), tree)) :
      Saved store index h (.ok true) tree
  | failed {fault : Storage.Fault} (hfull : index.isEmpty = false)
      (hwrite : (Host.write store.path (index.stamped h.now).text).result h = .error fault) :
      Saved store index h (.error (.io fault))
        ((Host.write store.path (index.stamped h.now).text).after h).tree

theorem saved_save (store : SettingsStore) (results : List ScanResult) (h : Host) :
    Saved store (ComponentIndex.ofResults results) h ((store.save results).result h)
      ((store.save results).after h).tree := by
  cases hempty : (ComponentIndex.ofResults results).isEmpty with
  | true =>
      rw [save, hempty]
      change Saved store _ h
        ((if h.tree.isThere store.path = true then _ else _ : HostM _).result h)
        ((if h.tree.isThere store.path = true then _ else _ : HostM _).after h).tree
      cases hthere : h.tree.isThere store.path with
      | false => exact .absent hempty hthere
      | true =>
          rw [if_pos rfl, result_bind, after_bind]
          rcases Host.remove_done_or_kept h store.path with ⟨hdone, htree⟩ | ⟨fault, hfault, htree⟩
          · rw [hdone]
            exact .removed hempty hthere hdone htree
          · rw [hfault]
            exact htree ▸ .kept hempty hthere hfault
  | false =>
      simp only [save, hempty, Bool.false_eq_true, if_false, result_bind, result_get, after_bind,
        after_get]
      rcases Host.write_done_or_failed h store.path
        ((ComponentIndex.ofResults results).stamped h.now).text with ⟨hdone, hwrite⟩ | ⟨fault, hfault⟩
      · have hsaved : Saved store _ h _ _ := .written hempty hwrite
        rw [ComponentIndex.stamped] at hdone hsaved
        rw [hdone]
        exact hsaved
      · have hsaved : Saved store _ h _ _ := .failed hempty hfault
        rw [ComponentIndex.stamped] at hfault hsaved
        rw [hfault]
        exact hsaved

/-- Saving fails with the fault that the one access to the file meets. -/
theorem save_eq_error {store : SettingsStore} {results : List ScanResult} {h : Host}
    {failure : Failure} (hsave : (store.save results).result h = .error failure) :
    let index := ComponentIndex.ofResults results
    let writing := Host.write store.path (index.stamped h.now).text
    ∃ fault, failure = .io fault ∧
      (index.isEmpty = true ∧ (Host.remove store.path).result h = .error fault ∧
          ((store.save results).after h).tree = h.tree ∨
        index.isEmpty = false ∧ writing.result h = .error fault ∧
          ((store.save results).after h).tree = (writing.after h).tree) := by
  have hcases := saved_save store results h
  rw [hsave] at hcases
  generalize ((store.save results).after h).tree = tree at hcases ⊢
  cases hcases with
  | @kept fault hempty _ hremove => exact ⟨fault, rfl, .inl ⟨hempty, hremove, rfl⟩⟩
  | @failed fault hfull hwrite => exact ⟨fault, rfl, .inr ⟨hfull, hwrite, rfl⟩⟩

/-- A file is written only for an index with components. -/
theorem isEmpty_of_save {store : SettingsStore} {results : List ScanResult} {h : Host}
    (hsave : (store.save results).result h = .ok true) :
    (ComponentIndex.ofResults results).isEmpty = false := by
  have hcases := saved_save store results h
  rw [hsave] at hcases
  cases hcases with
  | written hfull _ => exact hfull

/-- That no file was written is told where there was nothing to keep, and no file to be removed that
could not be. -/
theorem result_save_eq_false_iff {store : SettingsStore} {results : List ScanResult} {h : Host} :
    (store.save results).result h = .ok false ↔
      (ComponentIndex.ofResults results).isEmpty = true ∧
        (h.tree.isThere store.path = true → (Host.remove store.path).result h = .ok ()) := by
  have hcases := saved_save store results h
  generalize ((store.save results).after h).tree = tree at hcases
  constructor
  · intro hsave
    rw [hsave] at hcases
    cases hcases with
    | absent hempty hthere => exact ⟨hempty, fun hin => by simp [hthere] at hin⟩
    | removed hempty _ hremove _ => exact ⟨hempty, fun _ => hremove⟩
  · rintro ⟨hempty, hremovable⟩
    generalize (store.save results).result h = answer at hcases ⊢
    cases hcases with
    | absent | removed => rfl
    | kept _ hthere hremove =>
        rw [hremovable hthere] at hremove
        cases hremove
    | written hfull _ | failed hfull _ => simp [hempty] at hfull

theorem isThere_of_save {store : SettingsStore} {results : List ScanResult} {h : Host}
    (hsave : (store.save results).result h = .ok false) :
    ((store.save results).after h).tree.isThere store.path = false := by
  have hcases := saved_save store results h
  rw [hsave] at hcases
  generalize ((store.save results).after h).tree = tree at hcases ⊢
  cases hcases with
  | absent _ hthere => exact hthere
  | removed _ _ _ htree => exact Storage.Tree.isThere_remove htree

theorem write_of_save {store : SettingsStore} {results : List ScanResult} {h : Host} {saved : Bool}
    (hsave : (store.save results).result h = .ok saved)
    (hfull : (ComponentIndex.ofResults results).isEmpty = false) :
    h.tree.write store.path ((ComponentIndex.ofResults results).stamped h.now).text =
      (.ok (), ((store.save results).after h).tree) := by
  have hcases := saved_save store results h
  generalize ((store.save results).after h).tree = tree at hcases ⊢
  rw [hsave] at hcases
  cases hcases with
  | absent hempty | removed hempty => simp [hfull] at hempty
  | written _ hwrite => exact hwrite

theorem result_readUntil {path : Path} {text : String} {attempts : Nat} {h : Host}
    (hread : h.tree.read path = .ok text) (hreads : h.ReadsWithin attempts)
    (last : Storage.Fault) : (readUntil path last attempts).result h = .ok text := by
  induction attempts generalizing h last with
  | zero => exact absurd hreads h.not_readsWithin_zero
  | succ attempts ih =>
      rw [readUntil, result_bind]
      rcases hreads.read_or_later path with hnow | ⟨fault, hfault, hlater⟩
      · rw [hnow, hread]
        rfl
      · rw [hfault]
        exact ih ((congrArg (·.read path) (Host.reading_read h path).tree).trans hread) hlater fault

/-- What is read, when there is something to read, decides what is loaded. -/
theorem load_of_there {store : SettingsStore} {h : Host}
    (hthere : h.tree.isThere store.path = true) :
    store.load.result h =
        (match (readUntil store.path notRead store.attempts).result h with
          | .error fault => .error (.settingsRead store.path store.attempts fault)
          | .ok text => (store.interpret text).map some) ∧
      store.load.after h = (readUntil store.path notRead store.attempts).after h := by
  change (if h.tree.isThere store.path = true then _ else _ : HostM _).result h = _ ∧
    (if h.tree.isThere store.path = true then _ else _ : HostM _).after h = _
  rw [if_pos hthere, result_bind, after_bind]
  cases (readUntil store.path notRead store.attempts).result h <;> exact ⟨rfl, rfl⟩

theorem load_of_missing {store : SettingsStore} {h : Host}
    (hmissing : h.tree.isThere store.path = false) :
    store.load.result h = .ok none ∧ store.load.after h = h := by
  change (if h.tree.isThere store.path = true then _ else _ : HostM _).result h = _ ∧
    (if h.tree.isThere store.path = true then _ else _ : HostM _).after h = _
  rw [hmissing]
  exact ⟨rfl, rfl⟩

theorem load_of_read {store : SettingsStore} {h : Host} {text : String} {index : ComponentIndex}
    (hreads : h.ReadsWithin store.attempts) (hread : h.tree.read store.path = .ok text)
    (hinterpret : store.interpret text = .ok index) :
    store.load.result h = .ok (some index) := by
  rw [(load_of_there (Storage.Tree.isThere_of_read hread)).1, result_readUntil hread hreads]
  simp only [hinterpret]
  rfl

theorem interpret_stamped (store : SettingsStore) (results : List ScanResult) {now : Timestamp}
    (hnow : now.Valid) : store.interpret ((ComponentIndex.ofResults results).stamped now).text =
      .ok ((ComponentIndex.ofResults results).stamped now) := by
  have hdecode : Json.decodeText ComponentIndex.decode
      ((ComponentIndex.ofResults results).stamped now).text =
        .ok ((ComponentIndex.ofResults results).stamped now) := by
    apply ComponentIndex.decodeText_text
    · rw [ComponentIndex.stamped, ComponentIndex.version_ofResults]
      decide
    · intro time htime
      rw [← Option.some.inj htime]
      exact hnow
  rw [interpret, hdecode]
  rfl

/-- What has been saved is loaded again, unless it was put where saving itself took a link away. -/
theorem load_save {store : SettingsStore} {results : List ScanResult} {h h' : Host} {saved : Bool}
    (hsave : (store.save results).result h = .ok saved)
    (hfull : (ComponentIndex.ofResults results).isEmpty = false) (hnow : h.now.Valid)
    (hkeeps : h.tree.KeepsLinks ((store.save results).after h).tree store.path)
    (hread : h'.tree.read store.path = ((store.save results).after h).tree.read store.path)
    (hcalm : h'.Calm) (hattempts : 0 < store.attempts) :
    store.load.result h' = .ok (some ((ComponentIndex.ofResults results).stamped h.now)) := by
  have hwritten := Storage.Tree.read_write (write_of_save hsave hfull) hkeeps
  exact load_of_read (hcalm.readsWithin hattempts) (hread.trans hwritten)
    (interpret_stamped store results hnow)

/-- What has been saved is loaded again if anything can be read in its place, at one of the tries. -/
theorem load_save_of_reads {store : SettingsStore} {results : List ScanResult} {h h' : Host}
    {saved : Bool} {text : String} (hsave : (store.save results).result h = .ok saved)
    (hfull : (ComponentIndex.ofResults results).isEmpty = false) (hnow : h.now.Valid)
    (hthere : ((store.save results).after h).tree.read store.path = .ok text)
    (hread : h'.tree.read store.path = .ok text) (hreads : h'.ReadsWithin store.attempts) :
    store.load.result h' = .ok (some ((ComponentIndex.ofResults results).stamped h.now)) := by
  obtain rfl := Storage.Tree.text_of_read_write (write_of_save hsave hfull) hthere
  exact load_of_read hreads hread (interpret_stamped store results hnow)

theorem load_save_of_read {store : SettingsStore} {results : List ScanResult} {h h' : Host}
    {saved : Bool} {text : String} (hsave : (store.save results).result h = .ok saved)
    (hfull : (ComponentIndex.ofResults results).isEmpty = false) (hnow : h.now.Valid)
    (hthere : ((store.save results).after h).tree.read store.path = .ok text)
    (hread : h'.tree.read store.path = .ok text) (hcalm : h'.Calm)
    (hattempts : 0 < store.attempts) :
    store.load.result h' = .ok (some ((ComponentIndex.ofResults results).stamped h.now)) :=
  load_save_of_reads hsave hfull hnow hthere hread (hcalm.readsWithin hattempts)

/-- When a file was written, it is loaded as the index of the results that were saved, whatever
characters their names are made of; only the time is new. -/
theorem load_restores {store : SettingsStore} {results : List ScanResult} {saving loading : Host}
    {text : String} (hnow : saving.now.Valid)
    (hsave : (store.save results).result saving = .ok true)
    (hthere : ((store.save results).after saving).tree.read store.path = .ok text)
    (hread : loading.tree.read store.path = .ok text)
    (hreads : loading.ReadsWithin store.attempts) :
    ∃ index, store.load.result loading = .ok (some index) ∧
      index.version = (ComponentIndex.ofResults results).version ∧
      index.typeReferences = (ComponentIndex.ofResults results).typeReferences ∧
      index.locations = (ComponentIndex.ofResults results).locations ∧
      index.capabilities = (ComponentIndex.ofResults results).capabilities ∧
      index.writtenAt = some saving.now := by
  have hfull := isEmpty_of_save hsave
  have hload := load_save_of_reads hsave hfull hnow hthere hread hreads
  exact ⟨_, hload, rfl, rfl, rfl, rfl, rfl⟩

/-- A pen with quotes, a backslash, a line break, a null and a picture in its names comes back at
the second try. -/
theorem load_restores_pen :
    let pen : Blueprint := ⟨"P\"e\\n", .ofNat 1, ["dr\x00aw", "🖋"], none, none, [], ""⟩
    let results : List ScanResult :=
      [⟨"/p\na\"c\\k", [], [], (pen.factory.construct 0).registrations⟩]
    let store : SettingsStore := ⟨⟨"/desk/components.json"⟩, 2⟩
    let saving : Host := {
      disk.tree := ⟨.usual, ⟨⟨[(["desk"], .folder)]⟩, .empty⟩, []⟩
      disk.prospect := .clear
      aliases := []
      trace := []
      births := 1
      now := ⟨2024, 1, 1, 0, 0, 0, 0⟩ }
    let saved := (store.save results).after saving
    let loading : Host := { saved with disk.prospect.reads := [some (.other "interrupted")] }
    ∃ index, store.load.result loading = .ok (some index) ∧
      index.typeReferences.get? (.ofNat 1) = some "P\"e\\n" ∧
      "/p\na\"c\\k" ∈ SortedSet.toList index.locations ∧
      index.Lists "dr\x00aw" (.ofNat 1) ∧ index.Lists "🖋" (.ofNat 1) := by
  intro pen results store saving saved loading
  have hsave : ((store.save results).result saving).toOption = some true := by decide +kernel
  have hsome : (saved.tree.read store.path).toOption.isSome = true := by decide +kernel
  obtain ⟨text, hread⟩ := Option.isSome_iff_exists.mp hsome
  rw [toOption_eq_some] at hsave hread
  have htree : loading.tree = saved.tree := by simp only [loading, Host.tree]
  have hloading : loading.tree.read store.path = .ok text := by rw [htree, hread]
  obtain ⟨index, hload, -, hreferences, hlocations, hcapabilities, -⟩ :=
    load_restores (by decide) hsave hread hloading ⟨1, by decide, rfl⟩
  have hlists : ∀ capability ∈ pen.capabilities, index.Lists capability pen.id := by
    intro capability hmem
    rw [ComponentIndex.Lists, hcapabilities]
    exact ComponentIndex.lists_ofResults_iff.mpr (by revert capability; decide)
  refine ⟨index, hload, ?_, ?_, hlists _ (by decide), hlists _ (by decide)⟩
  · rw [hreferences]
    decide
  · rw [hlocations]
    exact ComponentIndex.mem_locations_ofResults.mpr (by decide)

/-! Saving again. -/

/-- The settings file says what was found and when, or there is none since nothing was found. -/
def Keeps (store : SettingsStore) (results : List ScanResult) (tree : Storage.Tree)
    (time : Timestamp) : Prop :=
  if (ComponentIndex.ofResults results).isEmpty then tree.isThere store.path = false
  else tree.read store.path = .ok ((ComponentIndex.ofResults results).stamped time).text

theorem Keeps.read {store : SettingsStore} {results : List ScanResult} {tree : Storage.Tree}
    {time : Timestamp} (h : store.Keeps results tree time) (hfound : pairsOf results ≠ []) :
    tree.read store.path = .ok ((ComponentIndex.ofResults results).stamped time).text := by
  obtain ⟨pair, hpair⟩ := List.exists_mem_of_ne_nil _ hfound
  have hfull := (ComponentIndex.lists_ofResults hpair).isEmpty_eq_false
  simpa [Keeps, hfull] using h

/-- When something can be read in its place, what has been saved can be saved again. -/
theorem save_again {store : SettingsStore} {results : List ScanResult} {h h' : Host} {saved : Bool}
    (hsave : (store.save results).result h = .ok saved)
    (htree : h'.tree = ((store.save results).after h).tree)
    (hclear : Storage.Disk.firstFault h'.disk.prospect.writes = none)
    (hthere : (ComponentIndex.ofResults results).isEmpty = false →
      ∃ text, h'.tree.read store.path = .ok text) :
    (store.save results).result h' = .ok saved ∧ store.Keeps results h'.tree h.now ∧
      store.Keeps results ((store.save results).after h').tree h'.now := by
  unfold Keeps
  cases saved with
  | false =>
      obtain ⟨hempty, -⟩ := result_save_eq_false_iff.mp hsave
      have hnone := isThere_of_save hsave
      rw [← htree] at hnone
      have hagain : (store.save results).result h' = .ok false :=
        result_save_eq_false_iff.mpr ⟨hempty, by simp [hnone]⟩
      rw [if_pos hempty, if_pos hempty]
      exact ⟨hagain, hnone, isThere_of_save hagain⟩
  | true =>
      have hfull := isEmpty_of_save hsave
      obtain ⟨text, hread⟩ := hthere hfull
      have hwrite := write_of_save hsave hfull
      rw [← htree] at hwrite
      obtain rfl := Storage.Tree.text_of_read_write hwrite hread
      obtain ⟨tree, hagain, hnew⟩ := Storage.Tree.write_again hwrite hread
        ((ComponentIndex.ofResults results).stamped h'.now).text
      obtain ⟨hdone, -⟩ := Prod.mk.inj
        ((Host.write_of_clear hclear store.path _).trans hagain)
      have hcases := saved_save store results h'
      generalize ((store.save results).after h').tree = after at hcases ⊢
      generalize (store.save results).result h' = answer at hcases ⊢
      cases hcases with
      | absent hempty | removed hempty | kept hempty => simp [hfull] at hempty
      | failed _ hfailed =>
          rw [hdone] at hfailed
          cases hfailed
      | written _ hwritten =>
          obtain ⟨-, rfl⟩ := Prod.mk.inj (hagain.symm.trans hwritten)
          simp only [hfull, Bool.false_eq_true, if_false]
          exact ⟨trivial, hread, hnew⟩

end SettingsStore

end PluginHost
