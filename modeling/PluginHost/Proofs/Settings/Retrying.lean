import PluginHost.Proofs.Resolution.Visits
import PluginHost.Proofs.Settings.Saving

/-!
Reading the settings file is tried again while it fails. There are as many readings as it takes to
succeed and no more than allowed, and the last one decides: its text is the index or cannot be
understood, and its fault is the one that is told.
-/

namespace PluginHost

open HostM

namespace SettingsStore

/-! How often it is read. -/

/-- The first `k` readings of the file meet faults. -/
def FailsBefore (h : Host) (path : Path) (k : Nat) : Prop :=
  ∀ j < k, ∃ fault, h.readingAt j path = .error fault

variable {path : Path} {h : Host} {k : Nat} {text : String} {fault : Storage.Fault}

theorem FailsBefore.later (hfails : FailsBefore h path (k + 1)) :
    FailsBefore ((Host.read path).after h) path k := by
  intro j hj
  rw [(Host.spent_read path h).readingAt, List.length_singleton, Nat.add_comm]
  exact hfails (j + 1) (Nat.succ_lt_succ hj)

/-- After failures what is left of the tries goes on. -/
theorem readUntil_past (hfails : FailsBefore h path k) (last : Storage.Fault) (more : Nat) :
    ∃ fault h', h.Spent h' 0 (List.replicate k path) [] ∧
      (readUntil path last (k + more)).result h = (readUntil path fault more).result h' ∧
      (readUntil path last (k + more)).after h = (readUntil path fault more).after h' := by
  induction k generalizing h last with
  | zero =>
      rw [Nat.zero_add]
      exact ⟨last, h, .refl h, rfl, rfl⟩
  | succ k ih =>
      obtain ⟨first, hfirst⟩ := hfails 0 (Nat.succ_pos k)
      rw [← Host.result_read_eq] at hfirst
      obtain ⟨fault, h', hspent, hresult, hafter⟩ := ih hfails.later first
      refine ⟨fault, h', (Host.spent_read path h).trans hspent, ?_, ?_⟩
      · rw [Nat.succ_add, readUntil, result_bind, hfirst]
        exact hresult
      · rw [Nat.succ_add, readUntil, after_bind, hfirst]
        exact hafter

/-- The first reading that succeeds is the last one. -/
theorem readUntil_of_success (hfails : FailsBefore h path k) (hread : h.readingAt k path = .ok text)
    {attempts : Nat} (hk : k < attempts) (last : Storage.Fault) :
    (readUntil path last attempts).result h = .ok text ∧
      h.Spent ((readUntil path last attempts).after h) 0 (List.replicate (k + 1) path) [] := by
  obtain ⟨more, rfl⟩ := Nat.exists_eq_add_of_lt hk
  obtain ⟨fault, h', hspent, hresult, hafter⟩ := readUntil_past hfails last (more + 1)
  have hnow : (Host.read path).result h' = .ok text := by
    rw [Host.result_read_eq, hspent.readingAt, List.length_replicate]
    exact hread
  rw [Nat.add_assoc, hresult, hafter, List.replicate_succ', readUntil, result_bind, after_bind, hnow]
  exact ⟨rfl, hspent.trans (Host.spent_read path h')⟩

/-- When no reading succeeds, the last one gives the fault. -/
theorem readUntil_of_failures (hfails : FailsBefore h path k)
    (hread : h.readingAt k path = .error fault) (last : Storage.Fault) :
    (readUntil path last (k + 1)).result h = .error fault ∧
      h.Spent ((readUntil path last (k + 1)).after h) 0 (List.replicate (k + 1) path) [] := by
  obtain ⟨before, h', hspent, hresult, hafter⟩ := readUntil_past hfails last 1
  have hnow : (Host.read path).result h' = .error fault := by
    rw [Host.result_read_eq, hspent.readingAt, List.length_replicate]
    exact hread
  rw [hresult, hafter, List.replicate_succ', readUntil, result_bind, after_bind, hnow]
  exact ⟨rfl, hspent.trans (Host.spent_read path h')⟩

/-! Loading. -/

theorem spent_readUntil (path : Path) (last : Storage.Fault) (attempts : Nat) (h : Host) :
    ∃ readings, h.Spent ((readUntil path last attempts).after h) 0 readings [] := by
  induction attempts generalizing last h with
  | zero => exact ⟨[], .refl h⟩
  | succ attempts ih =>
      rw [readUntil, after_bind]
      have hfirst := Host.spent_read path h
      cases (Host.read path).result h with
      | ok text => exact ⟨[path], hfirst⟩
      | error fault =>
          obtain ⟨readings, hrest⟩ := ih fault ((Host.read path).after h)
          exact ⟨[path] ++ readings, hfirst.trans hrest⟩

theorem reports_load (store : SettingsStore) (h : Host) :
    (store.load.after h).reports = h.reports := by
  cases hthere : h.tree.isThere store.path with
  | false => rw [(load_of_missing hthere).2]
  | true =>
      obtain ⟨readings, hspent⟩ := spent_readUntil store.path notRead store.attempts h
      rw [(load_of_there hthere).2, hspent.reports, List.append_nil]

theorem load_of_unreadable {store : SettingsStore} {h : Host} {fault : Storage.Fault}
    (hthere : h.tree.isThere store.path = true)
    (hread : (readUntil store.path notRead store.attempts).result h = .error fault) :
    store.load.result h = .error (.settingsRead store.path store.attempts fault) := by
  rw [(load_of_there hthere).1, hread]

theorem load_of_text {store : SettingsStore} {h : Host} {text : String}
    (hthere : h.tree.isThere store.path = true)
    (hread : (readUntil store.path notRead store.attempts).result h = .ok text) :
    store.load.result h = (store.interpret text).map some := by
  rw [(load_of_there hthere).1, hread]

theorem load_of_success {store : SettingsStore} (hthere : h.tree.isThere store.path = true)
    (hk : k < store.attempts) (hfails : FailsBefore h store.path k)
    (hread : h.readingAt k store.path = .ok text) :
    store.load.result h =
        (match Json.decodeText ComponentIndex.decode text with
          | .ok index => .ok (some index)
          | .error error => .error (.settingsParse store.path error.message)) ∧
      h.Spent (store.load.after h) 0 (List.replicate (k + 1) store.path) [] := by
  obtain ⟨hresult, hspent⟩ := readUntil_of_success hfails hread hk notRead
  rw [load_of_text hthere hresult, (load_of_there hthere).2, interpret]
  refine ⟨?_, hspent⟩
  cases Json.decodeText ComponentIndex.decode text <;> rfl

theorem load_of_failures {store : SettingsStore} (hthere : h.tree.isThere store.path = true)
    (hpos : 0 < store.attempts) (hfails : FailsBefore h store.path store.attempts) :
    ∃ fault, h.readingAt (store.attempts - 1) store.path = .error fault ∧
      store.load.result h = .error (.settingsRead store.path store.attempts fault) ∧
      h.Spent (store.load.after h) 0 (List.replicate store.attempts store.path) [] := by
  obtain ⟨fault, hfault⟩ := hfails (store.attempts - 1) (Nat.sub_lt hpos Nat.one_pos)
  have hbefore : FailsBefore h store.path (store.attempts - 1) :=
    fun j hj => hfails j (Nat.lt_of_lt_of_le hj (Nat.sub_le _ _))
  obtain ⟨hresult, hspent⟩ := readUntil_of_failures hbefore hfault notRead
  rw [Nat.sub_add_cancel hpos] at hresult hspent
  rw [load_of_unreadable hthere hresult, (load_of_there hthere).2]
  exact ⟨fault, hfault, rfl, hspent⟩

/-- A file at the root, the first readings of which meet what they should. -/
def meeting (outcomes : Nat → Except Storage.Fault String) (n : Nat) : Host where
  disk.tree.limits := .usual
  disk.tree.entries := ⟨⟨[(["components.json"], .file (.text
    (((List.range n).findSome? fun k => (outcomes k).toOption).getD "")))]⟩, .empty⟩
  disk.tree.here := []
  disk.prospect := { Storage.Prospect.clear with
    reads := (List.range n).map fun k =>
      match outcomes k with
      | .ok _ => none
      | .error fault => some fault }
  aliases := []
  trace := []
  births := 0
  now := ⟨2024, 1, 1, 0, 0, 0, 0⟩

theorem isThere_meeting (outcomes : Nat → Except Storage.Fault String) (n : Nat) :
    (meeting outcomes n).tree.isThere ⟨"/components.json"⟩ = true :=
  rfl

/-- There is nothing that readings of a file could not meet up to the first success. -/
theorem readingAt_meeting (outcomes : Nat → Except Storage.Fault String) {n : Nat} (hk : k < n)
    (hfails : ∀ j < k, ∃ fault, outcomes j = .error fault) :
    (meeting outcomes n).readingAt k ⟨"/components.json"⟩ = outcomes k := by
  have hmet : (meeting outcomes n).disk.prospect.reads[k]? =
      some (match outcomes k with
        | .ok _ => none
        | .error fault => some fault) := by
    simp [meeting, hk]
  rw [Host.readingAt, hmet]
  cases houtcome : outcomes k with
  | error fault => rfl
  | ok text =>
      have hfirst : (List.range n).findSome? (fun k => (outcomes k).toOption) = some text := by
        obtain ⟨more, rfl⟩ := Nat.exists_eq_add_of_lt hk
        rw [Nat.add_assoc, List.range_add, List.range_succ_eq_map, List.findSome?_append,
          List.findSome?_eq_none_iff.mpr fun j hj => ?_, Option.none_or]
        · simp [houtcome, Except.toOption]
        · obtain ⟨fault, hfault⟩ := hfails j (List.mem_range.mp hj)
          simp [hfault, Except.toOption]
      change (meeting outcomes n).tree.read _ = _
      have hread : ∀ text : String, (⟨.usual, ⟨⟨[(["components.json"], .file (.text text))]⟩,
          .empty⟩, []⟩ : Storage.Tree).read ⟨"/components.json"⟩ = .ok text := fun _ => rfl
      rw [← hread text]
      unfold meeting Host.tree
      rw [hfirst]
      rfl

/-- A settings file that is not there is not read. One that is there is read until it can be, at most
as often as allowed, which is once at least. The first text decides, whether it can be understood or
not; without any the last fault is told, and how often the file was read. So what stands for the fault
before the first reading is never told. All this is said of hosts on which readings meet anything. -/
theorem load_retries (path : Path) (limit : Nat) (h : Host) :
    let store := (new path).withAttempts limit
    let attempts := max limit 1
    (h.tree.isThere path = false → store.load.result h = .ok none ∧ store.load.after h = h) ∧
    (h.tree.isThere path = true → ∀ k < attempts, FailsBefore h path k →
      ∀ text, h.readingAt k path = .ok text →
        store.load.result h =
            (match Json.decodeText ComponentIndex.decode text with
              | .ok index => .ok (some index)
              | .error error => .error (.settingsParse path error.message)) ∧
          h.Spent (store.load.after h) 0 (List.replicate (k + 1) path) []) ∧
    (h.tree.isThere path = true → FailsBefore h path attempts →
      ∃ fault, h.readingAt (attempts - 1) path = .error fault ∧
        store.load.result h = .error (.settingsRead path attempts fault) ∧
        h.Spent (store.load.after h) 0 (List.replicate attempts path) []) ∧
    (∀ last, readUntil path last attempts = readUntil path notRead attempts) ∧
    ∀ outcomes : Nat → Except Storage.Fault String,
      (meeting outcomes attempts).tree.isThere ⟨"/components.json"⟩ = true ∧
      ∀ k < attempts, (∀ j < k, ∃ fault, outcomes j = .error fault) →
        (meeting outcomes attempts).readingAt k ⟨"/components.json"⟩ = outcomes k := by
  intro store attempts
  have hpos : 0 < attempts := Nat.lt_of_lt_of_le Nat.one_pos (Nat.le_max_right limit 1)
  have hpath : store.path = path := rfl
  have hattempts : store.attempts = attempts := rfl
  clear_value store attempts
  subst hpath hattempts
  refine ⟨fun hmissing => load_of_missing hmissing, fun hthere k hk hfails text hread => ?_,
    fun hthere hfails => ?_, fun last => ?_, fun outcomes => ⟨isThere_meeting outcomes _, ?_⟩⟩
  · exact load_of_success hthere hk hfails hread
  · exact load_of_failures hthere hpos hfails
  · obtain ⟨n, hn⟩ := Nat.exists_eq_succ_of_ne_zero hpos.ne'
    rw [hn]
    rfl
  · exact fun k hk hfails => readingAt_meeting outcomes hk hfails

/-- Twice the file is locked, and then it can be read. -/
def unlocking (k : Nat) : Except Storage.Fault String :=
  if k < 2 then .error (.other "locked") else .ok "{}"

theorem failsBefore_unlocking {n k : Nat} (hk : k ≤ n) (htwo : k ≤ 2) :
    FailsBefore (meeting unlocking n) ⟨"/components.json"⟩ k := fun j hj => by
  have hfails : ∀ i < j + 1, ∃ fault, unlocking i = .error fault := fun i hi =>
    ⟨.other "locked", if_pos (by omega)⟩
  rw [readingAt_meeting unlocking (Nat.lt_of_lt_of_le hj hk)
    fun i hi => hfails i (Nat.lt_succ_of_lt hi)]
  exact hfails j (Nat.lt_succ_self j)

/-- Three readings are enough; when nothing is allowed the one that is made is told of. -/
theorem load_retries_unlocking :
    (((new ⟨"/components.json"⟩).withAttempts 3).load.result (meeting unlocking 3) =
      .ok (some ⟨0, none, .empty, .empty, .empty⟩)) ∧
    (((new ⟨"/components.json"⟩).withAttempts 0).load.result (meeting unlocking 1) =
      .error (.settingsRead ⟨"/components.json"⟩ 1 (.other "locked"))) := by
  refine ⟨?_, ?_⟩
  · have hread : (meeting unlocking 3).readingAt 2 ⟨"/components.json"⟩ = .ok "{}" := rfl
    have htext : Json.decodeText ComponentIndex.decode "{}" =
        .ok ⟨0, none, .empty, .empty, .empty⟩ := by decide +kernel
    have hresult := ((load_retries ⟨"/components.json"⟩ 3 (meeting unlocking 3)).2.1 rfl 2
      (by decide) (failsBefore_unlocking (by decide) (by decide)) "{}" hread).1
    rw [hresult, htext]
  · obtain ⟨fault, hfault, hresult, -⟩ :=
      (load_retries ⟨"/components.json"⟩ 0 (meeting unlocking 1)).2.2.1 rfl
        (failsBefore_unlocking (by decide) (by decide))
    cases hfault
    exact hresult

end SettingsStore

end PluginHost
