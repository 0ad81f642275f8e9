import PluginHost.Storage.Disk
import PluginHost.Timestamp

/-!
The host of an engine: its disk, the sources that it mounts under other names, the time, and a trace
of what has happened. Whatever the engine does beside computing, it does to the host.
-/

namespace PluginHost

inductive Event where
  /-- A failure was reported that does not stop the engine. -/
  | reported (message : String)
  | constructed (typeName : String) (serial : Nat)
  | entered (entryPoint : String)
  | read (path : Path)
  /-- The locations were searched for a module. -/
  | probed (identity : String)
  deriving DecidableEq

structure Mount where
  uri : String
  root : Path
  deriving DecidableEq

structure Host where
  disk : Storage.Disk
  /-- Locations that stand for folders of another name. -/
  aliases : List (String × Path)
  trace : List Event
  births : Nat
  now : Timestamp

abbrev HostM := StateM Host

namespace HostM

variable {α β : Type}

def result (c : HostM α) (h : Host) : α :=
  (StateT.run c h).run.1

def after (c : HostM α) (h : Host) : Host :=
  (StateT.run c h).run.2

@[simp] theorem result_pure (a : α) (h : Host) : result (pure a) h = a := rfl

@[simp] theorem after_pure (a : α) (h : Host) : after (pure a) h = h := rfl

@[simp] theorem result_bind (c : HostM α) (next : α → HostM β) (h : Host) :
    result (c >>= next) h = result (next (result c h)) (after c h) := rfl

@[simp] theorem after_bind (c : HostM α) (next : α → HostM β) (h : Host) :
    after (c >>= next) h = after (next (result c h)) (after c h) := rfl

@[simp] theorem result_map (f : α → β) (c : HostM α) (h : Host) :
    result (f <$> c) h = f (result c h) := rfl

@[simp] theorem after_map (f : α → β) (c : HostM α) (h : Host) :
    after (f <$> c) h = after c h := rfl

@[simp] theorem result_get (h : Host) : result get h = h := rfl

@[simp] theorem after_get (h : Host) : after get h = h := rfl

@[simp] theorem result_modifyGet (f : Host → α × Host) (h : Host) :
    result (modifyGet f) h = (f h).1 := rfl

@[simp] theorem after_modifyGet (f : Host → α × Host) (h : Host) :
    after (modifyGet f) h = (f h).2 := rfl

@[simp] theorem after_modify (f : Host → Host) (h : Host) : after (modify f) h = f h := rfl

end HostM

namespace Host

def note (event : Event) : HostM Unit :=
  modify fun h => { h with trace := h.trace ++ [event] }

def report (message : String) : HostM Unit :=
  note (.reported message)

def read (path : Path) : HostM (Except Storage.Fault String) := do
  note (.read path)
  modifyGet fun h =>
    let (result, disk) := h.disk.read path
    (result, { h with disk })

def write (path : Path) (text : String) : HostM (Except Storage.Fault Unit) :=
  modifyGet fun h =>
    let (result, disk) := h.disk.write path text
    (result, { h with disk })

def remove (path : Path) : HostM (Except Storage.Fault Unit) :=
  modifyGet fun h =>
    let (result, disk) := h.disk.remove path
    (result, { h with disk })

def list (folder : Path) (suffix : String) : HostM (Except Storage.Fault (List Path)) :=
  modifyGet fun h =>
    let (result, disk) := h.disk.list folder suffix
    (result, { h with disk })

def tree (h : Host) : Storage.Tree :=
  h.disk.tree

/-- Mounts an alias as its folder, unseen, and any other location as the folder that it names. -/
def mount? (h : Host) (location : String) : Option Mount :=
  match h.aliases.find? (·.1 = location) with
  | some (_, root) => some ⟨location, root⟩
  | none =>
      if h.tree.isFolder ⟨location⟩ then
        let root := (h.tree.canonical ⟨location⟩).toOption.getD ⟨location⟩
        some ⟨root.text, root⟩
      else none

/-- Neither a reading nor a listing meets a fault from now on. -/
def Calm (h : Host) : Prop :=
  (∀ met ∈ h.disk.prospect.reads, met = none) ∧ ∀ met ∈ h.disk.prospect.listings, met = none

/-- `h'` is what is left of `h` when nothing has been written. -/
structure Reading (h h' : Host) : Prop where
  tree : h'.tree = h.tree
  aliases : h'.aliases = h.aliases
  now : h'.now = h.now
  writes : h'.disk.prospect.writes = h.disk.prospect.writes
  calm : h.Calm → h'.Calm

theorem Reading.refl (h : Host) : h.Reading h :=
  ⟨rfl, rfl, rfl, rfl, id⟩

theorem Reading.trans {a b c : Host} (hab : a.Reading b) (hbc : b.Reading c) : a.Reading c :=
  ⟨hbc.tree.trans hab.tree, hbc.aliases.trans hab.aliases, hbc.now.trans hab.now,
    hbc.writes.trans hab.writes, hbc.calm ∘ hab.calm⟩

theorem reading_read (h : Host) (path : Path) : h.Reading ((read path).after h) := by
  have hread : (read path).after h = { h with
      trace := h.trace ++ [.read path], disk := (h.disk.read path).2 } := rfl
  rw [hread]
  constructor
  · simp only [tree, Storage.Disk.read]
    split <;> rfl
  · rfl
  · rfl
  · simp only [Storage.Disk.read]
    split <;> rfl
  · intro hcalm
    simp only [Calm, Storage.Disk.read]
    split <;> exact ⟨fun met hmet => hcalm.1 met (List.mem_of_mem_tail hmet), hcalm.2⟩

theorem reading_list (h : Host) (folder : Path) (suffix : String) :
    h.Reading ((list folder suffix).after h) := by
  have hlist : (list folder suffix).after h =
      { h with disk := (h.disk.list folder suffix).2 } := rfl
  rw [hlist]
  constructor
  · simp only [tree, Storage.Disk.list]
    split <;> rfl
  · rfl
  · rfl
  · simp only [Storage.Disk.list]
    split <;> rfl
  · intro hcalm
    simp only [Calm, Storage.Disk.list]
    split <;> exact ⟨hcalm.1, fun met hmet => hcalm.2 met (List.mem_of_mem_tail hmet)⟩

end Host

end PluginHost
