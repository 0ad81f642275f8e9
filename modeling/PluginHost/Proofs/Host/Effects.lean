import PluginHost.Component.Factory

/-!
What a computation answers and what it leaves of the host. `Yields` says both at once: on every host
with some property the answer has another, and the host keeps its own. Properties that only depend
on the files, the aliases and the absence of faults outlast everything but writing.
-/

namespace PluginHost

namespace HostM

variable {α β : Type}

/-- On every host in `I` the answer is in `P`, and what is left of the host is in `I` again. -/
def Yields (I : Host → Prop) (c : HostM α) (P : α → Prop) : Prop :=
  ∀ h, I h → P (c.result h) ∧ I (c.after h)

namespace Yields

variable {I : Host → Prop} {c : HostM α} {P : α → Prop} {Q : β → Prop}

theorem pure {a : α} (h : P a) : Yields I (pure a) P :=
  fun _ hI => ⟨h, hI⟩

theorem bind {next : α → HostM β} (hc : Yields I c P) (hnext : ∀ a, P a → Yields I (next a) Q) :
    Yields I (c >>= next) Q := by
  intro h hI
  obtain ⟨hP, hafter⟩ := hc h hI
  exact hnext _ hP _ hafter

theorem mono {P' : α → Prop} (hc : Yields I c P) (h : ∀ a, P a → P' a) : Yields I c P' :=
  fun host hI => ⟨h _ (hc host hI).1, (hc host hI).2⟩

theorem any (hc : Yields I c P) : Yields I c fun _ => True :=
  hc.mono fun _ _ => trivial

theorem answering {P' : α → Prop} (hc : Yields I c P) (h : ∀ host, I host → P' (c.result host)) :
    Yields I c P' :=
  fun host hI => ⟨h host hI, (hc host hI).2⟩

theorem get : Yields I get I :=
  fun _ hI => ⟨hI, hI⟩

theorem mapM {f : α → HostM β} {items : List α} (h : ∀ item ∈ items, Yields I (f item) Q) :
    Yields I (items.mapM f) fun values => ∀ value ∈ values, Q value := by
  induction items with
  | nil => exact Yields.pure (by simp)
  | cons item rest ih =>
      rw [List.mapM_cons]
      refine (h item List.mem_cons_self).bind fun first hfirst => ?_
      have hrest := ih fun other hother => h other (List.mem_cons_of_mem _ hother)
      refine hrest.bind fun values hvalues => Yields.pure ?_
      exact List.forall_mem_cons.mpr ⟨hfirst, hvalues⟩

theorem everywhere (h : ∀ host, P (c.result host)) : Yields (fun _ => True) c P :=
  fun host _ => ⟨h host, trivial⟩

end Yields

end HostM

namespace Host

theorem calm_of_clear {h : Host} (hclear : h.disk.prospect = .clear) : h.Calm := by
  unfold Calm
  rw [hclear]
  simp [Storage.Prospect.clear]

/-- A property of hosts that only writing can end. -/
def Lasting (I : Host → Prop) : Prop :=
  ∀ h h', h.Reading h' → I h → I h'

theorem lasting_reading (h : Host) : Lasting h.Reading :=
  fun _ _ hmore hreading => hreading.trans hmore

def Has (tree : Storage.Tree) (h : Host) : Prop :=
  h.tree = tree

theorem lasting_has (tree : Storage.Tree) : Lasting (Has tree) := by
  intro h h' hreading hhas
  exact hreading.tree.trans hhas

theorem Lasting.and_has {I : Host → Prop} (hI : Lasting I) (tree : Storage.Tree) :
    Lasting fun h => I h ∧ Has tree h := by
  intro h h' hreading hh
  exact ⟨hI h h' hreading hh.1, lasting_has tree h h' hreading hh.2⟩

theorem yields_of_has {α : Type} {I : Host → Prop} {c : HostM α} {P : α → Prop}
    (h : ∀ tree, HostM.Yields (fun h => I h ∧ Has tree h) c P) : HostM.Yields I c P := by
  intro host hI
  obtain ⟨hP, hafter, -⟩ := h host.tree host ⟨hI, rfl⟩
  exact ⟨hP, hafter⟩

/-- The host has these files and aliases, and none of them meets a fault. -/
structure Still (tree : Storage.Tree) (aliases : List (String × Path)) (h : Host) : Prop where
  tree : h.tree = tree
  aliases : h.aliases = aliases
  calm : h.Calm

theorem lasting_still (tree : Storage.Tree) (aliases : List (String × Path)) :
    Lasting (Still tree aliases) := by
  intro h h' hreading hstill
  exact ⟨hreading.tree.trans hstill.tree, hreading.aliases.trans hstill.aliases,
    hreading.calm hstill.calm⟩

theorem Still.mount?_eq {first h : Host} (hstill : Still first.tree first.aliases h)
    (location : String) : h.mount? location = first.mount? location := by
  simp only [mount?, hstill.tree, hstill.aliases]

/-! The operations that write nothing. -/

section

open HostM

variable {I : Host → Prop} {tree : Storage.Tree}

theorem yields_note (hI : Lasting I) (event : Event) : Yields I (note event) fun _ => True :=
  fun h hh => ⟨trivial, hI h _ ⟨rfl, rfl, rfl, rfl, id⟩ hh⟩

theorem yields_report (hI : Lasting I) (message : String) :
    Yields I (report message) fun _ => True :=
  yields_note hI (.reported message)

theorem firstFault_of_calm {met : List (Option Storage.Fault)} (h : ∀ one ∈ met, one = none) :
    Storage.Disk.firstFault met = none := by
  cases met with
  | nil => rfl
  | cons first rest => simp [Storage.Disk.firstFault, h first (by simp)]

theorem result_read (h : Host) (path : Path) :
    (read path).result h = (h.tree.read path) ∨ ∃ fault, (read path).result h = .error fault := by
  simp only [read, note, result_bind, after_modify, result_modifyGet, Storage.Disk.read]
  split
  · exact Or.inr ⟨_, rfl⟩
  · exact Or.inl rfl

theorem result_read_of_calm {h : Host} (hcalm : h.Calm) (path : Path) :
    (read path).result h = h.tree.read path := by
  simp only [read, note, result_bind, after_modify, result_modifyGet, Storage.Disk.read,
    firstFault_of_calm hcalm.1]
  rfl

theorem yields_read (hI : Lasting I) (htree : ∀ h, I h → h.tree = tree) (path : Path) :
    Yields I (read path) fun contents =>
      ∀ text, contents = .ok text → tree.read path = .ok text := by
  intro h hh
  refine ⟨fun text htext => ?_, hI _ _ (reading_read h path) hh⟩
  rw [← htree h hh]
  rcases result_read h path with heq | ⟨fault, hfault⟩
  · exact heq ▸ htext
  · simp [hfault] at htext

theorem result_list_of_calm {h : Host} (hcalm : h.Calm) (folder : Path) (suffix : String) :
    (list folder suffix).result h = .ok (h.tree.listing folder suffix) := by
  simp only [list, result_modifyGet, Storage.Disk.list, firstFault_of_calm hcalm.2]
  rfl

theorem yields_list (hI : Lasting I) (folder : Path) (suffix : String) :
    Yields I (list folder suffix) fun _ => True :=
  fun h hh => ⟨trivial, hI _ _ (reading_list h folder suffix) hh⟩

end

end Host

theorem Factory.yields_create {I : Host → Prop} (hI : Host.Lasting I) (f : Factory) :
    HostM.Yields I f.create fun component => ∃ serial, component = f.construct serial := by
  intro h hh
  refine ⟨⟨h.births, rfl⟩, ?_⟩
  exact hI h _ ⟨rfl, rfl, rfl, rfl, id⟩ hh

end PluginHost
