import Mathlib.Data.List.TakeWhile
import PluginHost.Proofs.Collection
import PluginHost.Proofs.Resolution.Keeping
import PluginHost.Proofs.Storage.Writing

/-!
Resolving comes to an end. `Resolves` describes the calls that a resolution makes, each identity
with the references of what is found for it, without any bound on their number. Every identity that
is searched for is kept from then on and is one that was asked for or that some file refers to, so
the bound that `settle` counts down from is never what stops it.
-/

namespace PluginHost

open HostM

/-! What the files refer to. -/

namespace Storage

/-- The texts of the identities that a file refers to, if it is a manifest. -/
def Entry.referenced : Entry → List String
  | .file (.text s) =>
      match Json.decodeText Manifest.decode s with
      | .ok m => m.references.filterMap fun s => (Identity.parse s).toOption.map Identity.text
      | .error _ => []
  | _ => []

def Tree.referenced (tree : Tree) : List String :=
  tree.entries.entries.flatMap fun entry => entry.2.referenced

theorem Entry.length_referenced (entry : Entry) :
    entry.referenced.length ≤ Resolver.declaredIn entry := by
  cases entry with
  | folder => exact Nat.le_refl _
  | link aim => exact Nat.le_refl _
  | file contents =>
      cases contents with
      | binary octets => exact Nat.le_refl _
      | text s =>
          simp only [Entry.referenced, Resolver.declaredIn]
          cases Json.decodeText Manifest.decode s with
          | ok m => exact List.length_filterMap_le _ _
          | error fault => exact Nat.le_refl _

theorem Tree.length_referenced (tree : Tree) :
    tree.referenced.length + 1 ≤ Resolver.settleBound tree := by
  have hentries : ∀ entries : List (Address × Entry),
      (entries.flatMap fun entry => entry.2.referenced).length ≤
        entries.foldr (fun entry n => Resolver.declaredIn entry.2 + n) 0 := by
    intro entries
    induction entries with
    | nil => exact Nat.le_refl _
    | cons entry rest ih =>
        rw [List.flatMap_cons, List.length_append, List.foldr_cons]
        exact Nat.add_le_add entry.2.length_referenced ih
  exact Nat.succ_le_succ (hentries tree.entries.entries)

theorem Tree.exists_entry_of_read {tree : Tree} {path : Path} {s : String}
    (h : tree.read path = .ok s) : ∃ a, (a, Entry.file (.text s)) ∈ tree.entries.entries := by
  obtain ⟨a, -, hentry⟩ := read_eq_ok.mp h
  unfold get? at hentry
  split at hentry
  · cases hentry
  · exact ⟨a, Table.mem_entries_of_get? hentry⟩

end Storage

theorem Manifest.exists_text_of_inTree {tree : Storage.Tree} {path : Path} {m : Manifest}
    (h : inTree tree path = .ok m) :
    ∃ s, tree.read path = .ok s ∧ Json.decodeText decode s = .ok m := by
  unfold inTree at h
  cases hread : tree.read path with
  | error fault =>
      rw [hread] at h
      cases h
  | ok s =>
      rw [hread] at h
      exact ⟨s, rfl, mapError_eq_ok.mp h⟩

theorem Catalog.mem_referenced_of_moduleIn {catalog : Catalog} {tree : Storage.Tree} {path : Path}
    {module : LoadedModule} (h : catalog.moduleIn tree path = .ok module) :
    ∀ reference ∈ module.references, reference.text ∈ tree.referenced := by
  intro reference hreference
  obtain ⟨m, hmanifest, -, hreferences, -, -⟩ := moduleIn_eq_ok h
  obtain ⟨s, hread, hdecode⟩ := Manifest.exists_text_of_inTree hmanifest
  obtain ⟨a, hentry⟩ := Storage.Tree.exists_entry_of_read hread
  obtain ⟨written, hwritten, hparse⟩ :=
    Manifest.exists_parse_of_references (mapError_eq_ok.mp hreferences) reference hreference
  refine List.mem_flatMap.mpr ⟨_, hentry, ?_⟩
  simp only [Storage.Entry.referenced, hdecode]
  exact List.mem_filterMap.mpr ⟨written, hwritten, by simp [hparse, Except.toOption]⟩

namespace Resolver

/-- The resolver and the host after some identities have been resolved in turn. One that is not kept
yet is searched for, its outcome is kept, and its references are resolved before what follows. -/
inductive Resolves : Resolver → Host → List Identity → Resolver → Host → Prop
  | done (r : Resolver) (h : Host) : Resolves r h [] r h
  | known {r r' : Resolver} {h h' : Host} {requested : Identity} {rest : List Identity}
      (hknown : r.isMemoized requested = true) (hrest : Resolves r h rest r' h') :
      Resolves r h (requested :: rest) r' h'
  | searched {r between r' : Resolver} {h pause h' : Host} {requested : Identity}
      {rest : List Identity} (hnew : r.isMemoized requested = false)
      (hreferences : Resolves (r.keep requested ((r.probe requested).result h))
        ((r.probe requested).after h) (referencesOf ((r.probe requested).result h)) between pause)
      (hrest : Resolves between pause rest r' h') : Resolves r h (requested :: rest) r' h'

theorem resolves_of_dropWhile {r r' : Resolver} {h h' : Host} {pending : List Identity}
    (hrest : Resolves r h (pending.dropWhile r.isMemoized) r' h') :
    Resolves r h pending r' h' := by
  induction pending with
  | nil => exact hrest
  | cons requested rest ih =>
      rw [List.dropWhile_cons] at hrest
      split at hrest
      · rename_i hknown
        exact .known hknown (ih hrest)
      · exact hrest

theorem Resolves.split {r r' : Resolver} {h h' : Host} {first rest : List Identity}
    (hboth : Resolves r h (first ++ rest) r' h') :
    ∃ between pause, Resolves r h first between pause ∧ Resolves between pause rest r' h' := by
  induction first generalizing r h with
  | nil => exact ⟨r, h, .done r h, hboth⟩
  | cons requested more ih =>
      cases hboth with
      | known hknown hmore =>
          obtain ⟨between, pause, hfirst, hlast⟩ := ih hmore
          exact ⟨between, pause, .known hknown hfirst, hlast⟩
      | searched hnew hreferences hmore =>
          obtain ⟨between, pause, hfirst, hlast⟩ := ih hmore
          exact ⟨between, pause, .searched hnew hreferences hfirst, hlast⟩

theorem Resolves.unique {r first second : Resolver} {h firstHost secondHost : Host}
    {pending : List Identity} (hfirst : Resolves r h pending first firstHost)
    (hsecond : Resolves r h pending second secondHost) :
    first = second ∧ firstHost = secondHost := by
  induction hfirst generalizing second secondHost with
  | done r h =>
      cases hsecond
      exact ⟨rfl, rfl⟩
  | known hknown _ ih =>
      cases hsecond with
      | known _ hrest => exact ih hrest
      | searched hnew _ _ => simp [hknown] at hnew
  | searched hnew _ _ ihreferences ihrest =>
      cases hsecond with
      | known hknown _ => simp [hknown] at hnew
      | searched _ hreferences hrest =>
          obtain ⟨rfl, rfl⟩ := ihreferences hreferences
          exact ihrest hrest

/-! What is left to search for. -/

/-- Those of some texts that nothing is kept for. -/
def missing (r : Resolver) (texts : List String) : List String :=
  texts.filter fun text => !r.memo.contains text

theorem contains_keep (r : Resolver) (requested : Identity) (outcome : Option LoadedModule)
    (key : String) :
    (r.keep requested outcome).memo.contains key =
      (decide (key = requested.text) || r.memo.contains key) := by
  unfold Memo.contains
  rw [get?_keep]
  split <;> simp_all

theorem length_missing_keep {r : Resolver} {requested : Identity} {texts : List String}
    (hmem : requested.text ∈ texts) (hnew : r.isMemoized requested = false)
    (outcome : Option LoadedModule) :
    ((r.keep requested outcome).missing texts).length < (r.missing texts).length := by
  have hfilter : (r.keep requested outcome).missing texts =
      (r.missing texts).filter fun text => text ≠ requested.text := by
    simp [missing, contains_keep, List.filter_filter]
  rw [hfilter, List.length_filter_lt_length_iff_exists]
  refine ⟨requested.text, List.mem_filter.mpr ⟨hmem, ?_⟩, by simp⟩
  simpa [isMemoized] using hnew

theorem mem_referenced_of_probe (r : Resolver) (requested : Identity) (h : Host) :
    ∀ reference ∈ referencesOf ((r.probe requested).result h),
      reference.text ∈ h.tree.referenced := by
  intro reference hreference
  have hprobe := (yields_probe (Host.lasting_has h.tree) (fun _ => id) r requested h rfl).1
  cases houtcome : (r.probe requested).result h with
  | none => simp [houtcome, referencesOf] at hreference
  | some module =>
      obtain ⟨-, path, hpath⟩ := hprobe module houtcome
      rw [houtcome] at hreference
      exact Catalog.mem_referenced_of_moduleIn hpath reference hreference

theorem tree_probe (r : Resolver) (requested : Identity) (h : Host) :
    ((r.probe requested).after h).tree = h.tree :=
  (yields_probe (Host.lasting_has h.tree) (fun _ => id) r requested h rfl).2

/-- Settling is resolving, if it may take as many steps as there are texts left to search for. -/
theorem settle_resolves {fuel : Nat} {r : Resolver} {h : Host} {pending : List Identity}
    {texts : List String} (hpending : ∀ requested ∈ pending, requested.text ∈ texts)
    (hreferenced : ∀ text ∈ h.tree.referenced, text ∈ texts)
    (hfuel : (r.missing texts).length ≤ fuel) :
    Resolves r h pending ((settle fuel r pending).result h) ((settle fuel r pending).after h) := by
  apply resolves_of_dropWhile
  induction fuel generalizing r h pending with
  | zero =>
      have hall : ∀ requested ∈ pending, r.isMemoized requested = true := by
        intro requested hrequested
        have hnone := List.filter_eq_nil_iff.mp (List.eq_nil_of_length_eq_zero (Nat.le_zero.mp hfuel))
          _ (hpending requested hrequested)
        simpa [isMemoized] using hnone
      rw [List.dropWhile_eq_nil_iff.mpr hall]
      exact .done r h
  | succ fuel ih =>
      cases hfirst : pending.dropWhile r.isMemoized with
      | nil =>
          rw [settle, hfirst]
          exact .done r h
      | cons requested rest =>
          have hsub : ∀ identity ∈ requested :: rest, identity.text ∈ texts := by
            intro identity hmem
            rw [← hfirst] at hmem
            exact hpending identity ((List.dropWhile_suffix _).subset hmem)
          have hnew : r.isMemoized requested = false := by
            have hhead := List.head?_dropWhile_not r.isMemoized pending
            rw [hfirst] at hhead
            simpa using hhead
          rw [settle_succ hfirst, result_bind, after_bind]
          have hmore : ∀ identity ∈ referencesOf ((r.probe requested).result h) ++ rest,
              identity.text ∈ texts := by
            intro identity hmem
            rcases List.mem_append.mp hmem with hmem | hmem
            · exact hreferenced _ (mem_referenced_of_probe r requested h identity hmem)
            · exact hsub identity (List.mem_cons_of_mem _ hmem)
          have hless := length_missing_keep (hsub requested List.mem_cons_self) hnew
            ((r.probe requested).result h)
          have hnext := resolves_of_dropWhile (ih
            (r := r.keep requested ((r.probe requested).result h))
            (h := (r.probe requested).after h) hmore
            (by rwa [tree_probe]) (by omega))
          obtain ⟨between, pause, hreferences, hrest⟩ := hnext.split
          exact .searched hnew hreferences hrest

theorem resolve_resolves (r : Resolver) (requested : Identity) (h : Host) :
    Resolves r h [requested] ((r.resolve requested).result h).2
      ((r.resolve requested).after h) := by
  cases hnew : r.isMemoized requested with
  | true =>
      simp only [resolve, hnew]
      exact .known hnew (.done r h)
  | false =>
      have hsettled : Resolves r h [requested]
          ((settle (settleBound h.tree) r [requested]).result h)
          ((settle (settleBound h.tree) r [requested]).after h) := by
        have hasked : ∀ identity ∈ [requested],
            identity.text ∈ requested.text :: h.tree.referenced := by simp
        refine settle_resolves hasked (fun _ => List.mem_cons_of_mem _) ?_
        exact Nat.le_trans (List.length_filter_le _ _) h.tree.length_referenced
      simp only [resolve, hnew]
      exact hsettled

end Resolver

end PluginHost
