import PluginHost.Component.Shipped
import PluginHost.Proofs.Registry.Seeding

/-!
What a registry keeps true. Components that are present stand where they belong, every slot has a
type reference to be filled from, and nothing that is known is ever forgotten.
-/

namespace PluginHost

namespace Registry

open HostM

theorem present?_settled (r : Registry) (capability other : Capability) (id i : Uuid)
    (found : Option Component) :
    (r.settled capability id found).present? other i =
      if (other, i) = (capability, id) then found else r.present? other i := by
  simp only [present?, settled, Table.get?_put]
  split <;> simp

theorem present?_remove (r : Registry) (capability other : Capability) (component : Component)
    (i : Uuid) :
    (r.remove capability component).present? other i =
      if (other, i) = (capability, component.id) then none else r.present? other i := by
  simp only [present?, remove, Table.get?_erase]
  split <;> simp

theorem contains_slots (r : Registry) (capability other : Capability) (id i : Uuid)
    (found : Option Component) :
    (r.settled capability id found).slots.contains (other, i) = true ↔
      (other, i) = (capability, id) ∨ r.slots.contains (other, i) = true := by
  simp only [settled, Table.contains, Table.get?_put]
  split <;> simp_all

theorem typeReference_insert (r : Registry) (id i : Uuid) (reference : TypeReference) :
    ({ r with references := r.references.insert id reference } : Registry).typeReference i =
      if i = id then some reference else r.typeReference i :=
  SortedMap.get?_insert ..

/-- `r'` knows all that `r` knows. -/
structure Grows (r r' : Registry) : Prop where
  known : ∀ capability id, id ∈ r.knownIds capability → id ∈ r'.knownIds capability
  references : ∀ id, (r.typeReference id).isSome = true → (r'.typeReference id).isSome = true
  locations : r.resolver.locations <+: r'.resolver.locations

theorem Grows.refl (r : Registry) : r.Grows r :=
  ⟨fun _ _ => id, fun _ => id, List.prefix_rfl⟩

theorem Grows.trans {a b c : Registry} (hab : a.Grows b) (hbc : b.Grows c) : a.Grows c :=
  ⟨fun capability id => hbc.known capability id ∘ hab.known capability id,
    fun id => hbc.references id ∘ hab.references id, hab.locations.trans hbc.locations⟩

/-- What holds of all slots, identifiers and locations of a registry. -/
structure Sound (r : Registry) : Prop where
  present : ∀ capability id component, r.present? capability id = some component →
    component.id = id ∧ component.implements capability = true ∧ id ∈ r.knownIds capability
  referenced : ∀ capability id, r.slots.contains (capability, id) = true →
    (r.typeReference id).isSome = true
  locations : r.resolver.locations.Nodup

theorem isSome_typeReference_insert (r : Registry) (id i : Uuid) (reference : TypeReference)
    (h : i = id ∨ (r.typeReference i).isSome = true) :
    (({ r with references := r.references.insert id reference } : Registry).typeReference
      i).isSome = true := by
  rw [typeReference_insert]
  split
  · rfl
  · rename_i hne
    exact h.resolve_left hne

variable {Allowed : Change → Prop} {r r' : Registry}

theorem Step.grows (h : Step Resolver.Later Allowed r r') : r.Grows r' := by
  cases h with
  | @registered capability component himplements hallowed =>
      refine ⟨fun _ _ hid => (mem_knownIds_remember ..).mpr (.inr hid), ?_, List.prefix_rfl⟩
      exact fun id hid => isSome_typeReference_insert r component.id id _ (.inr hid)
  | released hallowed => exact ⟨fun _ _ => id, fun _ => id, List.prefix_rfl⟩
  | adopted hnew hallowed =>
      refine ⟨fun _ _ => id, fun i hi => ?_, List.prefix_rfl⟩
      exact isSome_typeReference_insert r _ i _ (.inr hi)
  | learned hknown => exact ⟨hknown, fun _ => id, List.prefix_rfl⟩
  | searched hsearched => exact ⟨fun _ _ => id, fun _ => id, hsearched.locations⟩
  | opened hslot => exact ⟨fun _ _ => id, fun _ => id, List.prefix_rfl⟩
  | filled hreference hsettled hsource hbuilt hcheck hslot =>
      exact ⟨fun _ _ hid => (mem_knownIds_remember ..).mpr (.inr hid), fun _ => id,
        List.prefix_rfl⟩

/-- A new content of one slot, in a registry that knows no less, has to fit this slot only. -/
theorem Sound.settled (hsound : r.Sound) (hgrows : r.Grows r') {capability : Capability} {id : Uuid}
    {found : Option Component} (hslots : r'.slots = (r.settled capability id found).slots)
    (hfound : ∀ component, found = some component → component.id = id ∧
      component.implements capability = true ∧ id ∈ r'.knownIds capability)
    (hreference : (r'.typeReference id).isSome = true)
    (hlocations : r'.resolver.locations = r.resolver.locations) : r'.Sound := by
  have hpresent : ∀ other i,
      r'.present? other i = (r.settled capability id found).present? other i := by
    intro other i
    rw [present?, present?, hslots]
  refine ⟨fun other i component hcomponent => ?_, fun other i hslot => ?_,
    hlocations ▸ hsound.locations⟩
  · rw [hpresent, present?_settled] at hcomponent
    split at hcomponent
    · rename_i heq
      cases heq
      exact hfound component hcomponent
    · obtain ⟨hid, himplements, hknown⟩ := hsound.present other i component hcomponent
      exact ⟨hid, himplements, hgrows.known other i hknown⟩
  · rw [hslots, contains_slots] at hslot
    rcases hslot with heq | hslot
    · cases heq
      exact hreference
    · exact hgrows.references i (hsound.referenced other i hslot)

theorem Sound.step (hsound : r.Sound) (h : Step Resolver.Later Allowed r r') : r'.Sound := by
  have hgrows := h.grows
  cases h with
  | @registered capability component himplements hallowed =>
      refine hsound.settled hgrows rfl (fun other hother => ?_) ?_ rfl
      · cases hother
        exact ⟨rfl, himplements, (mem_knownIds_remember ..).mpr (.inl ⟨rfl, rfl⟩)⟩
      · exact isSome_typeReference_insert r component.id component.id _ (.inl rfl)
  | @released capability component hallowed =>
      refine ⟨fun other i found hfound => ?_, fun other i hslot => ?_, hsound.locations⟩
      · rw [present?_remove] at hfound
        split at hfound
        · cases hfound
        · exact hsound.present other i found hfound
      · refine hsound.referenced other i ?_
        simp only [remove, Table.contains, Table.get?_erase] at hslot
        split at hslot
        · cases hslot
        · exact hslot
  | adopted hnew hallowed =>
      refine ⟨hsound.present, fun other i hslot => ?_, hsound.locations⟩
      exact hgrows.references i (hsound.referenced other i hslot)
  | learned hknown =>
      refine ⟨fun other i found hfound => ?_, hsound.referenced, hsound.locations⟩
      obtain ⟨hid, hother, hin⟩ := hsound.present other i found hfound
      exact ⟨hid, hother, hknown other i hin⟩
  | searched hsearched =>
      exact ⟨hsound.present, hsound.referenced, hsearched.nodup hsound.locations⟩
  | @opened capability id hslot =>
      refine hsound.settled hgrows rfl (fun _ hnone => (by cases hnone)) ?_ rfl
      rcases hslot with hslot | ⟨-, hknown⟩
      · exact hsound.referenced capability id (by simp [Table.contains, hslot])
      · exact hknown
  | @filled capability id reference _ _ _ component hreference hsettled hsource hbuilt hcheck
      hslot =>
      refine hsound.settled hgrows rfl (fun other hother => ?_) ?_ rfl
      · cases hother
        obtain ⟨-, hid, himplements⟩ := check_eq_ok hcheck
        exact ⟨hid, himplements, (mem_knownIds_remember ..).mpr (.inl ⟨rfl, rfl⟩)⟩
      · change (r.typeReference id).isSome = true
        rw [hreference]
        rfl

theorem Steps.grows (h : Steps Resolver.Later Allowed r r') : r.Grows r' := by
  induction h with
  | refl => exact Grows.refl r
  | tail _ hstep ih => exact ih.trans hstep.grows

theorem Sound.steps (hsound : r.Sound) (h : Steps Resolver.Later Allowed r r') : r'.Sound := by
  induction h with
  | refl => exact hsound
  | tail _ hstep ih => exact ih.step hstep

/-- A registry that was made with whatever is built in and saved, and has come through anything that
callers do and hosts go through. -/
inductive Reachable : Registry → Prop
  | seeded {suffix : String} {policy : CulturePolicy} {catalog : Catalog}
      {earlier : List Resolver.Action} {builtIn : List (Capability × Component)}
      {store : SettingsStore} {before h : Host} {r : Registry}
      (hseeded : (seeded builtIn (((Resolver.new suffix policy catalog).run earlier).result before)
        store).result h = .ok r) : Reachable r
  | performed {r : Registry} (hreachable : Reachable r) (action : Action) (h : Host) :
      Reachable ((r.perform action).result h)

theorem Reachable.steps (h : r.Reachable) :
    ∃ suffix policy catalog resolver store, (Resolver.new suffix policy catalog).Later resolver ∧
      Steps Resolver.Later (fun _ => True) (new resolver store) r := by
  induction h with
  | @seeded suffix policy catalog earlier builtIn store before h r hseeded =>
      refine ⟨suffix, policy, catalog, _, store, Resolver.later_run _ earlier before, ?_⟩
      exact (yields_seeded (fun _ => trivial) (fun _ _ => trivial) _ store h trivial).1 r hseeded
  | performed hreachable action h ih =>
      obtain ⟨suffix, policy, catalog, resolver, store, hlater, hsteps⟩ := ih
      refine ⟨suffix, policy, catalog, resolver, store, hlater, hsteps.trans ?_⟩
      exact steps_perform lawful_later action.asks_all trivial fun _ _ => trivial

theorem sound_new {resolver : Resolver} (hnodup : resolver.locations.Nodup)
    (store : SettingsStore) : (new resolver store).Sound := by
  refine ⟨fun capability id component hpresent => ?_, fun capability id hslot => ?_, hnodup⟩
  · cases hpresent
  · cases hslot

theorem Reachable.sound (h : r.Reachable) : r.Sound := by
  obtain ⟨suffix, policy, catalog, resolver, store, hlater, hsteps⟩ := h.steps
  exact (sound_new (hlater.nodup List.nodup_nil) store).steps hsteps

theorem constructed_ne_no (rest : String) :
    "constructed component has id " ++ rest ≠ "no type reference recorded" := by
  intro h
  have hlist := congrArg String.toList h
  simp at hlist

theorem activate_ne_noReference {capability : Capability} {id : Uuid}
    (hreference : (r.typeReference id).isSome = true) (h : Host) :
    ((r.activate capability id).result h).1 ≠ .error (noReference id) := by
  have htried := (yields_activate lawful_later r capability id h trivial).1
  generalize (r.activate capability id).result h = answer at htried
  cases htried with
  | stray hnone => simp [hnone] at hreference
  | run _ _ _ hbuilt =>
      cases hbuilt with
      | failed hsource hother => exact fun heq => hother id.text (Except.error.inj heq)
      | built hsource serial =>
          simp only [Except.bind, check]
          split
          · intro heq
            injection heq with heq
            injection heq with _ hreason
            exact constructed_ne_no _ hreason
          · split <;> simp [noReference]

/-- What every registry keeps true at all times: components are present only where they belong and
are known; every slot, and every slot that a look-up is going to fill, has a type reference, so no
component fails for want of one; and identifiers, type references and locations that are known once
are known ever after, the locations without repetition. -/
theorem reachable_invariant (h : r.Reachable) :
    (∀ capability id component, r.present? capability id = some component →
      component.id = id ∧ component.implements capability = true ∧
        id ∈ r.knownIds capability ∧ (r.typeReference id).isSome = true) ∧
    (∀ capability id, r.slots.contains (capability, id) = true →
      (r.typeReference id).isSome = true) ∧
    (∀ capability id, (r.slots.contains (capability, id) = true ∨ r.references.contains id = true) →
      ∀ host, (((r.settled capability id none).activate capability id).result host).1 ≠
        .error (noReference id)) ∧
    r.resolver.locations.Nodup ∧
    ∀ actions host, r.Grows ((r.run actions).result host) := by
  have hsound := h.sound
  refine ⟨fun capability id component hpresent => ?_, hsound.referenced, ?_, hsound.locations, ?_⟩
  · obtain ⟨hid, himplements, hknown⟩ := hsound.present capability id component hpresent
    refine ⟨hid, himplements, hknown, hsound.referenced capability id ?_⟩
    rw [present?, Option.join_eq_some_iff] at hpresent
    simp [Table.contains, hpresent]
  · intro capability id hslot host
    have hreference : (r.typeReference id).isSome = true :=
      hslot.elim (hsound.referenced capability id) fun hknown => hknown
    exact activate_ne_noReference (r := r.settled capability id none) hreference host
  · intro actions host
    have hwithin : Within (fun _ => True) r host actions :=
      within_all (fun _ => trivial) r host actions
    exact (steps_run_later hwithin).grows

/-- A settings file that tells of one component, the module of which is nowhere. -/
def drawer : Host where
  disk.tree.limits := .usual
  disk.tree.entries := ⟨⟨[
    (["drawer"], .folder),
    (["drawer", "components.json"], .file (.text
      ("\x7b\"component_type_references\": " ++
        "\x7b\"00000000000000000000000000000001\": \"Pen, Ink\"\x7d\x7d")))]⟩, .empty⟩
  disk.tree.here := []
  disk.prospect := .clear
  aliases := []
  trace := []
  births := 0
  now := ⟨2024, 1, 1, 0, 0, 0, 0⟩

/-- The look-up fails, and leaves an empty slot with a type reference. -/
theorem reachable_invariant_drawer :
    ∃ first : Registry, (seeded Shipped.components (.new ".module" .strict .empty)
        (.new ⟨"/drawer/components.json"⟩)).result drawer = .ok first ∧
      let r := (first.perform (.lookUp "draw" (.ofNat 1))).result drawer
      r.slots.get? ("draw", .ofNat 1) = some none ∧ (r.typeReference (.ofNat 1)).isSome = true := by
  have hslot : (((seeded Shipped.components (.new ".module" .strict .empty)
      (.new ⟨"/drawer/components.json"⟩)).result drawer).toOption.map fun first =>
        (((first.perform (.lookUp "draw" (.ofNat 1))).result drawer).slots.get?
          ("draw", .ofNat 1)).map Option.isSome) = some (some false) := by
    decide +kernel
  cases hseeded : (seeded Shipped.components (.new ".module" .strict .empty)
      (.new ⟨"/drawer/components.json"⟩)).result drawer with
  | error failure =>
      rw [hseeded] at hslot
      cases hslot
  | ok first =>
      rw [hseeded] at hslot
      obtain ⟨found, hempty, hnone⟩ := Option.map_eq_some_iff.mp (Option.some.inj hslot)
      obtain rfl := Option.not_isSome_iff_eq_none.mp (Bool.not_eq_true _ ▸ hnone)
      have hfirst : Reachable first := @Reachable.seeded _ _ _ [] _ _ drawer _ _ hseeded
      have hinvariant := reachable_invariant (hfirst.performed (.lookUp "draw" (.ofNat 1)) drawer)
      exact ⟨first, rfl, hempty,
        hinvariant.2.1 "draw" (.ofNat 1) (congrArg Option.isSome hempty)⟩

end Registry

end PluginHost
