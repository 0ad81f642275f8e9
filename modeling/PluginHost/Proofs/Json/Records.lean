import PluginHost.Proofs.Json.RoundTrip

/-!
Records read from objects. A member that a field gives when it is missing may be left out, and
members that the record does not know may be put in anywhere: what is read stays the same
(`Survives`). Reading follows the members from left to right, and so do the lemmas.
-/

namespace PluginHost.Json

/-- A text of a document, in which nothing else stands. -/
def Spells (s : String) (d : Document) : Prop :=
  Source.ofString s = ⟨d, true⟩

theorem Document.Whole.spells_text {d : Document} (h : d.Whole) : Spells d.text d :=
  Source.ofString_text h

theorem Spells.decodeText_eq {α : Type} {s : String} {d : Document} (h : Spells s d)
    {decode : Decoder α} {value : α} (hdecode : decode d = .ok value) :
    decodeText decode s = .ok value := by
  unfold Spells at h
  unfold decodeText
  rw [h]
  dsimp only
  rw [hdecode]
  rfl

/-! Objects that say the same. -/

/-- The members in `told` say what those in `written` say: some that `defaults` has may be left out,
and there may be more, under names that the record does not know. -/
inductive RetoldMembers {σ : Type} (shape : Shape σ) (defaults : List (String × Document)) :
    List (String × Document) → List (String × Document) → Prop
  | nil : RetoldMembers shape defaults [] []
  | kept {written told : List (String × Document)} (member : String × Document)
      (h : RetoldMembers shape defaults written told) :
      RetoldMembers shape defaults (member :: written) (member :: told)
  | omitted {written told : List (String × Document)} {name : String} {document : Document}
      (hdefault : defaults.lookup name = some document)
      (h : RetoldMembers shape defaults written told) :
      RetoldMembers shape defaults ((name, document) :: written) told
  | added {written told : List (String × Document)} {name : String}
      (hunknown : ∀ field ∈ shape.fields, field.name ≠ name) (document : Document)
      (h : RetoldMembers shape defaults written told) :
      RetoldMembers shape defaults written ((name, document) :: told)

/-- The object `told` says what the object `written` says. -/
def Document.Retold {σ : Type} (shape : Shape σ) (defaults : List (String × Document))
    (written told : Document) : Prop :=
  ∃ members others, written = .ofMembers members ∧ told = .ofMembers others ∧
    RetoldMembers shape defaults members others

/-- Values are read back from the texts that are written for them, and from every text of an object
that says the same. -/
structure Survives {σ α : Type} (shape : Shape σ) (defaults : List (String × Document))
    (write : α → Document) (decode : Decoder α) : Prop where
  optional : (shape.fields.filter fun field => !field.required).map Field.name =
    defaults.map Prod.fst
  text : ∀ value, decodeText decode (write value).text = .ok value
  retold : ∀ value told, Document.Retold shape defaults (write value) told →
    ∀ s, Spells s told → decodeText decode s = .ok value

variable {σ α β : Type} {shape : Shape σ} {defaults written told : List (String × Document)}
  {name : String} {document : Document} {state : σ}

theorem RetoldMembers.refl (members : List (String × Document)) :
    RetoldMembers shape defaults members members := by
  induction members with
  | nil => exact .nil
  | cons member rest ih => exact .kept member ih

namespace Shape

/-- Members as a document has them. -/
def fillNamed (shape : Shape σ) (state : σ) (members : List (String × Document)) :
    Except DecodeError σ :=
  shape.fillMembers state (members.map fun member => (Str.of member.1, member.2))

theorem decode_ofMembers {members : List (String × Document)} {next : σ}
    (h : shape.fillNamed shape.start members = .ok next) :
    shape.decode (.ofMembers members) = shape.requireFields next := by
  unfold fillNamed at h
  simp only [decode, Document.ofMembers, h]
  rfl

theorem fillNamed_cons {field : Field σ} {next : σ}
    (hfind : shape.fields.find? (·.name = name) = some field) (hnew : field.isSet state = false)
    (hfill : field.fill state document = .ok next) (rest : List (String × Document)) :
    shape.fillNamed state ((name, document) :: rest) = shape.fillNamed next rest := by
  have hget : (Str.of name).get = .ok name := rfl
  simp only [fillNamed, List.map_cons, fillMembers, hget, bind, Except.bind, hfind, hnew, hfill]
  rfl

theorem fillNamed_unknown (hunknown : ∀ field ∈ shape.fields, field.name ≠ name)
    (document : Document) (rest : List (String × Document)) :
    shape.fillNamed state ((name, document) :: rest) = shape.fillNamed state rest := by
  have hget : (Str.of name).get = .ok name := rfl
  have hfind : shape.fields.find? (·.name = name) = none := by
    simpa [List.find?_eq_none] using hunknown
  simp only [fillNamed, List.map_cons, fillMembers, hget, bind, Except.bind, hfind]

theorem fill_of {required : Bool} {decode : Decoder β} {get : σ → Option β} {set : σ → β → σ}
    {value : β} (h : decode document = .ok value) :
    (Field.of name required decode get set).fill state document = .ok (set state value) := by
  simp only [Field.of, h]
  rfl

end Shape

theorem RetoldMembers.fillNamed_nil (h : RetoldMembers shape defaults [] told) (state : σ) :
    shape.fillNamed state told = .ok state := by
  generalize hwritten : ([] : List (String × Document)) = written at h
  induction h with
  | nil => rfl
  | kept | omitted => cases hwritten
  | added hunknown document h ih => rw [Shape.fillNamed_unknown hunknown, ih hwritten]

/-- The first member is told, after some that are not known, or it is left out. -/
theorem RetoldMembers.first (h : RetoldMembers shape defaults ((name, document) :: written) told) :
    ∃ rest, RetoldMembers shape defaults written rest ∧
      ((∀ state, shape.fillNamed state told = shape.fillNamed state ((name, document) :: rest)) ∨
        (defaults.lookup name = some document ∧
          ∀ state, shape.fillNamed state told = shape.fillNamed state rest)) := by
  generalize hwritten : (name, document) :: written = members at h
  induction h with
  | nil => cases hwritten
  | kept member h ih =>
      cases hwritten
      exact ⟨_, h, .inl fun _ => rfl⟩
  | omitted hdefault h ih =>
      cases hwritten
      exact ⟨_, h, .inr ⟨hdefault, fun _ => rfl⟩⟩
  | added hunknown document h ih =>
      obtain ⟨rest, hrest, hfirst⟩ := ih hwritten
      refine ⟨rest, hrest, ?_⟩
      simpa only [Shape.fillNamed_unknown hunknown] using hfirst

/-! What reading leads to. -/

/-- However the members are retold, filling in what is told leads from `state` to one with `P`. -/
def Leads (shape : Shape σ) (defaults written : List (String × Document)) (state : σ)
    (P : σ → Prop) : Prop :=
  ∀ told, RetoldMembers shape defaults written told →
    ∃ last, shape.fillNamed state told = .ok last ∧ P last

namespace Leads

variable {P : σ → Prop} {required : Bool} {decode : Decoder β} {get : σ → Option β}
  {set : σ → β → σ} {value : β}

theorem nil (h : P state) : Leads shape defaults [] state P :=
  fun _ hretold => ⟨state, hretold.fillNamed_nil state, h⟩

/-- A member that is no default is told. -/
theorem needed (hfind : shape.fields.find? (·.name = name) =
      some (.of name required decode get set)) (hneeded : defaults.lookup name = none)
    (hdecode : decode document = .ok value) (hnew : get state = none)
    (h : Leads shape defaults written (set state value) P) :
    Leads shape defaults ((name, document) :: written) state P := by
  intro told hretold
  obtain ⟨rest, hrest, hfirst | ⟨hdefault, -⟩⟩ := hretold.first
  · rw [hfirst, Shape.fillNamed_cons hfind (by simp [Field.of, hnew]) (Shape.fill_of hdecode)]
    exact h rest hrest
  · rw [hneeded] at hdefault
    cases hdefault

/-- A member that may be left out is told, or its value is what a missing one stands for. `fill` is
`state` with what is given for the field. -/
theorem defaulted (hfind : shape.fields.find? (·.name = name) =
      some (.of name required decode get set)) {standard : Document}
    (hlookup : defaults.lookup name = some standard) (fallback : β)
    (hstandard : decode standard = .ok fallback) (hdecode : decode document = .ok value)
    (hnew : get state = none) (fill : Option β → σ) (hnone : fill none = state)
    (hsome : fill (some value) = set state value)
    (h : ∀ given, given.getD fallback = value → Leads shape defaults written (fill given) P) :
    Leads shape defaults ((name, document) :: written) state P := by
  intro told hretold
  obtain ⟨rest, hrest, hfirst | ⟨hdefault, hfirst⟩⟩ := hretold.first
  · rw [hfirst, Shape.fillNamed_cons hfind (by simp [Field.of, hnew]) (Shape.fill_of hdecode),
      ← hsome]
    exact h (some value) rfl rest hrest
  · obtain rfl := Option.some.inj (hlookup.symm.trans hdefault)
    obtain rfl := Except.ok.inj (hstandard.symm.trans hdecode)
    rw [hfirst, ← hnone]
    exact h none rfl rest hrest

end Leads

theorem Document.ofMembers_injective {members others : List (String × Document)}
    (h : Document.ofMembers members = .ofMembers others) : members = others := by
  refine (List.map_inj_right fun member other heq => ?_).mp (Document.object.inj h).1
  cases member
  cases other
  cases heq
  rfl

/-- It is enough to follow the members to a state from which the value is made. -/
theorem survives_of_leads {write : α → Document} {members : α → List (String × Document)}
    {ofDraft : σ → α} (hoptional : (shape.fields.filter fun field => !field.required).map
      Field.name = defaults.map Prod.fst)
    (hwrite : ∀ value, write value = .ofMembers (members value))
    (hwhole : ∀ value, (write value).Whole)
    (hleads : ∀ value, Leads shape defaults (members value) shape.start fun last =>
      shape.requireFields last = .ok last ∧ ofDraft last = value) :
    Survives shape defaults write fun document => (shape.decode document).map ofDraft := by
  have hdecode : ∀ value told, RetoldMembers shape defaults (members value) told →
      (shape.decode (.ofMembers told)).map ofDraft = .ok value := by
    intro value told hretold
    obtain ⟨last, hlast, hcomplete, hvalue⟩ := hleads value told hretold
    rw [Shape.decode_ofMembers hlast, hcomplete, ← hvalue]
    rfl
  refine ⟨hoptional, fun value => ?_, fun value told hretold s hs => ?_⟩
  · refine (hwhole value).spells_text.decodeText_eq ?_
    rw [hwrite]
    exact hdecode value _ (.refl _)
  · obtain ⟨written, others, hwritten, rfl, hretold⟩ := hretold
    obtain rfl := Document.ofMembers_injective ((hwrite value).symm.trans hwritten)
    exact hs.decodeText_eq (hdecode value others hretold)

end PluginHost.Json
