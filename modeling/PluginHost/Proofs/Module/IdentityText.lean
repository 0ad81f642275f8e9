import PluginHost.Module.Identity
import PluginHost.Proofs.Outcome
import PluginHost.Proofs.Text

/-!
The text of an identity determines it. An identity that can be read back is a plain one: its name
has the form of a name, and its culture is trimmed, not neutral, and free of commas. Exactly the
plain identities are those that some text is read as, and their own text is such a text.
-/

namespace PluginHost

/-! Versions. -/

namespace Version

theorem toList_text (v : Version) :
    v.text.toList =
      Text.Numeral.print v.major.toNat ++ '.' :: Text.Numeral.print v.minor.toNat ++
        '.' :: Text.Numeral.print v.build.toNat ++ '.' :: Text.Numeral.print v.revision.toNat := by
  simp [text, fields, List.intercalate]

theorem mem_text {v : Version} {c : Char} (h : c ∈ v.text.toList) :
    c.isDigit = true ∨ c = '.' := by
  rw [toList_text] at h
  simp only [List.mem_append, List.mem_cons] at h
  rcases h with ((h | h | h) | h | h) | h | h
  all_goals first
    | exact Or.inr h
    | exact Or.inl (Text.Numeral.isDigit_of_mem_print h)

theorem isBlank_of_mem_text {v : Version} {c : Char} (h : c ∈ v.text.toList) :
    Text.isBlank c = false := by
  rcases mem_text h with h | rfl
  · exact Text.isBlank_of_isDigit h
  · decide

theorem trim_text (v : Version) : Text.trim v.text.toList = v.text.toList := by
  apply Text.trim_eq_self
  constructor
  · intro c hc
    exact isBlank_of_mem_text (List.mem_of_head? hc)
  · intro c hc
    exact isBlank_of_mem_text (List.mem_of_getLast? hc)

theorem not_mem_print {c : Char} (h : c.isDigit = false) (n : Nat) :
    c ∉ Text.Numeral.print n := by
  intro hmem
  simp [Text.Numeral.isDigit_of_mem_print hmem] at h

theorem field?_print (n : UInt32) : field? (Text.Numeral.print n.toNat) = some n := by
  have hplus : (Text.Numeral.print n.toNat).head? ≠ some '+' := by
    intro hhead
    exact not_mem_print (by decide) n.toNat (List.mem_of_head? hhead)
  have hlt : n.toNat < 2 ^ 32 := n.toNat_lt
  simp [field?, hplus]
  simpa using hlt

theorem fields_text (v : Version) :
    Text.fields '.' v.text.toList = v.fields.map fun n => Text.Numeral.print n.toNat := by
  have hdot : ∀ n, '.' ∉ Text.Numeral.print n := not_mem_print (by decide)
  rw [toList_text]
  simp only [List.append_assoc, List.cons_append]
  rw [Text.fields_append (hdot _), Text.fields_append (hdot _), Text.fields_append (hdot _),
    Text.fields_of_not_mem (hdot _)]
  rfl

theorem read_text (v : Version) : read v.text.toList = .ok v := by
  rw [read, trim_text, fields_text]
  simp [fields, field?_print, ofFields]

@[simp] theorem parse_text (v : Version) : parse v.text = .ok v := by
  rw [parse, read_text]
  rfl

end Version

namespace Identity

/-- An identity that its own text is read back as. -/
structure Plain (identity : Identity) : Prop where
  name : isName identity.name.toList = true
  culture : ∀ culture, identity.culture = some culture →
    ',' ∉ culture.toList ∧ cultureOf culture.toList = some culture

/-- An identity that some text is read as. -/
def Readable (identity : Identity) : Prop :=
  ∃ s, parse s = .ok identity

/-! Names and cultures in a text. -/

theorem le_of_isAlphanum {c : Char} (h : c.isAlphanum = true) : 48 ≤ c.toNat ∧ c.toNat ≤ 122 := by
  change ((decide ('A'.val ≤ c.val ∧ c.val ≤ 'Z'.val) ||
    (decide ('a'.val ≤ c.val) && decide (c.val ≤ 'z'.val))) ||
      (decide ('0'.val ≤ c.val) && decide (c.val ≤ '9'.val))) = true at h
  simp only [Bool.or_eq_true, Bool.and_eq_true, decide_eq_true_eq, UInt32.le_iff_toNat_le] at h
  change ((65 ≤ c.toNat ∧ c.toNat ≤ 90) ∨ (97 ≤ c.toNat ∧ c.toNat ≤ 122)) ∨
    (48 ≤ c.toNat ∧ c.toNat ≤ 57) at h
  omega

theorem of_continuesName {c : Char} (h : continuesName c = true) :
    Text.isBlank c = false ∧ c ≠ ',' := by
  constructor
  · simp only [continuesName, startsName, Bool.or_eq_true, beq_iff_eq] at h
    rcases h with ((h | rfl) | rfl) | rfl
    · obtain ⟨hlow, hhigh⟩ := le_of_isAlphanum h
      exact Text.isBlank_of_between (by omega) (by omega)
    all_goals decide
  · rintro rfl
    exact absurd h (by decide)

theorem continuesName_of_mem {s : List Char} (h : isName s = true) {c : Char} (hc : c ∈ s) :
    continuesName c = true := by
  cases s with
  | nil => simp at hc
  | cons first rest =>
      simp only [isName, Bool.and_eq_true] at h
      rcases List.mem_cons.mp hc with rfl | hrest
      · simp [continuesName, h.1]
      · exact List.all_eq_true.mp h.2 c hrest

theorem not_mem_name {s : List Char} (h : isName s = true) : ',' ∉ s := by
  intro hmem
  exact (of_continuesName (continuesName_of_mem h hmem)).2 rfl

theorem trim_name {s : List Char} (h : isName s = true) : Text.trim s = s := by
  apply Text.trim_eq_self
  constructor
  · intro c hc
    exact (of_continuesName (continuesName_of_mem h (List.mem_of_head? hc))).1
  · intro c hc
    exact (of_continuesName (continuesName_of_mem h (List.mem_of_getLast? hc))).1

theorem cultureOf_eq_some {s : List Char} {culture : String} (h : cultureOf s = some culture) :
    culture.toList = Text.trim s ∧ culture.toList ≠ [] := by
  simp only [cultureOf] at h
  split at h
  · simp at h
  · rename_i hkept
    simp only [Option.some.injEq] at h
    subst h
    simp only [not_or] at hkept
    simpa using hkept.1

theorem cultureOf_toList {s : List Char} {culture : String} (h : cultureOf s = some culture) :
    cultureOf culture.toList = some culture := by
  have htrim : culture.toList = Text.trim s := (cultureOf_eq_some h).1
  have hsame : cultureOf culture.toList = cultureOf s := by
    simp only [cultureOf, htrim, Text.trim_trim]
  rw [hsame, h]

theorem cultureOf_neutral : cultureOf "neutral".toList = none := by
  decide

theorem Plain.cultureOf_getD {identity : Identity} (h : identity.Plain) :
    cultureOf (identity.culture.getD "neutral").toList = identity.culture := by
  cases hculture : identity.culture with
  | none => exact cultureOf_neutral
  | some culture => exact (h.culture culture hculture).2

theorem Plain.trim_culture {identity : Identity} (h : identity.Plain) :
    Text.trim (identity.culture.getD "neutral").toList =
      (identity.culture.getD "neutral").toList := by
  cases hculture : identity.culture with
  | none => decide
  | some culture => exact (cultureOf_eq_some (h.culture culture hculture).2).1.symm

theorem Plain.not_mem_culture {identity : Identity} (h : identity.Plain) :
    ',' ∉ (identity.culture.getD "neutral").toList := by
  cases hculture : identity.culture with
  | none => decide
  | some culture => exact (h.culture culture hculture).1

theorem mem_keyPart {identity : Identity} {c : Char} (h : c ∈ identity.keyPart.toList) :
    Text.isBlank c = false ∧ c ≠ ',' := by
  cases hkey : identity.publicKey with
  | none =>
      have hall : ∀ d ∈ "null".toList, Text.isBlank d = false ∧ d ≠ ',' := by
        simp [Text.isBlank]
      exact hall c (by simpa [keyPart, hkey] using h)
  | some key => exact Text.Hex.mem_encode (by simpa [keyPart, hkey] using h)

/-! The parts of a text, as they are read. -/

/-- A part of a text: a key and its value. -/
def part (key : String) (value : List Char) : List Char :=
  key.toList ++ '=' :: value

theorem assignParts_part {whole : String} {identity next : Identity} {key : String}
    {value : List Char} (hkey : '=' ∉ key.toList)
    (h : assign whole identity key.toList value = .ok next) (rest : List (List Char)) :
    assignParts whole identity (part key value :: rest) = assignParts whole next rest := by
  rw [assignParts, part, Text.cut_append hkey]
  simp only [h]
  rfl

theorem assign_version (whole : String) (identity : Identity) (version : Version) :
    assign whole identity "Version".toList version.text.toList =
      .ok { identity with version := some version } := by
  have hkey : Text.lower (Text.trim "Version".toList) = "version".toList := by decide
  simp only [assign]
  rw [hkey, if_pos rfl, Version.trim_text, String.ofList_toList, Version.parse_text]
  rfl

theorem assign_culture (whole : String) (identity : Identity) {value : List Char}
    (htrim : Text.trim value = value) :
    assign whole identity "Culture".toList value =
      .ok { identity with culture := cultureOf value } := by
  have hkey : Text.lower (Text.trim "Culture".toList) = "culture".toList := by decide
  have hversion : "culture".toList ≠ "version".toList := by decide
  simp only [assign]
  rw [hkey, if_neg hversion, if_pos rfl, htrim]

theorem lower_encode_ne_null (key : Octets) :
    Text.lower (Text.Hex.encode key) ≠ "null".toList := by
  intro hnull
  cases key with
  | nil => exact absurd hnull (by decide)
  | cons b rest =>
      have hdigits : ∀ k : Fin 16, (Text.Hex.digit k).toLower ≠ 'n' := by decide
      have hhead := congrArg List.head? hnull
      simp only [Text.lower, Text.Hex.encode, List.flatMap_cons, List.cons_append, List.map_cons,
        List.head?_cons] at hhead
      exact hdigits ⟨b.toNat / 16, Text.Hex.div_lt_sixteen b⟩ (Option.some.inj hhead)

theorem trim_keyPart (identity : Identity) :
    Text.trim identity.keyPart.toList = identity.keyPart.toList := by
  apply Text.trim_eq_self
  constructor
  · intro c hc
    exact (mem_keyPart (List.mem_of_head? hc)).1
  · intro c hc
    exact (mem_keyPart (List.mem_of_getLast? hc)).1

theorem assign_key (whole : String) (identity source : Identity) :
    assign whole identity "PublicKey".toList source.keyPart.toList =
      .ok { identity with publicKey := source.publicKey } := by
  have hkey : Text.lower (Text.trim "PublicKey".toList) = "publickey".toList := by decide
  have hversion : "publickey".toList ≠ "version".toList := by decide
  have hculture : "publickey".toList ≠ "culture".toList := by decide
  simp only [assign]
  rw [hkey, if_neg hversion, if_neg hculture, if_pos rfl, trim_keyPart]
  cases hpublic : source.publicKey with
  | none =>
      have hnull : Text.lower source.keyPart.toList = "null".toList := by
        simp only [keyPart, hpublic]
        decide
      rw [if_pos hnull]
  | some key =>
      have hencode : source.keyPart.toList = Text.Hex.encode key := by
        simp [keyPart, hpublic]
      rw [hencode, if_neg (lower_encode_ne_null key), Text.Hex.decode_encode]

/-! The parts of the text of a plain identity. -/

def versionParts (identity : Identity) : List (List Char) :=
  match identity.version with
  | some version => [part "Version" version.text.toList]
  | none => []

def culturePart (identity : Identity) : List Char :=
  part "Culture" (identity.culture.getD "neutral").toList

theorem toList_text (identity : Identity) :
    identity.text.toList =
      identity.name.toList ++
        (identity.versionParts ++
          [identity.culturePart, part "PublicKey" identity.keyPart.toList]).flatMap
            fun piece => ',' :: ' ' :: piece := by
  cases hversion : identity.version with
  | none =>
      simp only [text, versionPart, versionParts, hversion, String.toList_append, culturePart, part]
      simp
  | some version =>
      simp only [text, versionPart, versionParts, hversion, String.toList_append, culturePart, part]
      simp

theorem fields_text {name : List Char} (hname : ',' ∉ name) {pieces : List (List Char)}
    (h : ∀ piece ∈ pieces, ',' ∉ piece) :
    Text.fields ',' (name ++ pieces.flatMap fun piece => ',' :: ' ' :: piece) =
      name :: pieces.map (' ' :: ·) := by
  induction pieces generalizing name with
  | nil => simpa using Text.fields_of_not_mem hname
  | cons piece rest ih =>
      have hpiece : ',' ∉ ' ' :: piece := by simp [h piece]
      have hrest : ∀ other ∈ rest, ',' ∉ other := fun other hother => h other (by simp [hother])
      have htail := ih hpiece hrest
      simp only [List.flatMap_cons, List.cons_append, List.map_cons]
      rw [Text.fields_append hname, ← List.cons_append, htail]

theorem trim_part {key : String} {value : List Char} (hkey : Text.Trimmed key.toList)
    (hne : key.toList ≠ []) (h : Text.trim value = value) :
    Text.trim (part key value) = part key value := by
  apply Text.trim_eq_self
  apply Text.trimmed_append hne (by simp) hkey.1
  intro c hc
  cases value with
  | nil =>
      have hmark : '=' = c := by simpa using hc
      subst hmark
      decide
  | cons d rest =>
      have hlast : (d :: rest).getLast? = some c := by simpa using hc
      rw [← h] at hlast
      exact (Text.trimmed_trim (d :: rest)).2 c hlast

theorem Plain.parts {identity : Identity} (h : identity.Plain) :
    ∀ piece ∈ identity.versionParts ++
        [identity.culturePart, part "PublicKey" identity.keyPart.toList],
      ',' ∉ piece ∧ Text.trim piece = piece := by
  intro piece hpiece
  simp only [List.mem_append, List.mem_cons, List.not_mem_nil, or_false] at hpiece
  rcases hpiece with hversion | rfl | rfl
  · cases hv : identity.version with
    | none => simp [versionParts, hv] at hversion
    | some version =>
        simp only [versionParts, hv, List.mem_singleton] at hversion
        subst hversion
        constructor
        · have hcomma : ',' ∉ version.text.toList := by
            intro hmem
            rcases Version.mem_text hmem with hdigit | hdot
            · exact absurd hdigit (by decide)
            · exact absurd hdot (by decide)
          simp [part, hcomma]
        · exact trim_part (by constructor <;> simp [Text.isBlank]) (by decide)
            (Version.trim_text version)
  · constructor
    · simp [culturePart, part, h.not_mem_culture]
    · exact trim_part (by constructor <;> simp [Text.isBlank]) (by decide) h.trim_culture
  · constructor
    · have hcomma : ',' ∉ identity.keyPart.toList := fun hmem => (mem_keyPart hmem).2 rfl
      simp [part, hcomma]
    · exact trim_part (by constructor <;> simp [Text.isBlank]) (by decide) (trim_keyPart identity)

theorem assignParts_versionParts (whole : String) (identity source : Identity)
    (hversion : identity.version = none) (rest : List (List Char)) :
    assignParts whole identity (source.versionParts ++ rest) =
      assignParts whole { identity with version := source.version } rest := by
  cases hv : source.version with
  | none =>
      simp only [versionParts, hv, List.nil_append]
      rw [← hversion]
  | some version =>
      simp only [versionParts, hv, List.cons_append, List.nil_append]
      exact assignParts_part (by decide) (assign_version whole identity version) rest

theorem Plain.parse_text {identity : Identity} (h : identity.Plain) :
    parse identity.text = .ok identity := by
  have hpieces := h.parts
  have htrim : (Text.fields ',' identity.text.toList).map Text.trim =
      identity.name.toList :: (identity.versionParts ++
        [identity.culturePart, part "PublicKey" identity.keyPart.toList]) := by
    rw [toList_text, fields_text (not_mem_name h.name) fun piece hp => (hpieces piece hp).1]
    simp only [List.map_cons, List.map_map, trim_name h.name]
    congr 1
    refine (List.map_congr_left fun piece hpiece => ?_).trans (List.map_id _)
    have hblank : Text.trim (' ' :: piece) = Text.trim piece :=
      Text.trim_cons_of_isBlank (by decide) piece
    simp only [Function.comp_apply, hblank, (hpieces piece hpiece).2, id]
  have hname : named (String.ofList identity.name.toList) = named identity.name := by simp
  rw [parse, htrim]
  simp only [List.head?_cons, Option.getD_some, h.name, if_true, List.tail_cons, hname]
  rw [assignParts_versionParts _ _ _ rfl, culturePart,
    assignParts_part (by decide) (assign_culture _ _ h.trim_culture),
    assignParts_part (by decide) (assign_key _ _ identity), assignParts, h.cultureOf_getD]
  rfl

/-! What is read is plain. -/

theorem assign_plain {whole : String} {identity next : Identity} {key value : List Char}
    (h : assign whole identity key value = .ok next) (hvalue : ',' ∉ value)
    (hplain : identity.Plain) : next.Plain := by
  simp only [assign] at h
  split at h
  · cases hparse : Version.parse (String.ofList (Text.trim value)) with
    | error failure => simp [hparse, Except.map] at h
    | ok version =>
        simp only [hparse, Except.map, Except.ok.injEq] at h
        subst h
        exact ⟨hplain.name, hplain.culture⟩
  · split at h
    · simp only [Except.ok.injEq] at h
      subst h
      refine ⟨hplain.name, fun culture hculture => ⟨?_, cultureOf_toList hculture⟩⟩
      rw [(cultureOf_eq_some hculture).1]
      intro hmem
      exact hvalue (Text.mem_of_mem_trim (Text.mem_of_mem_trim hmem))
    · split at h
      · split at h
        · simp only [Except.ok.injEq] at h
          subst h
          exact ⟨hplain.name, hplain.culture⟩
        · split at h
          · simp only [Except.ok.injEq] at h
            subst h
            exact ⟨hplain.name, hplain.culture⟩
          · simp at h
      · simp at h

theorem assignParts_plain {whole : String} {identity next : Identity}
    {parts : List (List Char)} (h : assignParts whole identity parts = .ok next)
    (hparts : ∀ piece ∈ parts, ',' ∉ piece) (hplain : identity.Plain) : next.Plain := by
  induction parts generalizing identity with
  | nil =>
      simp only [assignParts, Except.ok.injEq] at h
      exact h ▸ hplain
  | cons piece rest ih =>
      rw [assignParts] at h
      cases hcut : Text.cut '=' piece with
      | none => simp [hcut] at h
      | some pair =>
          obtain ⟨key, value⟩ := pair
          simp only [hcut] at h
          obtain ⟨between, hassign, h⟩ := bind_eq_ok.mp h
          have hvalue : ',' ∉ value := by
            intro hmem
            apply hparts piece (by simp)
            rw [(Text.cut_sound hcut).1]
            simp [hmem]
          exact ih h (fun other hother => hparts other (by simp [hother]))
            (assign_plain hassign hvalue hplain)

theorem plain_of_parse {s : String} {identity : Identity} (h : parse s = .ok identity) :
    identity.Plain := by
  simp only [parse] at h
  split at h
  · rename_i hname
    refine assignParts_plain h ?_ ⟨by simpa [named] using hname, by simp [named]⟩
    intro piece hpiece hmem
    obtain ⟨field, hfield, rfl⟩ := List.mem_map.mp (List.mem_of_mem_tail hpiece)
    exact Text.not_mem_of_mem_fields hfield (Text.mem_of_mem_trim hmem)
  · simp at h

/-- The plain identities are those that can be read. -/
theorem readable_iff_plain {identity : Identity} : identity.Readable ↔ identity.Plain := by
  constructor
  · rintro ⟨s, h⟩
    exact plain_of_parse h
  · intro h
    exact ⟨identity.text, h.parse_text⟩

/-- Two identities that can be read are told apart by their texts. -/
theorem Readable.eq_of_text {a b : Identity} (ha : a.Readable) (hb : b.Readable)
    (h : a.text = b.text) : a = b := by
  have hparse := (readable_iff_plain.mp ha).parse_text
  rw [h, (readable_iff_plain.mp hb).parse_text] at hparse
  exact (Except.ok.inj hparse).symm

/-! What plain identities look like. -/

/-- It has the name of a module, and a culture that can stand between commas: it is not empty, has no
blanks at its ends and no comma, and does not stand for none. -/
structure Proper (identity : Identity) : Prop where
  name : isName identity.name.toList = true
  culture : ∀ culture, identity.culture = some culture →
    culture ≠ "" ∧ Text.Trimmed culture.toList ∧ ',' ∉ culture.toList ∧
      ¬ Text.SameLetters culture "neutral"

theorem cultureOf_eq_self_iff {culture : String} :
    cultureOf culture.toList = some culture ↔
      culture ≠ "" ∧ Text.Trimmed culture.toList ∧ ¬ Text.SameLetters culture "neutral" := by
  have hneutral : Text.lower "neutral".toList = "neutral".toList := by decide
  have hempty : culture = "" ↔ culture.toList = [] := String.toList_eq_nil_iff.symm
  constructor
  · intro h
    obtain ⟨htrim, hne⟩ := cultureOf_eq_some h
    refine ⟨fun hnil => hne (hempty.mp hnil), htrim ▸ Text.trimmed_trim _, fun hsame => ?_⟩
    have hlower : Text.lower culture.toList = "neutral".toList := Eq.trans hsame hneutral
    simp [cultureOf, ← htrim, hlower] at h
  · rintro ⟨hne, htrimmed, hother⟩
    have hkept : ¬ (culture.toList = [] ∨ Text.lower culture.toList = "neutral".toList) := by
      rintro (hnil | hlower)
      · exact hne (hempty.mpr hnil)
      · exact hother (Eq.trans hlower hneutral.symm)
    rw [cultureOf, Text.trim_eq_self htrimmed, if_neg hkept, String.ofList_toList]

theorem plain_iff_proper {identity : Identity} : identity.Plain ↔ identity.Proper := by
  constructor
  · intro h
    refine ⟨h.name, fun culture hculture => ?_⟩
    obtain ⟨hcomma, hself⟩ := h.culture culture hculture
    obtain ⟨hne, htrimmed, hother⟩ := cultureOf_eq_self_iff.mp hself
    exact ⟨hne, htrimmed, hcomma, hother⟩
  · intro h
    refine ⟨h.name, fun culture hculture => ?_⟩
    obtain ⟨hne, htrimmed, hcomma, hother⟩ := h.culture culture hculture
    exact ⟨hcomma, cultureOf_eq_self_iff.mpr ⟨hne, htrimmed, hother⟩⟩

/-- The text of an identity is read back as this identity exactly if it is a proper one. All that is
read is proper, so no two identities that are read have one text, and what is read from some text is
also read from the text that it is written as. -/
theorem text_faithful :
    (∀ identity : Identity, parse identity.text = .ok identity ↔ identity.Proper) ∧
    (∀ s identity, parse s = .ok identity → identity.Proper) ∧
    (∀ s t a b, parse s = .ok a → parse t = .ok b → a.text = b.text → a = b) ∧
    ∀ s identity, parse s = .ok identity → parse identity.text = .ok identity := by
  have hproper : ∀ s identity, parse s = .ok identity → identity.Proper :=
    fun s identity h => plain_iff_proper.mp (plain_of_parse h)
  refine ⟨fun identity => ⟨hproper _ _, fun h => ?_⟩, hproper, fun s t a b ha hb htext => ?_,
    fun s identity h => (plain_of_parse h).parse_text⟩
  · exact (plain_iff_proper.mpr h).parse_text
  · exact Readable.eq_of_text ⟨s, ha⟩ ⟨t, hb⟩ htext

/-- A culture may have blanks, equals signs and letters of any kind inside, and a key may be empty.
A culture with a comma is read as further parts. -/
example : (parse (text ⟨"Fine.Ink", none, some "de =AT", some []⟩)).toOption =
      some ⟨"Fine.Ink", none, some "de =AT", some []⟩ ∧
    (parse (text ⟨"Ink", none, some "de, Version=9", none⟩)).toOption =
      some ⟨"Ink", some ⟨9, 0, 0, 0⟩, some "de", none⟩ := by
  decide +kernel

end Identity

end PluginHost
