import Mathlib.Logic.Relation
import PluginHost.Proofs.Module.IdentityText
import PluginHost.Proofs.Module.VersionText

/-!
The grammar of identities. A text is cut at its commas: in front stands the name, a word, and each
further part is a field, a key with its value. The text is read exactly if all its parts are well
formed, and then each key has the value that stands last. So it does not matter in which order parts
with different keys stand, in which letter case a key is written, or where blanks are added.
-/

namespace PluginHost.Identity

/-! The name. -/

/-- A word of letters, digits, underscores, dots and hyphens that begins with neither a dot nor a
hyphen. -/
structure IsWord (name : List Char) : Prop where
  nonempty : name ≠ []
  letters : ∀ c ∈ name, continuesName c = true
  dot : name.head? ≠ some '.'
  hyphen : name.head? ≠ some '-'

theorem startsName_iff {c : Char} :
    startsName c = true ↔ continuesName c = true ∧ c ≠ '.' ∧ c ≠ '-' := by
  constructor
  · intro h
    refine ⟨by simp [continuesName, h], ?_, ?_⟩
    all_goals
      rintro rfl
      exact absurd h (by decide)
  · rintro ⟨h, hdot, hhyphen⟩
    simpa [continuesName, hdot, hhyphen] using h

theorem isName_iff_isWord {name : List Char} : isName name = true ↔ IsWord name := by
  cases name with
  | nil => exact ⟨fun h => by simp [isName] at h, fun h => absurd rfl h.nonempty⟩
  | cons c rest =>
      rw [isName, Bool.and_eq_true, startsName_iff, List.all_eq_true]
      constructor
      · rintro ⟨⟨hc, hdot, hhyphen⟩, hrest⟩
        exact ⟨by simp, List.forall_mem_cons.mpr ⟨hc, hrest⟩, by simpa using hdot,
          by simpa using hhyphen⟩
      · intro h
        obtain ⟨hc, hrest⟩ := List.forall_mem_cons.mp h.letters
        exact ⟨⟨hc, by simpa using h.dot, by simpa using h.hyphen⟩, hrest⟩

/-! The fields. -/

/-- The key of a field, in lower case, and its value, cut at the first equals sign. -/
def pair? (part : List Char) : Option (List Char × List Char) :=
  (Text.cut '=' part).map fun (key, value) => (Text.lower (Text.trim key), Text.trim value)

def key? (part : List Char) : Option (List Char) :=
  (pair? part).map Prod.fst

/-- The values that each key may have; there are no other keys. -/
def Admits (key value : List Char) : Prop :=
  (key = "version".toList ∧ ∃ version, Version.Spells value version) ∨
    key = "culture".toList ∨
    key = "publickey".toList ∧
      (Text.lower value = "null".toList ∨
        value.length % 2 = 0 ∧ ∀ c ∈ value, Text.Hex.isDigit c = true)

def IsField (part : List Char) : Prop :=
  ∃ key value, pair? part = some (key, value) ∧ Admits key value

/-- The values that are given for a key, in order. -/
def valuesOf (key : String) (parts : List (List Char)) : List (List Char) :=
  parts.filterMap fun part => (pair? part).bind fun pair =>
    if pair.1 = key.toList then some pair.2 else none

def versionOf (value : List Char) : Option Version :=
  (Version.parse (String.ofList value)).toOption

def keyOf (value : List Char) : Option Octets :=
  if Text.lower value = "null".toList then none else (Text.Hex.decode value).toOption

/-- The identity of a name and fields: of each key the last value, and nothing if there is none. -/
def declared (name : List Char) (parts : List (List Char)) : Identity where
  name := String.ofList name
  version := (valuesOf "version" parts).getLast?.bind versionOf
  culture := (valuesOf "culture" parts).getLast?.bind cultureOf
  publicKey := (valuesOf "publickey" parts).getLast?.bind keyOf

/-- The pieces between the commas of a text are well formed, and declare the identity. -/
def Reads (pieces : List (List Char)) (identity : Identity) : Prop :=
  ∃ name parts, pieces.map Text.trim = name :: parts ∧ IsWord name ∧
    (∀ part ∈ parts, IsField part) ∧ identity = declared name parts

/-! One field after the other. -/

/-- The identity after one more field. -/
def put (identity : Identity) (key value : List Char) : Identity where
  name := identity.name
  version := if key = "version".toList then versionOf value else identity.version
  culture := if key = "culture".toList then cultureOf value else identity.culture
  publicKey := if key = "publickey".toList then keyOf value else identity.publicKey

/-- The identity after more fields: the last values that they give, or else those that it had. -/
def overlay (identity : Identity) (parts : List (List Char)) : Identity where
  name := identity.name
  version := ((valuesOf "version" parts).getLast?.map versionOf).getD identity.version
  culture := ((valuesOf "culture" parts).getLast?.map cultureOf).getD identity.culture
  publicKey := ((valuesOf "publickey" parts).getLast?.map keyOf).getD identity.publicKey

theorem valuesOf_cons {part key value : List Char} (h : pair? part = some (key, value))
    (wanted : String) (rest : List (List Char)) :
    valuesOf wanted (part :: rest) =
      if key = wanted.toList then value :: valuesOf wanted rest else valuesOf wanted rest := by
  rw [valuesOf, List.filterMap_cons, h, Option.bind_some, ← valuesOf]
  split <;> simp_all

theorem last_valuesOf_cons {part key value : List Char} (h : pair? part = some (key, value))
    {α : Type} (wanted : String) (rest : List (List Char)) (meaning : List Char → α) (before : α) :
    ((valuesOf wanted (part :: rest)).getLast?.map meaning).getD before =
      ((valuesOf wanted rest).getLast?.map meaning).getD
        (if key = wanted.toList then meaning value else before) := by
  rw [valuesOf_cons h]
  split
  · rw [List.getLast?_cons]
    cases (valuesOf wanted rest).getLast? <;> rfl
  · rfl

theorem overlay_cons {part key value : List Char} (h : pair? part = some (key, value))
    (identity : Identity) (rest : List (List Char)) :
    identity.overlay (part :: rest) = (identity.put key value).overlay rest := by
  simp only [overlay, last_valuesOf_cons h, put]

theorem overlay_named (name : List Char) (parts : List (List Char)) :
    (named (String.ofList name)).overlay parts = declared name parts := by
  have hlast : ∀ {α β : Type} (last : Option α) (f : α → Option β),
      (last.map f).getD none = last.bind f := fun last f => by
    cases last <;> rfl
  simp only [overlay, named, declared, hlast]

theorem assign_version_iff {identity next : Identity} {value : List Char} :
    (Version.parse (String.ofList value)).map
        (fun version => { identity with version := some version }) = .ok next ↔
      (∃ version, Version.Spells value version) ∧
        next = { identity with version := versionOf value } := by
  have hspells : ∀ version,
      Version.parse (String.ofList value) = .ok version ↔ Version.Spells value version :=
    fun version => by rw [Version.parse_iff_spells, String.toList_ofList]
  simp only [← hspells, versionOf]
  cases Version.parse (String.ofList value) with
  | error failure => simp [Except.map]
  | ok version => simp [Except.map, Except.toOption, eq_comm]

theorem assign_key_iff {whole : String} {identity next : Identity} {value : List Char} :
    (if Text.lower value = "null".toList then .ok { identity with publicKey := none }
      else
        match Text.Hex.decode value with
        | .ok octets => .ok { identity with publicKey := some octets }
        | .error fault =>
            .error (Failure.invalidIdentity whole (Fault.badKey fault).message)) =
        Except.ok next ↔
      (Text.lower value = "null".toList ∨
        value.length % 2 = 0 ∧ ∀ c ∈ value, Text.Hex.isDigit c = true) ∧
        next = { identity with publicKey := keyOf value } := by
  rw [← Text.Hex.decode_isOk, keyOf]
  by_cases hnull : Text.lower value = "null".toList
  · simp only [hnull, if_true, true_or, true_and, Except.ok.injEq]
    exact eq_comm
  · simp only [hnull, if_false, false_or]
    cases Text.Hex.decode value with
    | error fault => simp
    | ok octets => simp [Except.toOption, eq_comm]

/-- A field is taken over exactly if it is well formed. -/
theorem assign_iff {whole : String} {identity next : Identity} {key value : List Char} :
    assign whole identity key value = .ok next ↔
      Admits (Text.lower (Text.trim key)) (Text.trim value) ∧
        next = identity.put (Text.lower (Text.trim key)) (Text.trim value) := by
  have hculture : "culture".toList ≠ "version".toList := by decide
  have hpublic : "publickey".toList ≠ "version".toList := by decide
  have hother : "publickey".toList ≠ "culture".toList := by decide
  simp only [assign, Admits, put]
  generalize Text.lower (Text.trim key) = key
  generalize Text.trim value = value
  by_cases hversion : key = "version".toList
  · subst hversion
    simp only [if_true, true_and, hculture.symm, hpublic.symm, false_and, or_false, if_false]
    exact assign_version_iff
  · by_cases hcul : key = "culture".toList
    · subst hcul
      simp only [hculture, hother.symm, if_true, if_false, false_and, false_or, or_false, true_and,
        Except.ok.injEq]
      exact eq_comm
    · by_cases hkey : key = "publickey".toList
      · subst hkey
        simp only [if_true, true_and, hpublic, hother, false_and, false_or, if_false]
        exact assign_key_iff
      · simp only [hversion, hcul, hkey, if_false, false_and, or_false, reduceCtorEq]

theorem assignParts_iff {whole : String} {identity next : Identity} {parts : List (List Char)} :
    assignParts whole identity parts = .ok next ↔
      (∀ part ∈ parts, IsField part) ∧ next = identity.overlay parts := by
  induction parts generalizing identity with
  | nil =>
      have hnone : identity.overlay [] = identity := rfl
      simp [assignParts, hnone, eq_comm]
  | cons part rest ih =>
      rw [assignParts, List.forall_mem_cons]
      cases hcut : Text.cut '=' part with
      | none => simp [IsField, pair?, hcut]
      | some pair =>
          obtain ⟨key, value⟩ := pair
          have hpair : pair? part = some (Text.lower (Text.trim key), Text.trim value) := by
            simp [pair?, hcut]
          have hfield : IsField part ↔
              Admits (Text.lower (Text.trim key)) (Text.trim value) := by
            simp [IsField, hpair]
          rw [overlay_cons hpair, hfield]
          simp only
          constructor
          · intro h
            obtain ⟨between, hassign, h⟩ := bind_eq_ok.mp h
            obtain ⟨hadmits, rfl⟩ := assign_iff.mp hassign
            obtain ⟨hrest, hnext⟩ := ih.mp h
            exact ⟨⟨hadmits, hrest⟩, hnext⟩
          · rintro ⟨⟨hadmits, hrest⟩, hnext⟩
            exact bind_eq_ok.mpr ⟨_, assign_iff.mpr ⟨hadmits, rfl⟩, ih.mpr ⟨hrest, hnext⟩⟩

theorem parse_iff_reads {s : String} {identity : Identity} :
    parse s = .ok identity ↔ Reads (Text.fields ',' s.toList) identity := by
  rw [parse, Reads]
  cases (Text.fields ',' s.toList).map Text.trim with
  | nil => simp [isName]
  | cons name parts =>
      simp only [List.head?_cons, Option.getD_some, List.tail_cons, List.cons.injEq]
      by_cases hname : isName name = true
      · have hword : IsWord name := isName_iff_isWord.mp hname
        simp only [hname, if_true, assignParts_iff, overlay_named]
        constructor
        · rintro ⟨hparts, hidentity⟩
          exact ⟨name, parts, ⟨rfl, rfl⟩, hword, hparts, hidentity⟩
        · rintro ⟨_, _, ⟨rfl, rfl⟩, -, hparts, hidentity⟩
          exact ⟨hparts, hidentity⟩
      · have hnone : ¬ IsWord name := fun hword => hname (isName_iff_isWord.mpr hword)
        simp only [hname]
        constructor
        · intro h
          cases h
        · rintro ⟨_, _, ⟨rfl, rfl⟩, hword, -⟩
          exact absurd hword hnone

/-! Other ways to write a text. -/

theorem pair?_append {key : List Char} (h : '=' ∉ key) (value : List Char) :
    pair? (key ++ '=' :: value) = some (Text.lower (Text.trim key), Text.trim value) := by
  rw [pair?, Text.cut_append h]
  rfl

theorem exists_cut {part : List Char} (h : '=' ∈ part) :
    ∃ key value, part = key ++ '=' :: value ∧ '=' ∉ key := by
  cases hcut : Text.cut '=' part with
  | none => exact absurd h (Text.cut_eq_none_iff.mp hcut)
  | some pair => exact ⟨pair.1, pair.2, Text.cut_sound hcut⟩

theorem pair?_eq_none {part : List Char} (h : '=' ∉ part) : pair? part = none := by
  rw [pair?, Text.cut_eq_none_iff.mpr h]
  rfl

/-- Blanks around a part are blanks around its key and its value. -/
@[simp] theorem pair?_trim (part : List Char) : pair? (Text.trim part) = pair? part := by
  by_cases hmem : '=' ∈ part
  · obtain ⟨key, value, rfl, hkey⟩ := exists_cut hmem
    have hstart : '=' ∉ Text.trimStart key := fun h => hkey (List.dropWhile_subset _ h)
    rw [Text.trim_around (by decide), pair?_append hstart, pair?_append hkey, Text.trim_trimStart,
      Text.trim_trimEnd]
  · rw [pair?_eq_none hmem, pair?_eq_none fun h => hmem (Text.mem_of_mem_trim h)]

/-- Another way to write a part: with blanks around it, around its key or around its value, or with
the letters of its key in another case. -/
inductive Respelled : List Char → List Char → Prop
  | padded {part part' : List Char} (h : Text.Padded part part') : Respelled part part'
  | inside {key key' value value' : List Char} (hkey : '=' ∉ key) (h : Text.Padded key key')
      (h' : Text.Padded value value') : Respelled (key ++ '=' :: value) (key' ++ '=' :: value')
  | letters {key key' value : List Char} (hkey : '=' ∉ key) (h : Text.lower key' = Text.lower key) :
      Respelled (key ++ '=' :: value) (key' ++ '=' :: value)

/-- One change to the pieces between the commas: two parts with different keys change places, or a
part or the name is written in another way. -/
inductive Edit : List (List Char) → List (List Char) → Prop
  | swap (name : List Char) (before after : List (List Char)) {p q : List Char}
      (h : key? p ≠ key? q) :
      Edit (name :: (before ++ p :: q :: after)) (name :: (before ++ q :: p :: after))
  | respell (name : List Char) (before after : List (List Char)) {p q : List Char}
      (h : Respelled p q) : Edit (name :: (before ++ p :: after)) (name :: (before ++ q :: after))
  | padName {name name' : List Char} (parts : List (List Char)) (h : Text.Padded name name') :
      Edit (name :: parts) (name' :: parts)

theorem Respelled.pair?_eq {p q : List Char} (h : Respelled p q) : pair? q = pair? p := by
  induction h with
  | padded h => rw [← pair?_trim, h.trim_eq, pair?_trim]
  | @inside key key' value value' hkey h h' =>
      have hkey' : '=' ∉ key' := by
        obtain ⟨before, after, hbefore, hafter, rfl⟩ := h
        have hblank : Text.isBlank '=' = false := by decide
        intro hmem
        rcases List.mem_append.mp hmem with hmem | hmem
        · rcases List.mem_append.mp hmem with hmem | hmem
          · simp [hbefore '=' hmem] at hblank
          · exact hkey hmem
        · simp [hafter '=' hmem] at hblank
      rw [pair?_append hkey, pair?_append hkey', h.trim_eq, h'.trim_eq]
  | @letters key key' value hkey h =>
      have hkey' : '=' ∉ key' := by
        rw [← Text.mem_lower_iff (by decide), h, Text.mem_lower_iff (by decide)]
        exact hkey
      rw [pair?_append hkey, pair?_append hkey', ← Text.trim_lower, h, Text.trim_lower]

theorem isField_congr {p q : List Char} (h : pair? p = pair? q) : IsField p ↔ IsField q := by
  rw [IsField, IsField, h]

/-- What is declared by two lists of parts that have the same values for every key. -/
theorem declared_congr {parts parts' : List (List Char)}
    (h : ∀ key, valuesOf key parts = valuesOf key parts') (name : List Char) :
    declared name parts = declared name parts' := by
  simp only [declared, h]

/-- The pieces as they are, untrimmed. -/
theorem reads_cons {name : List Char} {parts : List (List Char)} {identity : Identity} :
    Reads (name :: parts) identity ↔
      IsWord (Text.trim name) ∧ (∀ part ∈ parts, IsField part) ∧
        identity = declared (Text.trim name) parts := by
  have hfields : (∀ part ∈ parts.map Text.trim, IsField part) ↔ ∀ part ∈ parts, IsField part := by
    rw [List.forall_mem_map]
    exact forall₂_congr fun part _ => isField_congr (pair?_trim part)
  have hvalues : ∀ key, valuesOf key (parts.map Text.trim) = valuesOf key parts := fun key => by
    simp [valuesOf, List.filterMap_map]
  rw [Reads, ← hfields, ← declared_congr hvalues]
  constructor
  · rintro ⟨_, _, heq, hname, hparts, hidentity⟩
    cases heq
    exact ⟨hname, hparts, hidentity⟩
  · rintro ⟨hname, hparts, hidentity⟩
    exact ⟨_, _, rfl, hname, hparts, hidentity⟩

theorem valuesOf_amid {key : String} {after after' : List (List Char)}
    (h : valuesOf key after = valuesOf key after') (before : List (List Char)) :
    valuesOf key (before ++ after) = valuesOf key (before ++ after') := by
  simp only [valuesOf, List.filterMap_append] at h ⊢
  rw [h]

theorem valuesOf_congr {p q : List Char} (h : pair? p = pair? q) (key : String)
    (after : List (List Char)) : valuesOf key (p :: after) = valuesOf key (q :: after) := by
  simp only [valuesOf, List.filterMap_cons, h]

theorem valuesOf_swap {p q : List Char} (h : key? p ≠ key? q) (key : String)
    (after : List (List Char)) : valuesOf key (p :: q :: after) = valuesOf key (q :: p :: after) := by
  simp only [valuesOf, List.filterMap_cons]
  simp only [key?] at h
  cases hp : pair? p with
  | none => rfl
  | some pair =>
      cases hq : pair? q with
      | none => rfl
      | some other =>
          have hne : pair.1 ≠ other.1 := by simpa [hp, hq] using h
          simp only [Option.bind_some]
          by_cases hfirst : pair.1 = key.toList
          · have hsecond : other.1 ≠ key.toList := fun heq => hne (hfirst.trans heq.symm)
            simp [hfirst, hsecond]
          · simp [hfirst]

/-- No change makes a difference to what is read. -/
theorem Edit.reads_iff {pieces pieces' : List (List Char)} (h : Edit pieces pieces')
    (identity : Identity) : Reads pieces identity ↔ Reads pieces' identity := by
  cases h with
  | swap name before after h =>
      have hvalues := fun key => valuesOf_amid (valuesOf_swap h key after) before
      rw [reads_cons, reads_cons, declared_congr hvalues]
      simp only [List.forall_mem_append, List.forall_mem_cons, and_left_comm]
  | respell name before after h =>
      have hpair := h.pair?_eq.symm
      have hvalues := fun key => valuesOf_amid (valuesOf_congr hpair key after) before
      rw [reads_cons, reads_cons, declared_congr hvalues]
      simp only [List.forall_mem_append, List.forall_mem_cons, isField_congr hpair]
  | padName parts h => rw [reads_cons, reads_cons, h.trim_eq]

theorem reads_iff_of_edits {pieces pieces' : List (List Char)}
    (h : Relation.EqvGen Edit pieces pieces') (identity : Identity) :
    Reads pieces identity ↔ Reads pieces' identity := by
  induction h with
  | rel _ _ h => exact h.reads_iff identity
  | refl _ => rfl
  | symm _ _ _ ih => exact ih.symm
  | trans _ _ _ _ _ ih ih' => exact ih.trans ih'

/-- A text is read as an identity exactly if its first part is a word and its further parts are
fields, and then it is the identity that these declare. Texts that differ in the order of parts with
different keys, in the letter case of keys and in blanks around parts, keys and values are read as
the same. -/
theorem parse_grammar (s : String) :
    ∃ name parts, (Text.fields ',' s.toList).map Text.trim = name :: parts ∧
      ((∃ identity, parse s = .ok identity) ↔ IsWord name ∧ ∀ part ∈ parts, IsField part) ∧
      (∀ identity, parse s = .ok identity → identity = declared name parts) ∧
      ∀ t : String, Relation.EqvGen Edit (Text.fields ',' s.toList) (Text.fields ',' t.toList) →
        ∀ identity, parse s = .ok identity → parse t = .ok identity := by
  obtain ⟨first, rest, hpieces⟩ := List.exists_cons_of_ne_nil (Text.fields_ne_nil ',' s.toList)
  refine ⟨Text.trim first, rest.map Text.trim, by rw [hpieces, List.map_cons], ?_, ?_, ?_⟩
  · constructor
    · rintro ⟨identity, h⟩
      obtain ⟨_, _, heq, hname, hparts, -⟩ := parse_iff_reads.mp h
      rw [hpieces] at heq
      cases heq
      exact ⟨hname, hparts⟩
    · rintro ⟨hname, hparts⟩
      refine ⟨_, parse_iff_reads.mpr ⟨_, _, ?_, hname, hparts, rfl⟩⟩
      rw [hpieces, List.map_cons]
  · intro identity h
    obtain ⟨_, _, heq, -, -, hidentity⟩ := parse_iff_reads.mp h
    rw [hpieces] at heq
    cases heq
    exact hidentity
  · intro t hedits identity h
    rw [parse_iff_reads] at h ⊢
    exact (reads_iff_of_edits hedits identity).mp h

/-- The culture in front of the version, its key in lower case and a blank before its value. -/
theorem parse_grammar_ink :
    parse "Ink,culture= de,Version=1.2,PublicKey=0aFF" =
      .ok ⟨"Ink", some ⟨1, 2, 0, 0⟩, some "de", some [10, 255]⟩ := by
  let publicKey := "PublicKey=0aFF".toList
  obtain ⟨_, _, -, -, -, hedits⟩ := parse_grammar "Ink,Version=1.2,Culture=de,PublicKey=0aFF"
  apply hedits
  · have hpieces : Text.fields ',' "Ink,Version=1.2,Culture=de,PublicKey=0aFF".toList =
        ["Ink".toList, "Version=1.2".toList, part "Culture" "de".toList, publicKey] := by decide
    have hpieces' : Text.fields ',' "Ink,culture= de,Version=1.2,PublicKey=0aFF".toList =
        ["Ink".toList, part "culture" " de".toList, "Version=1.2".toList, publicKey] := by decide
    have hpadded : Text.Padded "de".toList " de".toList :=
      ⟨[' '], [], List.forall_mem_singleton.mpr (by decide), by simp, rfl⟩
    rw [hpieces, hpieces']
    apply Relation.EqvGen.trans _
      ["Ink".toList, part "Culture" "de".toList, "Version=1.2".toList, publicKey]
    · exact .rel _ _ (.swap "Ink".toList [] [publicKey] (by decide))
    · apply Relation.EqvGen.trans _
        ["Ink".toList, part "culture" "de".toList, "Version=1.2".toList, publicKey]
      · exact .rel _ _ (.respell "Ink".toList [] _ (.letters (by decide) (by decide)))
      · exact .rel _ _ (.respell "Ink".toList [] _ (.inside (by decide) (.refl _) hpadded))
  · rfl

/-- The last of several values counts, and a culture may hold equals signs. -/
example : (parse " Ink ,CULTURE = de=AT, version=9, Version = +1.2,publicKey=0aFF").toOption =
      some ⟨"Ink", some ⟨1, 2, 0, 0⟩, some "de=AT", some [10, 255]⟩ ∧
    (parse "Ink, Version=1.2, Version=9").toOption = some ⟨"Ink", some ⟨9, 0, 0, 0⟩, none, none⟩ ∧
    (parse "Ink, Version=1.x, Version=9").toOption = none := by
  decide +kernel

end PluginHost.Identity
