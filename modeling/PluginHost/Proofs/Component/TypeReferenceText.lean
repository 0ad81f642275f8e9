import PluginHost.Component.TypeReference
import PluginHost.Proofs.Module.IdentityText

/-!
A type reference is read back from its text, as long as its type name cannot be taken for more or
less than a type name and its module has no blanks at its ends. The text of an identity may stand in
it as it is, commas included.
-/

namespace PluginHost

/-- Only the name can have blanks at an end of the text. -/
theorem Identity.trimmed_text {identity : Identity}
    (h : ∀ c, identity.name.toList.head? = some c → Text.isBlank c = false) :
    Text.Trimmed identity.text.toList := by
  have hkey : ∀ c ∈ '=' :: identity.keyPart.toList, Text.isBlank c = false :=
    List.forall_mem_cons.mpr ⟨by decide, fun c hc => (mem_keyPart hc).1⟩
  obtain ⟨middle, hmiddle⟩ : ∃ middle, identity.text.toList =
      (identity.name.toList ++ ',' :: middle) ++ '=' :: identity.keyPart.toList := by
    cases hversion : identity.version with
    | none =>
        exact ⟨" Culture=".toList ++ (identity.culture.getD "neutral").toList ++
          ", PublicKey".toList, by simp [text, versionPart, hversion]⟩
    | some version =>
        exact ⟨" Version=".toList ++ version.text.toList ++ ", Culture=".toList ++
          (identity.culture.getD "neutral").toList ++ ", PublicKey".toList,
          by simp [text, versionPart, hversion]⟩
  rw [hmiddle]
  refine Text.trimmed_append (by simp) (by simp) (fun c hc => ?_)
    fun c hc => hkey c (List.mem_of_getLast? hc)
  cases hname : identity.name.toList with
  | nil =>
      rw [hname] at hc
      cases hc
      decide
  | cons first rest => exact h c (by simpa [hname] using hc)

namespace TypeReference

/-- A type name that is found again in a type reference. -/
structure PlainName (typeName : String) : Prop where
  ne : typeName ≠ ""
  comma : ',' ∉ typeName.toList
  trimmed : Text.Trimmed typeName.toList

/-- The module comes back if it has no blanks at its ends. -/
theorem PlainName.parse_text_of_trimmed {typeName : String} (h : PlainName typeName)
    {module : String} (hne : module ≠ "") (htrimmed : Text.Trimmed module.toList) :
    parse (text ⟨typeName, some module⟩) = .ok ⟨typeName, some module⟩ := by
  have htext : (text ⟨typeName, some module⟩).toList =
      typeName.toList ++ ',' :: ' ' :: module.toList := by
    simp [text]
  have hmodule : Text.trim (' ' :: module.toList) = module.toList := by
    rw [Text.trim_cons_of_isBlank (by decide), Text.trim_eq_self htrimmed]
  have hfilled : ∀ s : String, s ≠ "" → s.toList ≠ [] :=
    fun s hs hnil => hs (String.toList_inj.mp (by simpa using hnil))
  unfold parse
  rw [htext, Text.cut_append h.comma]
  simp only [hmodule, Text.trim_eq_self h.trimmed, hfilled _ h.ne, Option.some.injEq,
    hfilled _ hne, or_self, if_false, Option.map_some, String.ofList_toList]

theorem PlainName.parse_text_of_head {typeName : String} (h : PlainName typeName)
    {identity : Identity}
    (hhead : ∀ c, identity.name.toList.head? = some c → Text.isBlank c = false) :
    parse (text ⟨typeName, some identity.text⟩) = .ok ⟨typeName, some identity.text⟩ := by
  refine h.parse_text_of_trimmed (fun hempty => ?_) (Identity.trimmed_text hhead)
  have hlist := congrArg String.toList hempty
  simp [Identity.text] at hlist

theorem PlainName.parse_text {typeName : String} (h : PlainName typeName) {identity : Identity}
    (hplain : identity.Plain) :
    parse (text ⟨typeName, some identity.text⟩) = .ok ⟨typeName, some identity.text⟩ :=
  h.parse_text_of_head fun _ hc =>
    (Identity.of_continuesName (Identity.continuesName_of_mem hplain.name (List.mem_of_head? hc))).1

/-- A type reference whose parts are found again in its text. -/
structure Plain (r : TypeReference) : Prop where
  typeName : PlainName r.typeName
  module : ∀ module, r.module = some module → module ≠ "" ∧ Text.Trimmed module.toList

theorem PlainName.parse_bare {typeName : String} (h : PlainName typeName) :
    parse typeName = .ok ⟨typeName, none⟩ := by
  have hne : typeName.toList ≠ [] := fun hnil => h.ne (String.toList_eq_nil_iff.mp hnil)
  have hcut : Text.cut ',' typeName.toList = none := Text.cut_eq_none_iff.mpr h.comma
  unfold parse
  rw [hcut]
  simp [Text.trim_eq_self h.trimmed, hne]

theorem Plain.parse_text {r : TypeReference} (h : r.Plain) : parse r.text = .ok r := by
  obtain ⟨typeName, module⟩ := r
  cases module with
  | none => exact h.typeName.parse_bare
  | some module =>
      obtain ⟨hne, htrimmed⟩ := h.module module rfl
      exact h.typeName.parse_text_of_trimmed hne htrimmed

theorem plainName_of_trim {s : List Char} (hne : Text.trim s ≠ []) (hcomma : ',' ∉ s) :
    PlainName (String.ofList (Text.trim s)) where
  ne := fun hempty => hne (by simpa using congrArg String.toList hempty)
  comma := by
    rw [String.toList_ofList]
    exact fun hmem => hcomma (Text.mem_of_mem_trim hmem)
  trimmed := by
    rw [String.toList_ofList]
    exact Text.trimmed_trim s

theorem plain_of_parse {s : String} {r : TypeReference} (h : parse s = .ok r) : r.Plain := by
  unfold parse at h
  cases hcut : Text.cut ',' s.toList with
  | none =>
      simp only [hcut] at h
      split at h
      · cases h
      · rename_i hfilled
        cases h
        refine ⟨plainName_of_trim (fun hnil => hfilled (.inl hnil)) ?_, by simp⟩
        exact Text.cut_eq_none_iff.mp hcut
  | some parts =>
      obtain ⟨before, after⟩ := parts
      simp only [hcut] at h
      split at h
      · cases h
      · rename_i hfilled
        cases h
        obtain ⟨htypeName, hmodule⟩ := not_or.mp hfilled
        refine ⟨plainName_of_trim htypeName (Text.cut_sound hcut).2, fun module hsome => ?_⟩
        obtain rfl : String.ofList (Text.trim after) = module := by simpa using hsome
        refine ⟨fun hempty => hmodule ?_, ?_⟩
        · simpa using congrArg String.toList hempty
        · rw [String.toList_ofList]
          exact Text.trimmed_trim after

/-- The text of a type reference is read back as this reference exactly if it is a plain one, and all
that is read is plain. The text of an identity that can be read comes back as the module, whatever
plain type name stands before it, and with it this identity. -/
theorem text_unambiguous :
    (∀ r : TypeReference, parse r.text = .ok r ↔ r.Plain) ∧
    (∀ s r, parse s = .ok r → r.Plain) ∧
    ∀ typeName, PlainName typeName → ∀ s identity, Identity.parse s = .ok identity →
      ∃ module, parse (text ⟨typeName, some identity.text⟩) = .ok ⟨typeName, some module⟩ ∧
        Identity.parse module = .ok identity := by
  have hplain : ∀ s r, parse s = .ok r → r.Plain := fun _ _ => plain_of_parse
  refine ⟨fun r => ⟨hplain _ _, Plain.parse_text⟩, hplain, ?_⟩
  intro typeName hname s identity hread
  have hidentity : identity.Plain := Identity.plain_of_parse hread
  exact ⟨identity.text, hname.parse_text hidentity, hidentity.parse_text⟩

/-- A full identity behind a type name with a blank inside, and a type name that is read as two. -/
example : (parse "Fine Pen, Ink, Version=1.0.0.0, Culture=neutral, PublicKey=null").toOption =
      some ⟨"Fine Pen", some "Ink, Version=1.0.0.0, Culture=neutral, PublicKey=null"⟩ ∧
    (parse (text ⟨"Pen, Ink", none⟩)).toOption = some ⟨"Pen", some "Ink"⟩ := by
  decide +kernel

end TypeReference

end PluginHost
