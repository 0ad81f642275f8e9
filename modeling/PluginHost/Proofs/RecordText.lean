import PluginHost.Module.Manifest
import PluginHost.Proofs.Json.Records
import PluginHost.Proofs.Json.Values
import PluginHost.Proofs.Module.IdentityText
import PluginHost.Template.Info

/-!
Manifests, templates and localizations are read back from their JSON form.
-/

namespace PluginHost

open Json

namespace Manifest

/-- What may be missing from a manifest, as it is written where it stands. -/
def defaults : List (String × Document) :=
  [("version", .null), ("culture", .null), ("public_key", .null), ("references", .ofList [])]

theorem whole_document (m : Manifest) : m.document.Whole := by
  apply whole_ofMembers
  intro member hmember
  simp only [List.mem_cons, List.not_mem_nil, or_false] at hmember
  rcases hmember with rfl | rfl | rfl | rfl | rfl | rfl
  · exact whole_ofString m.name
  · exact whole_ofOption (fun version => whole_ofString version.text) m.version
  · exact whole_ofOption whole_ofString m.culture
  · exact whole_ofOption whole_ofString m.publicKey
  · exact whole_ofString m.entryPoint
  · exact whole_texts m.references

theorem decodeVersion_text (version : Version) :
    decodeVersion (.ofString version.text) = .ok version := by
  rw [decodeVersion, textVia_ofString, Version.parse_text]
  rfl

theorem survives : Survives shape defaults document decode := by
  refine survives_of_leads rfl (fun _ => rfl) whole_document fun m => ?_
  have htext := textAs_ofString "a string"
  refine .needed rfl rfl (htext m.name) rfl ?_
  -- Whether the version is told or not, it comes to the one that was written.
  refine .defaulted rfl rfl none rfl (optional_ofOption fun v _ => decodeVersion_text v) rfl
    (fun version => ⟨some m.name, version, none, none, none, none⟩) rfl rfl
    fun version hversion => ?_
  refine .defaulted rfl rfl none rfl (optional_ofOption fun v _ => htext v) rfl
    (fun culture => ⟨some m.name, version, culture, none, none, none⟩) rfl rfl
    fun culture hculture => ?_
  refine .defaulted rfl rfl none rfl (optional_ofOption fun v _ => htext v) rfl
    (fun key => ⟨some m.name, version, culture, key, none, none⟩) rfl rfl fun key hkey => ?_
  refine .needed rfl rfl (htext m.entryPoint) rfl ?_
  refine .defaulted rfl rfl [] rfl (list_ofList htext m.references) rfl
    (fun references => ⟨some m.name, version, culture, key, some m.entryPoint, references⟩) rfl rfl
    fun references hreferences => .nil ⟨rfl, ?_⟩
  rw [ofDraft, hversion, hculture, hkey, hreferences]
  rfl

end Manifest

namespace TemplateInfo

/-- What may be missing from a template, as it is written where it stands. -/
def defaults : List (String × Document) :=
  [("short_names", .ofList []), ("group_identity", .null), ("tags", .ofMembers [])]

theorem whole_document (t : TemplateInfo) : t.document.Whole := by
  apply whole_ofMembers
  intro member hmember
  simp only [List.mem_cons, List.not_mem_nil, or_false] at hmember
  rcases hmember with rfl | rfl | rfl | rfl | rfl | rfl | rfl | rfl
  · exact whole_ofString t.identity
  · exact whole_ofString t.name
  · exact whole_texts t.shortNames
  · exact whole_ofOption whole_ofString t.groupIdentity
  · apply whole_ofMembers
    intro entry hentry
    obtain ⟨tag, -, rfl⟩ := List.mem_map.mp hentry
    exact whole_ofString tag.2
  · exact whole_ofString t.generatorId.text
  · exact whole_ofString t.mountUri
  · exact whole_ofString t.configPath.text

theorem survives : Survives shape defaults document decode := by
  refine survives_of_leads rfl (fun _ => rfl) whole_document fun t => ?_
  have htext := textAs_ofString "a string"
  refine .needed rfl rfl (htext t.identity) rfl ?_
  refine .needed rfl rfl (htext t.name) rfl ?_
  refine .defaulted rfl rfl [] rfl (list_ofList htext t.shortNames) rfl
    (fun names => ⟨some t.identity, some t.name, names, none, none, none, none, none⟩) rfl rfl
    fun names hnames => ?_
  refine .defaulted rfl rfl none rfl (optional_ofOption fun v _ => htext v) rfl
    (fun group => ⟨some t.identity, some t.name, names, group, none, none, none, none⟩) rfl rfl
    fun group hgroup => ?_
  refine .defaulted rfl rfl .empty rfl (map_named htext t.tags) rfl
    (fun tags => ⟨some t.identity, some t.name, names, group, tags, none, none, none⟩) rfl rfl
    fun tags htags => ?_
  refine .needed rfl rfl (uuid_text t.generatorId) rfl ?_
  refine .needed rfl rfl (htext t.mountUri) rfl ?_
  refine .needed rfl rfl (textAs_ofString _ t.configPath.text) rfl (.nil ⟨rfl, ?_⟩)
  rw [ofDraft, hnames, hgroup, htags]
  rfl

end TemplateInfo

namespace Localization

theorem whole_document (l : Localization) : l.document.Whole := by
  apply whole_ofMembers
  intro member hmember
  simp only [List.mem_cons, List.not_mem_nil, or_false] at hmember
  rcases hmember with rfl | rfl | rfl | rfl <;> exact whole_ofString _

/-- Nothing may be missing from a localization. -/
theorem survives : Survives shape [] document decode := by
  refine survives_of_leads rfl (fun _ => rfl) whole_document fun l => ?_
  have htext := textAs_ofString "a string"
  refine .needed rfl rfl (htext l.locale) rfl ?_
  refine .needed rfl rfl (htext l.identity) rfl ?_
  refine .needed rfl rfl (htext l.mountUri) rfl ?_
  exact .needed rfl rfl (textAs_ofString _ l.configPath.text) rfl (.nil ⟨rfl, rfl⟩)

end Localization

/-- Manifests, templates and localizations are read back from their texts, whatever they hold. It
makes no difference if fields that hold their defaults are left out, or if there are more members,
and neither does how the text is laid out. -/
theorem records_survive :
    Survives Manifest.shape Manifest.defaults Manifest.document Manifest.decode ∧
      Survives TemplateInfo.shape TemplateInfo.defaults TemplateInfo.document TemplateInfo.decode ∧
      Survives Localization.shape [] Localization.document Localization.decode :=
  ⟨Manifest.survives, TemplateInfo.survives, Localization.survives⟩

def inkManifest : Manifest :=
  ⟨"Ink", none, some "fr", none, "ink", []⟩

/-- The manifest of ink without what it does not have, and with what others want to know. -/
def inkObject : Document :=
  .ofMembers [("size", .ofNat 7), ("name", .ofString "Ink"), ("culture", .ofString "fr"),
    ("entry_point", .ofString "ink"), ("notes", .ofList [.null])]

theorem spells_inkObject : Spells inkObject.text inkObject := by
  apply Document.Whole.spells_text
  apply whole_ofMembers
  intro member hmember
  simp only [List.mem_cons, List.not_mem_nil, or_false] at hmember
  rcases hmember with rfl | rfl | rfl | rfl | rfl
  · exact whole_ofNat 7
  · exact whole_ofString "Ink"
  · exact whole_ofString "fr"
  · exact whole_ofString "ink"
  · exact whole_ofList (by simp [Document.Whole.null])

theorem records_survive_ink :
    Document.Retold Manifest.shape Manifest.defaults inkManifest.document inkObject ∧
      Spells inkObject.text inkObject ∧
      decodeText Manifest.decode inkObject.text = .ok inkManifest := by
  have hretold : Document.Retold Manifest.shape Manifest.defaults inkManifest.document inkObject :=
    ⟨_, _, rfl, rfl, .added (by decide) _ <| .kept _ <| .omitted rfl <| .kept _ <| .omitted rfl <|
      .kept _ <| .omitted rfl <| .added (by decide) _ .nil⟩
  exact ⟨hretold, spells_inkObject,
    records_survive.1.retold inkManifest inkObject hretold inkObject.text spells_inkObject⟩

end PluginHost
