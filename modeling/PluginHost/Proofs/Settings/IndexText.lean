import PluginHost.Proofs.Json.Records
import PluginHost.Proofs.Json.Values
import PluginHost.Settings.Index

/-!
A component index is read back from its text.
-/

namespace PluginHost

namespace ComponentIndex

open Json

theorem whole_document (index : ComponentIndex) : index.document.Whole := by
  apply whole_ofMembers
  intro member hmember
  simp only [List.mem_cons, List.not_mem_nil, or_false] at hmember
  rcases hmember with rfl | rfl | rfl | rfl | rfl
  · exact whole_ofNat index.version
  · exact whole_ofOption (fun time => whole_ofString time.text) index.writtenAt
  · apply whole_ofMembers
    intro entry hentry
    obtain ⟨reference, -, rfl⟩ := List.mem_map.mp hentry
    exact whole_ofString reference.2
  · exact whole_texts (SortedSet.toList index.locations)
  · apply whole_ofMembers
    intro entry hentry
    obtain ⟨listed, -, rfl⟩ := List.mem_map.mp hentry
    apply whole_ofList
    intro item hitem
    obtain ⟨id, -, rfl⟩ := List.mem_map.mp hitem
    exact whole_ofString id.text

theorem set_idList (ids : SortedSet Uuid) : Json.set uuid (idList ids) = .ok ids :=
  set_ofList uuid_text ids

theorem decode_document {index : ComponentIndex} (hversion : index.version < UInt32.size)
    (hwritten : ∀ time, index.writtenAt = some time → time.Valid) :
    decode index.document = .ok index := by
  have hreferences : Json.map uuidOf Json.text (.ofMembers (index.typeReferences.entries.map
      fun entry => (entry.1.text, .ofString entry.2))) = .ok index.typeReferences :=
    map_ofMembers uuidOf_text (textAs_ofString "a string") index.typeReferences
  have hlocations : Json.set Json.text
      (.ofList ((SortedSet.toList index.locations).map .ofString)) = .ok index.locations :=
    Json.set_ofList (textAs_ofString "a string") index.locations
  have hcapabilities : Json.map Except.ok (Json.set uuid)
      (.ofMembers (index.capabilities.entries.map fun entry => (entry.1, idList entry.2))) =
        .ok index.capabilities :=
    map_named set_idList index.capabilities
  have hmembers : shape.decode index.document =
      .ok ⟨some index.version, some index.writtenAt, some index.typeReferences,
        some index.locations, some index.capabilities⟩ := by
    apply Shape.decode_ofMembers
    rw [Shape.fillNamed_cons rfl rfl (Shape.fill_of (nat32_ofNat hversion)),
      Shape.fillNamed_cons rfl rfl (Shape.fill_of (optional_timestamp hwritten)),
      Shape.fillNamed_cons rfl rfl (Shape.fill_of hreferences),
      Shape.fillNamed_cons rfl rfl (Shape.fill_of hlocations),
      Shape.fillNamed_cons rfl rfl (Shape.fill_of hcapabilities)]
    rfl
  unfold decode
  rw [hmembers]
  rfl

theorem decodeText_text {index : ComponentIndex} (hversion : index.version < UInt32.size)
    (hwritten : ∀ time, index.writtenAt = some time → time.Valid) :
    decodeText decode index.text = .ok index := by
  rw [text, Json.decodeText_text index.whole_document, decode_document hversion hwritten]

end ComponentIndex

end PluginHost
