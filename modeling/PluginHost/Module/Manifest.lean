import PluginHost.Json.Decode
import PluginHost.Module.Identity

/-!
Module manifests: what a module file says of a module, namely its identity, the entry point that
gives its components, and the modules it refers to.
-/

namespace PluginHost

structure Manifest where
  name : String
  version : Option Version
  culture : Option String
  publicKey : Option String
  entryPoint : String
  references : List String
  deriving DecidableEq

namespace Manifest

def identity (m : Manifest) : Except Failure Identity :=
  let identity : Identity :=
    ⟨m.name, m.version, m.culture.bind fun culture => Identity.cultureOf culture.toList, none⟩
  match m.publicKey with
  | none => .ok identity
  | some key =>
      match Text.Hex.decode key.toList with
      | .ok octets => .ok { identity with publicKey := some octets }
      | .error fault => .error (.invalidIdentity m.name (Identity.keyFaultText fault))

def referenceIdentities (m : Manifest) : Except Failure (List Identity) :=
  m.references.mapM Identity.parse

def decodeVersion : Json.Decoder Version :=
  Json.textVia "a string" fun s => (Version.parse s).mapError fun failure => .data failure.message

/-- A manifest of which only some fields have been read. -/
structure Draft where
  name : Option String
  version : Option (Option Version)
  culture : Option (Option String)
  publicKey : Option (Option String)
  entryPoint : Option String
  references : Option (List String)

def shape : Json.Shape Draft where
  name := "ModuleManifest"
  fields := [
    .of "name" true Json.text Draft.name fun d v => { d with name := some v },
    .of "version" false (Json.optional decodeVersion) Draft.version
      fun d v => { d with version := some v },
    .of "culture" false (Json.optional Json.text) Draft.culture
      fun d v => { d with culture := some v },
    .of "public_key" false (Json.optional Json.text) Draft.publicKey
      fun d v => { d with publicKey := some v },
    .of "entry_point" true Json.text Draft.entryPoint fun d v => { d with entryPoint := some v },
    .of "references" false (Json.list Json.text) Draft.references
      fun d v => { d with references := some v }]
  start := ⟨none, none, none, none, none, none⟩

def ofDraft (d : Draft) : Manifest where
  name := d.name.getD ""
  version := d.version.getD none
  culture := d.culture.getD none
  publicKey := d.publicKey.getD none
  entryPoint := d.entryPoint.getD ""
  references := d.references.getD []

def decode : Json.Decoder Manifest :=
  fun document => (shape.decode document).map ofDraft

def document (m : Manifest) : Json.Document :=
  .ofMembers [
    ("name", .ofString m.name),
    ("version", .ofOption (fun version => .ofString version.text) m.version),
    ("culture", .ofOption .ofString m.culture),
    ("public_key", .ofOption .ofString m.publicKey),
    ("entry_point", .ofString m.entryPoint),
    ("references", .ofList (m.references.map .ofString))]

end Manifest

end PluginHost
