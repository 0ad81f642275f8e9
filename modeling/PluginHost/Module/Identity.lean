import PluginHost.Digest.Sha256
import PluginHost.Module.Version
import PluginHost.Text.Ascii
import PluginHost.Text.Hex
import PluginHost.Text.Split

/-!
Module identities: a simple name with, perhaps, a version, a culture and a public key. Their text
names every part but an absent version, and is read back with the parts in any order.
-/

namespace PluginHost

structure Identity where
  /-- Compared without regard to letter case. -/
  name : String
  version : Option Version
  culture : Option String
  publicKey : Option Octets
  deriving DecidableEq, Repr

namespace Identity

def named (name : String) : Identity :=
  ⟨name, none, none, none⟩

/-- A culture by its name; an empty name and `neutral` stand for none. -/
def cultureOf (text : List Char) : Option String :=
  let culture := Text.trim text
  if culture = [] ∨ Text.lower culture = "neutral".toList then none
  else some (String.ofList culture)

def withCulture (identity : Identity) (culture : String) : Identity :=
  { identity with culture := cultureOf culture.toList }

def SameName (a b : Identity) : Prop :=
  Text.SameLetters a.name b.name

instance (a b : Identity) : Decidable (SameName a b) :=
  inferInstanceAs (Decidable (Text.SameLetters a.name b.name))

def SameCulture (a b : Identity) : Prop :=
  a.culture.map (fun c => Text.lower c.toList) = b.culture.map fun c => Text.lower c.toList

instance (a b : Identity) : Decidable (SameCulture a b) :=
  inferInstanceAs (Decidable (_ = _))

/-- The first eight octets of the digest of the public key. -/
def token (identity : Identity) : Option String :=
  identity.publicKey.map fun key => String.ofList (Text.Hex.encode ((Digest.sha256 key).take 8))

def versionPart (identity : Identity) : String :=
  match identity.version with
  | some version => ", Version=" ++ version.text
  | none => ""

def keyPart (identity : Identity) : String :=
  match identity.publicKey with
  | some key => String.ofList (Text.Hex.encode key)
  | none => "null"

def text (identity : Identity) : String :=
  identity.name ++ identity.versionPart ++ ", Culture=" ++ identity.culture.getD "neutral" ++
    ", PublicKey=" ++ identity.keyPart

inductive Fault where
  | badName (name : String)
  | notAPair (part : String)
  | unknownKey (key : String)
  | badKey (fault : Text.Hex.Fault)
  deriving DecidableEq, Repr

def keyFaultText (fault : Text.Hex.Fault) : String :=
  "public key is not valid hex: " ++ fault.message

def Fault.message : Fault → String
  | .badName name => "'" ++ name ++ "' is not a valid module name"
  | .notAPair part => "expected key=value, found '" ++ part ++ "'"
  | .unknownKey key => "unknown identity field '" ++ key ++ "'"
  | .badKey fault => keyFaultText fault

def startsName (c : Char) : Bool :=
  c.isAlphanum || c == '_'

def continuesName (c : Char) : Bool :=
  startsName c || c == '.' || c == '-'

/-- Letters, digits, underscores, dots and hyphens, the last two not in front. -/
def isName : List Char → Bool
  | [] => false
  | c :: rest => startsName c && rest.all continuesName

/-- Takes over the value of one key. `whole` is the text that is read, for messages. -/
def assign (whole : String) (identity : Identity) (key value : List Char) :
    Except Failure Identity :=
  let reject (fault : Fault) : Except Failure Identity := .error (.invalidIdentity whole fault.message)
  let key := Text.lower (Text.trim key)
  let value := Text.trim value
  if key = "version".toList then
    (Version.parse (String.ofList value)).map fun version => { identity with version := some version }
  else if key = "culture".toList then .ok { identity with culture := cultureOf value }
  else if key = "publickey".toList then
    if Text.lower value = "null".toList then .ok { identity with publicKey := none }
    else
      match Text.Hex.decode value with
      | .ok octets => .ok { identity with publicKey := some octets }
      | .error fault => reject (.badKey fault)
  else reject (.unknownKey (String.ofList key))

def assignParts (whole : String) : Identity → List (List Char) → Except Failure Identity
  | identity, [] => .ok identity
  | identity, part :: rest => do
      match Text.cut '=' part with
      | none => .error (.invalidIdentity whole (Fault.notAPair (String.ofList part)).message)
      | some (key, value) => assignParts whole (← assign whole identity key value) rest

def parse (s : String) : Except Failure Identity :=
  let parts := (Text.fields ',' s.toList).map Text.trim
  let name := parts.head?.getD []
  if isName name then assignParts s (named (String.ofList name)) parts.tail
  else .error (.invalidIdentity s (Fault.badName (String.ofList name)).message)

end Identity

end PluginHost
