import PluginHost.Failure
import PluginHost.Text.Ascii
import PluginHost.Text.Blank

/-!
How the culture of a candidate counts against the culture that is asked for.
-/

namespace PluginHost

inductive CulturePolicy where
  | strict
  /-- Any culture will do until the one that is asked for has been accepted. -/
  | firstMatchPins
  deriving DecidableEq, Repr

namespace CulturePolicy

def text : CulturePolicy → String
  | .strict => "strict"
  | .firstMatchPins => "first-match-pins"

def names : List (String × CulturePolicy) :=
  [CulturePolicy.strict, .firstMatchPins].map fun policy => (policy.text, policy)

/-- Reads a policy in any letter case, with or without blanks around it. -/
def parse (s : String) : Except Failure CulturePolicy :=
  let name := Text.lowercase (Text.trimmed s)
  match names.find? (·.1 = name) with
  | some (_, policy) => .ok policy
  | none =>
      .error (.other ("unknown culture policy '" ++ name ++
        "' (expected 'strict' or 'first-match-pins')"))

end CulturePolicy

end PluginHost
