import PluginHost.Module.Identity
import PluginHost.Resolution.CulturePolicy

/-!
Which candidates will do for a request. Candidates are judged in turn, and what has been accepted
pins what may follow: the number of leading version fields that have to agree, and the culture.
-/

namespace PluginHost

structure Candidate where
  path : Path
  identity : Identity

namespace Selection

structure Pins where
  /-- Later candidates agree with the request on this many leading version fields. -/
  depth : Nat
  cultureMatched : Bool
  deriving DecidableEq, Repr

def Pins.none : Pins := ⟨0, false⟩

/-- The leading version fields that an exact match pins. -/
def exactDepth : Nat := 2

def keyAccepted (requested candidate : Identity) : Bool :=
  requested.publicKey.all fun key => candidate.publicKey == some key

def cultureAccepted (policy : CulturePolicy) (requested candidate : Identity) (pins : Pins) :
    Bool :=
  decide (requested.SameCulture candidate) ||
    match policy with
    | .strict => false
    | .firstMatchPins => !pins.cultureMatched

/-- The depth that a version of a candidate pins, unless it is too low or agrees too little. -/
def depthAfter (wanted found : Version) (depth : Nat) : Option Nat :=
  match wanted.firstDifference found with
  | none => some (max depth exactDepth)
  | some place =>
      if found.fields.getD place 0 < wanted.fields.getD place 0 ∨ place < depth then none
      else some place

/-- The pins after an accepted candidate; `none` for one that will not do. -/
def judge (policy : CulturePolicy) (requested candidate : Identity) (pins : Pins) : Option Pins :=
  if !decide (requested.SameName candidate) || !keyAccepted requested candidate ||
      !cultureAccepted policy requested candidate pins then
    none
  else
    let depth? :=
      match requested.version with
      | none => some pins.depth
      | some wanted => depthAfter wanted (candidate.version.getD .zero) pins.depth
    depth?.map fun depth =>
      ⟨depth, pins.cultureMatched || decide (requested.SameCulture candidate)⟩

def selectFrom (policy : CulturePolicy) (requested : Identity) :
    Pins → List Candidate → List Path
  | _, [] => []
  | pins, candidate :: rest =>
      match judge policy requested candidate.identity pins with
      | none => selectFrom policy requested pins rest
      | some pins => candidate.path :: selectFrom policy requested pins rest

/-- The candidates that will do, in the given order; the last one is the best. -/
def select (policy : CulturePolicy) (requested : Identity) (candidates : List Candidate) :
    List Path :=
  selectFrom policy requested .none candidates

end Selection

end PluginHost
