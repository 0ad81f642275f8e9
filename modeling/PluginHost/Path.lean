import PluginHost.Text.Ascii
import PluginHost.Text.Split

/-!
Paths: texts that are read as names between slashes. A path keeps its text; it is compared, ordered
and taken apart by components, for which doubled slashes and single dots inside do not count.
-/

namespace PluginHost

structure Path where
  text : String
  deriving DecidableEq

namespace Path

inductive Component where
  | root
  | here
  | up
  | name (text : String)
  deriving DecidableEq

namespace Component

def rank : Component → Nat
  | .root => 0
  | .here => 1
  | .up => 2
  | .name _ => 3

def label : Component → String
  | .name text => text
  | _ => ""

instance : Ord Component := ⟨compareLex (compareOn rank) (compareOn label)⟩

end Component

def isAbsolute (p : Path) : Bool :=
  p.text.toList.head? == some '/'

def pieces (p : Path) : List (List Char) :=
  Text.fields '/' p.text.toList

/-- The component that a piece stands for; `first` tells whether nothing stands before it. -/
def component? (first : Bool) (piece : List Char) : Option Component :=
  if piece = [] then none
  else if piece = ['.'] then (if first then some .here else none)
  else if piece = ['.', '.'] then some .up
  else some (.name (String.ofList piece))

def components (p : Path) : List Component :=
  match p.pieces with
  | [] => []
  | first :: rest =>
      (if p.isAbsolute then [.root] else (component? true first).toList) ++
        rest.filterMap (component? false)

instance : Ord Path := ⟨compareOn components⟩

def same (a b : Path) : Bool :=
  a.components == b.components

/-- Removes pieces that are no components from the front of the pieces in reverse. -/
def dropEmpty : List (List Char) → List (List Char)
  | [] => []
  | [first] => if first = [] then [] else [first]
  | piece :: rest => if component? false piece = none then dropEmpty rest else piece :: rest

def ofPieces (pieces : List (List Char)) : Path :=
  ⟨String.ofList (['/'].intercalate pieces)⟩

def fileName (p : Path) : Option String :=
  match (dropEmpty p.pieces.reverse).head?.bind (component? true) with
  | some (.name text) => some text
  | _ => none

/-- The path without its last component; roots and the empty path have none. -/
def parent (p : Path) : Option Path :=
  match dropEmpty p.pieces.reverse with
  | [] => none
  | _ :: rest =>
      match dropEmpty rest with
      | [] => some ⟨if p.isAbsolute then "/" else ""⟩
      | kept => some (ofPieces kept.reverse)

/-- `name` as seen from the folder `p`; an absolute one stands for itself. -/
def join (p : Path) (name : String) : Path :=
  if (Path.mk name).isAbsolute then ⟨name⟩
  else if p.text = "" ∨ p.text.toList.getLast? = some '/' then ⟨p.text ++ name⟩
  else ⟨p.text ++ "/" ++ name⟩

/-- Puts `name` in the place of the last component, or after it if that is no name. -/
def withFileName (p : Path) (name : String) : Path :=
  match p.fileName with
  | none => p.join name
  | some _ => (p.parent.getD p).join name

/-- The path and what remains of it when components are taken off one by one. -/
def ancestors (p : Path) : List Path :=
  go p.pieces.length p
where
  go : Nat → Path → List Path
    | 0, p => [p]
    | fuel + 1, p =>
        match p.parent with
        | none => [p]
        | some parent => p :: go fuel parent

def hasSuffix (p : Path) (suffix : String) : Bool :=
  p.fileName.any fun name => Text.endsWithLetters name suffix

def isNamed (p : Path) (name : String) : Bool :=
  p.fileName.any fun file => Text.sameLetters file name

end Path

end PluginHost
