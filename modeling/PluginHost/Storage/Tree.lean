import PluginHost.Collection.Table
import PluginHost.Path
import PluginHost.Storage.Fault
import PluginHost.Text.Hex

/-!
A tree of folders, files and symbolic links, and how a path leads through it. Each entry has an
address, the names on the way to it from the root, no links among them. A file may have several
addresses, a folder or a link has one.
-/

namespace PluginHost.Storage

inductive Contents where
  | text (value : String)
  | binary (octets : Octets)
  deriving DecidableEq, Repr

inductive Entry where
  | folder
  | file (contents : Contents)
  | link (target : String)
  deriving DecidableEq, Repr

abbrev Address := List String

def Address.text (a : Address) : String :=
  if a = [] then "/" else String.join (a.map ("/" ++ ·))

/-- How far paths may go. -/
structure Limits where
  /-- Octets of a name. -/
  name : Nat
  /-- Octets of a path, and one more. -/
  path : Nat
  /-- Links that one path may take. -/
  links : Nat
  deriving DecidableEq, Repr

def Limits.usual : Limits := ⟨255, 4096, 40⟩

/-- What is at each address. The entries of each folder stand in the order in which the folder gives
them, which may be any. -/
structure Entries extends Table Address Entry where
  /-- Files of which there are several names. The names of one file have the same number. -/
  numbers : Table Address Nat

def Entries.empty : Entries := ⟨.empty, .empty⟩

structure Tree where
  limits : Limits
  entries : Entries
  here : Address

/-- A path as the way it describes. -/
structure Route where
  start : Address
  /-- The names to follow, dots included, empty ones not. -/
  steps : List String
  slash : Bool

/-- Where a way of names without links ends. -/
inductive Stop where
  | entry (address : Address)
  /-- Nothing has this name in this folder, and the way would end with it. -/
  | absent (folder : Address) (name : String)
  /-- A link, met with these steps still to go. -/
  | link (folder : Address) (target : String) (rest : List String)
  | fault (fault : Fault)

inductive Place where
  | taken (address : Address)
  | free (folder : Address) (name : String)
  deriving DecidableEq, Repr

def stepsOf (text : String) : List String :=
  ((Text.fields '/' text.toList).filter (· ≠ [])).map String.ofList

def endsInSlash (text : String) : Bool :=
  text.toList.getLast? == some '/'

def startOf (base : Address) (text : String) : Address :=
  if text.toList.head? = some '/' then [] else base

namespace Tree

def get? (t : Tree) (a : Address) : Option Entry :=
  if a = [] then some .folder else t.entries.get? a

def isFolderAt (t : Tree) (a : Address) : Bool :=
  t.get? a == some .folder

def numberAt (t : Tree) (a : Address) : Option Nat :=
  match t.get? a with
  | some (.file _) => t.entries.numbers.get? a
  | _ => none

/-- The file at `a` is also the one at `b`. -/
def shares (t : Tree) (a b : Address) : Bool :=
  (t.numberAt a).isSome && t.numberAt b == t.numberAt a

def route (t : Tree) (path : Path) : Except Fault Route :=
  if '\x00' ∈ path.text.toList then .error .nulInName
  else if path.text = "" then .error .missing
  else if t.limits.path ≤ path.text.utf8ByteSize then .error .nameTooLong
  else .ok ⟨startOf t.here path.text, stepsOf path.text, endsInSlash path.text⟩

/-- Follows names as far as the first link. The last name may be absent, but it is not looked up if
it is `barred`. -/
def advance (t : Tree) (barred : Bool) : Address → List String → Stop
  | a, [] => .entry a
  | a, step :: rest =>
      if !t.isFolderAt a then .fault .notFolder
      else if step = "." then t.advance barred a rest
      else if step = ".." then t.advance barred a.dropLast rest
      else if barred ∧ rest = [] then .fault .isFolder
      else if t.limits.name < step.utf8ByteSize then .fault .nameTooLong
      else
        match t.get? (a ++ [step]) with
        | none => if rest = [] then .absent a step else .fault .missing
        | some (.link target) => .link a target rest
        | some _ => t.advance barred (a ++ [step]) rest

/-- Follows names and at most `budget` links to what may be made if it is absent, or not. A slash at
the end of the path, or of the last link's target, asks for a folder, and only files are made. -/
def lead (t : Tree) (making : Bool) : Nat → Bool → Address → List String → Except Fault Place
  | budget, slash, a, steps =>
      match t.advance (making && slash) a steps with
      | .entry a => if slash && !t.isFolderAt a then .error .notFolder else .ok (.taken a)
      | .absent a name => .ok (.free a name)
      | .fault f => .error f
      | .link a target rest =>
          match budget with
          | 0 => .error .tooManyLinks
          | budget + 1 =>
              if target = "" then .error .missing
              else
                t.lead making budget (slash || (rest.isEmpty && endsInSlash target))
                  (startOf a target) (stepsOf target ++ rest)

def locate (t : Tree) (path : Path) : Except Fault Address := do
  let route ← t.route path
  match ← t.lead false t.limits.links route.slash route.start route.steps with
  | .free _ _ => .error .missing
  | .taken a => .ok a

def isThere (t : Tree) (path : Path) : Bool :=
  (t.locate path).toOption.isSome

def isFolder (t : Tree) (path : Path) : Bool :=
  (t.locate path).toOption.any t.isFolderAt

def canonical (t : Tree) (path : Path) : Except Fault Path :=
  (t.locate path).map fun a => ⟨a.text⟩

def read (t : Tree) (path : Path) : Except Fault String := do
  match t.get? (← t.locate path) with
  | some (.file (.text s)) => .ok s
  | some (.file (.binary _)) => .error .notText
  | some .folder => .error .isFolder
  | _ => .error .missing

def namesIn (t : Tree) (folder : Address) : List String :=
  t.entries.keys.filterMap fun a => if a.dropLast = folder then a.getLast? else none

end Tree

end PluginHost.Storage
