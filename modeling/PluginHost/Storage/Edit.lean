import PluginHost.Storage.Tree

/-!
Changes to a tree. A single change either happens or leaves the tree as it is; writing a file goes
through a temporary file beside it, which is then moved into its place.
-/

namespace PluginHost.Storage

def isDots (step : String) : Bool :=
  step == "." || step == ".."

namespace Tree

def put (t : Tree) (a : Address) (entry : Entry) : Tree :=
  { t with entries := ⟨t.entries.put a entry, t.entries.numbers.erase a⟩ }

def erase (t : Tree) (a : Address) : Tree :=
  { t with entries := ⟨t.entries.erase a, t.entries.numbers.erase a⟩ }

/-- Gives a file its contents, which all its names show then, or makes it. -/
def fill (t : Tree) (a : Address) (contents : Contents) : Tree :=
  match t.numberAt a with
  | none => t.put a (.file contents)
  | some _ =>
      let change (b : Address) (entry : Entry) : Entry :=
        if t.shares a b then .file contents else entry
      { t with entries := ⟨t.entries.map change, t.entries.numbers⟩ }

/-- Gives the entry at `a` another name, in place of what has that name. A file keeps its number. -/
def move (t : Tree) (a b : Address) (entry : Entry) : Tree :=
  let moved := (t.erase a).put b entry
  match t.numberAt a with
  | none => moved
  | some number =>
      { moved with entries := ⟨moved.entries.toTable, moved.entries.numbers.put b number⟩ }

/-- The folder in which the last step of a route acts, and this step. -/
def holder (t : Tree) (route : Route) : Except Fault (Address × String) := do
  match ← t.lead false t.limits.links false route.start (route.steps.dropLast ++ ["."]) with
  | .taken folder => .ok (folder, route.steps.getLast?.getD ".")
  | .free _ _ => .error .missing

/-- The address that a route gives to an entry of its own; `dots` if it ends in dots. -/
def target (t : Tree) (route : Route) (dots : Fault) : Except Fault Address := do
  let (folder, last) ← t.holder route
  if isDots last then .error dots
  else if t.limits.name < last.utf8ByteSize then .error .nameTooLong
  else .ok (folder ++ [last])

def makeFolder (t : Tree) (path : Path) : Except Fault Tree := do
  let a ← t.target (← t.route path) .alreadyThere
  match t.get? a with
  | some _ => .error .alreadyThere
  | none => .ok (t.put a .folder)

def makeLink (t : Tree) (path : Path) (aim : String) : Except Fault Tree := do
  if aim = "" then .error .missing
  else
    let route ← t.route path
    let a ← t.target route .alreadyThere
    match t.get? a with
    | some _ => .error .alreadyThere
    | none => if route.slash then .error .missing else .ok (t.put a (.link aim))

def remove (t : Tree) (path : Path) : Except Fault Tree := do
  let route ← t.route path
  let a ← t.target route .isFolder
  match t.get? a with
  | none => .error .missing
  | some .folder => .error .isFolder
  | some _ => if route.slash then .error .notFolder else .ok (t.erase a)

/-- Gives a file its contents; links are followed, and a file that is absent is made. -/
def fillFile (t : Tree) (path : Path) (contents : Contents) : Except Fault Tree := do
  let route ← t.route path
  match ← t.lead true t.limits.links route.slash route.start route.steps with
  | .free folder name => .ok (t.fill (folder ++ [name]) contents)
  | .taken a => if t.isFolderAt a then .error .isFolder else .ok (t.fill a contents)

/-- Moves a file or a link to another name, in place of what has that name. Nothing is done between
two names of one file. -/
def moveFile (t : Tree) (source destination : Path) : Except Fault Tree := do
  let a ← t.target (← t.route source) .busy
  let route ← t.route destination
  let b ← t.target route .busy
  match t.get? a with
  | none => .error .missing
  | some .folder => .error .isFolder
  | some entry =>
      if route.slash then .error .notFolder
      else if t.isFolderAt b then .error .isFolder
      else if t.shares a b then .ok t
      else .ok (t.move a b entry)

/-- Makes the first of some folders, after those that follow it as far as they are needed. -/
def makeFolders (t : Tree) : List Path → Except Fault Unit × Tree
  | [] => (.error .missing, t)
  | path :: outer =>
      if path.text = "" then (.ok (), t)
      else
        let made (t : Tree) : Except Fault Unit × Tree :=
          match t.makeFolder path with
          | .ok t => (.ok (), t)
          | .error f => (if t.isFolder path then .ok () else .error f, t)
        match t.makeFolder path with
        | .error .missing =>
            match t.makeFolders outer with
            | (.ok (), t) => made t
            | (.error f, t) => (.error f, t)
        | _ => made t

def temporary (path : Path) : Path :=
  path.withFileName (path.fileName.getD "" ++ ".tmp")

def makeParents (t : Tree) (path : Path) : Except Fault Unit × Tree :=
  match path.parent with
  | none => (.ok (), t)
  | some parent => t.makeFolders parent.ancestors

/-- Replaces a file as a whole, with the folders it needs. -/
def write (t : Tree) (path : Path) (text : String) : Except Fault Unit × Tree :=
  match t.makeParents path with
  | (.error f, t) => (.error f, t)
  | (.ok (), t) =>
      match t.fillFile (temporary path) (.text text) with
      | .error f => (.error f, t)
      | .ok t =>
          match t.moveFile (temporary path) path with
          | .error f => (.error f, t)
          | .ok t => (.ok (), t)

end Tree

end PluginHost.Storage
