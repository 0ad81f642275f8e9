import PluginHost.Storage.Tree

/-!
The files below a folder: links to folders are entered, every folder once, and all that is no folder
counts as a file. The names in a folder come as the tree has them, in whatever order that is; which of
several ways to a folder is taken depends on it. Only the paths that have been found are put in order.
-/

namespace PluginHost.Storage

structure Listing where
  entered : List Address
  files : List Path

namespace Tree

def pathsIn (t : Tree) (path : Path) (folder : Address) : List Path :=
  (t.namesIn folder).map path.join

/-- Visits paths in turn; `fuel` bounds their number. -/
def visit (t : Tree) : Nat → List Path → Listing → Listing
  | 0, _, found => found
  | _, [], found => found
  | fuel + 1, path :: rest, found =>
      match t.locate path with
      | .ok folder =>
          if t.isFolderAt folder then
            if folder ∈ found.entered then t.visit fuel rest found
            else
              t.visit fuel (t.pathsIn path folder ++ rest)
                { found with entered := folder :: found.entered }
          else t.visit fuel rest { found with files := path :: found.files }
      | .error _ => t.visit fuel rest { found with files := path :: found.files }

/-- No path is visited twice from one folder, and no folder is entered twice. -/
def visitBound (t : Tree) : Nat :=
  t.entries.size + 1

/-- The files below a folder whose names end with `suffix`, in the order of paths. -/
def listing (t : Tree) (folder : Path) (suffix : String) : List Path :=
  if t.isFolder folder then
    let found := t.visit t.visitBound [folder] ⟨[], []⟩
    (found.files.filter (·.hasSuffix suffix)).mergeSort fun a b => (compare a b).isLE
  else []

end Tree

end PluginHost.Storage
