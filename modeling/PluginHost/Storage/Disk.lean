import PluginHost.Storage.Edit
import PluginHost.Storage.Listing

/-!
A disk: a tree, and what the next accesses to it will meet. A failing access does not touch the
tree.
-/

namespace PluginHost.Storage

/-- For each kind of access, what the next ones meet: a fault, or none. Later ones meet none. -/
structure Prospect where
  reads : List (Option Fault)
  writes : List (Option Fault)
  removals : List (Option Fault)
  listings : List (Option Fault)
  deriving DecidableEq, Repr

def Prospect.clear : Prospect := ⟨[], [], [], []⟩

structure Disk where
  tree : Tree
  prospect : Prospect

namespace Disk

def firstFault (met : List (Option Fault)) : Option Fault :=
  met.head?.join

def read (d : Disk) (path : Path) : Except Fault String × Disk :=
  let rest := { d with prospect := { d.prospect with reads := d.prospect.reads.tail } }
  match firstFault d.prospect.reads with
  | some fault => (.error fault, rest)
  | none => (d.tree.read path, rest)

def write (d : Disk) (path : Path) (text : String) : Except Fault Unit × Disk :=
  let rest := { d with prospect := { d.prospect with writes := d.prospect.writes.tail } }
  match firstFault d.prospect.writes with
  | some fault => (.error fault, rest)
  | none =>
      let (result, tree) := d.tree.write path text
      (result, { rest with tree })

def remove (d : Disk) (path : Path) : Except Fault Unit × Disk :=
  let rest := { d with prospect := { d.prospect with removals := d.prospect.removals.tail } }
  match firstFault d.prospect.removals with
  | some fault => (.error fault, rest)
  | none =>
      match d.tree.remove path with
      | .ok tree => (.ok (), { rest with tree })
      | .error fault => (.error fault, rest)

def list (d : Disk) (folder : Path) (suffix : String) : Except Fault (List Path) × Disk :=
  let rest := { d with prospect := { d.prospect with listings := d.prospect.listings.tail } }
  match firstFault d.prospect.listings with
  | some fault => (.error fault, rest)
  | none => (.ok (d.tree.listing folder suffix), rest)

end Disk

end PluginHost.Storage
