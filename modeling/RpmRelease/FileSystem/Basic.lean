import Std.Data.ExtTreeMap
import RpmRelease.Text.Utf8

/-!
# The file system as a value

A location is the list of names that leads from the root to a node.  A file system gives a node to
some locations: a directory, a regular file with its contents, or a symbolic link.  Two file systems
that have the same node at every location are equal, which `FileSystem.ext` states.

Every node belongs to one owner, so of its permission bits those of the owner decide.  What is created
is created under the umask 022, for every caller.  The time of a directory is when it was made: it stays
when an entry comes or goes.
-/

set_option autoImplicit false

namespace RpmRelease

/-- The names that lead from the root to a node. -/
abbrev Location := List String

/-- The permission bits of a node and the three bits above them. -/
abbrev Mode := BitVec 12

namespace Mode

/-- The part of a mode that permissions make up. -/
def permissions (m : Mode) : Mode := m &&& 0o777#12

/-- The mode of a node that is created with some permissions under the umask 022: the owner's stay,
writing is taken away from all others. -/
def masked (m : Mode) : Mode := m &&& 0o7755#12

/-- The permissions of a directory that no other permissions are asked for: all of them, under the
umask 022. -/
def directory : Mode := 0o755#12

/-- The permissions of a file that no other permissions are asked for: reading and writing, under the
umask 022. -/
def file : Mode := 0o644#12

end Mode

/-- What an owner may be allowed to do with a node. -/
inductive Permission
  | read
  | write
  | enter
deriving DecidableEq, Repr

/-- Whether a mode allows its owner to do something. -/
def Mode.allows (m : Mode) : Permission → Bool
  | .read => m.getLsbD 8
  | .write => m.getLsbD 7
  | .enter => m.getLsbD 6

/-- What stands at a location.  Times are seconds since the epoch. -/
inductive Node
  | directory (mode : Mode) (time : Int)
  | file (mode : Mode) (time : Int) (content : Bytes)
  | link (target : String) (time : Int)
deriving DecidableEq, Repr

/-- The kinds of node. -/
inductive Node.Kind
  | directory
  | file
  | link
deriving DecidableEq, Repr

namespace Node

/-- The kind of a node. -/
def kind : Node → Kind
  | directory .. => .directory
  | file .. => .file
  | link .. => .link

/-- The mode of a node; every link allows everything. -/
def mode : Node → Mode
  | directory mode _ => mode
  | file mode _ _ => mode
  | link _ _ => 0o777#12

/-- When a node was last changed. -/
def time : Node → Int
  | directory _ time => time
  | file _ time _ => time
  | link _ time => time

/-- The node with another mode; links keep theirs. -/
def setMode (mode : Mode) : Node → Node
  | directory _ time => directory mode time
  | file _ time content => file mode time content
  | link target time => link target time

/-- The node with another time. -/
def setTime (time : Int) : Node → Node
  | directory mode _ => directory mode time
  | file mode _ content => file mode time content
  | link target _ => link target time

/-- The number of bytes a node holds. -/
def size : Node → Nat
  | file _ _ content => content.length
  | _ => 0

end Node

/-- A node for each location that has one. -/
structure FileSystem where
  nodes : Std.ExtTreeMap Location Node

namespace FileSystem

/-- The node at a location. -/
def get? (fs : FileSystem) (l : Location) : Option Node :=
  fs.nodes[l]?

/-- The file system with a node at a location. -/
def set (fs : FileSystem) (l : Location) (node : Node) : FileSystem :=
  ⟨fs.nodes.insert l node⟩

/-- The file system without the node at a location. -/
def erase (fs : FileSystem) (l : Location) : FileSystem :=
  ⟨fs.nodes.erase l⟩

/-- The file system with nothing but the directory at the root. -/
def empty : FileSystem :=
  ⟨(∅ : Std.ExtTreeMap Location Node).insert [] (.directory Mode.directory 0)⟩

/-- File systems with the same node at every location are equal. -/
theorem ext {a b : FileSystem} (h : ∀ l, a.get? l = b.get? l) : a = b := by
  cases a
  cases b
  exact congrArg _ (Std.ExtTreeMap.ext_getElem? h)

/-- What stands at each location after a node was set. -/
theorem get?_set (fs : FileSystem) (k l : Location) (node : Node) :
    (fs.set k node).get? l = if k = l then some node else fs.get? l := by
  simp [get?, set, Std.ExtTreeMap.getElem?_insert]

/-- What stands at each location after a node was erased. -/
theorem get?_erase (fs : FileSystem) (k l : Location) :
    (fs.erase k).get? l = if k = l then none else fs.get? l := by
  simp [get?, erase, Std.ExtTreeMap.getElem?_erase]

/-- The nodes below a location, each with the names that lead to it from there, in the order of
their locations. -/
def below (fs : FileSystem) (l : Location) : List (Location × Node) :=
  fs.nodes.toList.filterMap fun (place, node) =>
    if l.isPrefixOf place && l != place then some (place.drop l.length, node) else none

/-- The nodes in the directory at a location, by name. -/
def children (fs : FileSystem) (l : Location) : List (String × Node) :=
  (fs.below l).filterMap fun
    | ([name], node) => some (name, node)
    | _ => none

/-- Whether there is anything in the directory at a location. -/
def hasChildren (fs : FileSystem) (l : Location) : Bool :=
  !(fs.children l).isEmpty

end FileSystem

/-- On whose behalf files are used, and where and when. -/
structure Caller where
  /-- whether permissions do not matter -/
  superuser : Bool
  /-- where relative paths begin -/
  directory : Location
  /-- the present time in seconds since the epoch -/
  now : Int

/-- Whether the caller may do something with a node. -/
def Caller.may (caller : Caller) (permission : Permission) (node : Node) : Bool :=
  caller.superuser || node.mode.allows permission

end RpmRelease
