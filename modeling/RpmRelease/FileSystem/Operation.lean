import RpmRelease.FileSystem.Lookup

/-!
# Single operations on the file system

Each operation here either fails and changes nothing, or gives the file system that it leaves.  An
operation on an entry of a directory needs the permission to write to that directory.  Whether an
entry is there already is reported before a missing permission.

Writing to a file on behalf of an ordinary user takes the set-user bit away from it, and the
set-group bit when the group may execute it.
-/

set_option autoImplicit false

namespace RpmRelease

/-- The mode of a file after an ordinary user wrote to it. -/
def Mode.written (m : Mode) : Mode :=
  let m := m &&& 0o3777#12
  if m.getLsbD 3 then m &&& 0o5777#12 else m

namespace FileSystem

variable (caller : Caller) (fs : FileSystem)

/-- Checks that the caller may change the entries of a directory. -/
def checkWritable (l : Location) : Except FileError Unit :=
  match fs.get? l with
  | some node => if caller.may .write node then .ok () else .error (.system .accessDenied)
  | none => .error (.system .noEntry)

/-- Creates a directory. -/
def makeDirectory (path : Path) : Except FileError FileSystem := do
  let (l, ending) ← Lookup.locateEntry caller fs path
  match ending with
  | .directory _ => throw (.system .entryExists)
  | .name name _ =>
    if (fs.get? (l ++ [name])).isSome then throw (.system .entryExists)
    fs.checkWritable caller l
    return fs.set (l ++ [name]) (.directory Mode.directory caller.now)

/-- The location for a new entry that is no directory. -/
def vacantEntry (path : Path) : Except FileError Location := do
  let (l, ending) ← Lookup.locateEntry caller fs path
  match ending with
  | .directory _ => throw (.system .entryExists)
  | .name name slash =>
    if (fs.get? (l ++ [name])).isSome then throw (.system .entryExists)
    if slash then throw (.system .noEntry)
    fs.checkWritable caller l
    return l ++ [name]

/-- Creates a symbolic link. -/
def makeLink (target : Path) (path : Path) : Except FileError FileSystem := do
  if path.text.toList.contains '\x00' then throw .nulInPath
  Lookup.checkText target.text
  let l ← vacantEntry caller fs path
  return fs.set l (.link target.text caller.now)

/-- Gives the node that a path leads to a second location.  The two are not tied together: nothing
that this library does writes through one of several names of a file. -/
def makeHardLink (source : Path) (path : Path) : Except FileError FileSystem := do
  if path.text.toList.contains '\x00' then throw .nulInPath
  let (_, node) ← Lookup.find caller fs false source
  let l ← vacantEntry caller fs path
  if node.kind == .directory then throw (.system .notPermitted)
  return fs.set l node

/-- Removes an entry that is no directory. -/
def removeFile (path : Path) : Except FileError FileSystem := do
  let (l, ending) ← Lookup.locateEntry caller fs path
  match ending with
  | .directory _ => throw (.system .isDirectory)
  | .name name slash =>
    match fs.get? (l ++ [name]) with
    | none => throw (.system .noEntry)
    | some node =>
      if slash then
        throw (.system (if node.kind == .directory then .isDirectory else .notDirectory))
      fs.checkWritable caller l
      if node.kind == .directory then throw (.system .isDirectory)
      return fs.erase (l ++ [name])

/-- Removes a directory with nothing in it. -/
def removeDirectory (path : Path) : Except FileError FileSystem := do
  let (l, ending) ← Lookup.locateEntry caller fs path
  match ending with
  | .directory .up => throw (.system .notEmpty)
  | .directory _ => throw (.system .invalidArgument)
  | .name name _ =>
    match fs.get? (l ++ [name]) with
    | none => throw (.system .noEntry)
    | some node =>
      fs.checkWritable caller l
      if node.kind != .directory then throw (.system .notDirectory)
      if fs.hasChildren (l ++ [name]) then throw (.system .notEmpty)
      return fs.erase (l ++ [name])

/-- The mode of a file that the caller wrote to. -/
def modeWritten (mode : Mode) : Mode :=
  if caller.superuser then mode else mode.written

/-- Puts contents into the file at a location. -/
def fill (l : Location) (content : Bytes) : FileSystem :=
  match fs.get? l with
  | some (.file mode _ _) =>
    let mode := if content.isEmpty then mode else modeWritten caller mode
    fs.set l (.file mode caller.now content)
  | _ => fs

/-- Opens a file for writing and empties it; a file that is not there is created with a mode.  Gives
the location of the file. -/
def openWrite (mode : Mode) (path : Path) : Except FileError (Location × FileSystem) := do
  match ← Lookup.locate caller fs true path with
  | .occupied l (.file mode _ _) =>
    if !caller.may .write (.file mode 0 []) then throw (.system .accessDenied)
    return (l, fs.set l (.file (modeWritten caller mode) caller.now []))
  | .occupied _ _ => throw (.system .isDirectory)
  | .vacant l name slash =>
    if slash then throw (.system .isDirectory)
    fs.checkWritable caller l
    return (l ++ [name], fs.set (l ++ [name]) (.file mode.masked caller.now []))

/-- Creates a file at a path where nothing may stand, not even a link. -/
def openNew (mode : Mode) (path : Path) : Except FileError (Location × FileSystem) := do
  let (l, ending) ← Lookup.locateEntry caller fs path
  match ending with
  | .directory _ => throw (.system .isDirectory)
  | .name name slash =>
    if slash then throw (.system .isDirectory)
    if (fs.get? (l ++ [name])).isSome then throw (.system .entryExists)
    fs.checkWritable caller l
    return (l ++ [name], fs.set (l ++ [name]) (.file mode.masked caller.now []))

/-- Sets the mode of the node that a path leads to. -/
def changeMode (mode : Mode) (path : Path) : Except FileError FileSystem := do
  let (l, node) ← Lookup.find caller fs true path
  return fs.set l (node.setMode mode)

end FileSystem

end RpmRelease
