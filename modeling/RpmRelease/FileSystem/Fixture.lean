import RpmRelease.FileSystem.Storage

/-!
# Laying out files

A fixture is an entry to be put below a directory: a file, a directory or a link, with its mode and
perhaps its time.  Fixtures are put one after the other; times are set when all of them are there.
-/

set_option autoImplicit false

namespace RpmRelease

/-- What is put. -/
inductive Fixture.Content
  | file (bytes : Bytes)
  | directory
  | link (target : Path)
deriving DecidableEq, Repr

/-- An entry to be put below a directory. -/
structure Fixture where
  path : Path
  content : Fixture.Content
  mode : Option Mode
  time : Option Int
deriving DecidableEq, Repr

namespace Fixture

/-- Puts an entry, except for its time. -/
def put (base : Path) (entry : Fixture) : Storage FileError Unit := do
  let path := base.join entry.path
  match path.parent? with
  | some above => Storage.createDirectories above
  | none => pure ()
  match entry.content with
  | .file bytes =>
    Storage.writeFile path bytes
    Storage.change fun caller fs => fs.changeMode caller (entry.mode.getD Mode.file) path
  | .directory =>
    Storage.createDirectories path
    Storage.change fun caller fs => fs.changeMode caller (entry.mode.getD Mode.directory) path
  | .link target => Storage.change fun caller fs => fs.makeLink caller target path

/-- Sets the time of an entry; of a link, that of the link itself. -/
def date (base : Path) (entry : Fixture) : Storage FileError Unit :=
  match entry.time with
  | none => pure ()
  | some time => Storage.change fun caller fs => do
    let (l, node) ← Lookup.find caller fs (entry.content == .directory) (base.join entry.path)
    return fs.set l (node.setTime time)

/-- Puts entries below a directory. -/
def putAll (base : Path) (entries : List Fixture) : Storage FileError Unit := do
  entries.forM (put base)
  entries.forM (date base)

end Fixture

end RpmRelease
