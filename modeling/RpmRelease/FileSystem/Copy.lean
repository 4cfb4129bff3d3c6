import RpmRelease.Failure
import RpmRelease.FileSystem.Storage

/-!
# Walking and copying trees

A walk meets a directory before what is in it, and the entries of a directory by name.  Links are
met as links; only a link at the root of a walk is followed.

`copyTree` copies files with their modes and links as links, and creates directories as they are
met.  It leaves out paths that are to be skipped, with everything below them, and lists a directory
only after it has created the copy of that directory.
-/

set_option autoImplicit false

namespace RpmRelease

/-- An error met while walking a tree, and where. -/
structure WalkError where
  path : Path
  cause : FileError
deriving DecidableEq, Repr

/-- A walk error as a file error. -/
def WalkError.toFileError (e : WalkError) : FileError :=
  .custom e.cause.kind (walkMessage e.path e.cause)

/-- A walk error as a failure. -/
def WalkError.toFailure (e : WalkError) : Failure :=
  .about (.walk e.path e.cause)

namespace FileSystem

/-- The path of a directory and the paths of everything below it, `steps` directories deep. -/
def walkDirectory (caller : Caller) (fs : FileSystem) :
    Nat → Path → Except WalkError (List Path)
  | 0, path => .ok [path]
  | steps + 1, path => do
    let entries ← (fs.readDirectory caller path).mapError (WalkError.mk path)
    let below ← entries.mapM fun (name, node) =>
      let child := path.join ⟨name⟩
      if node.kind == .directory then walkDirectory caller fs steps child else .ok [child]
    return path :: below.flatten

/-- A path and everything below it.  Each directory makes paths longer by two bytes at least, so
that the longest path bounds the depth of a walk. -/
def walk (caller : Caller) (fs : FileSystem) (path : Path) : Except WalkError (List Path) := do
  let node ← (fs.lstat caller path).mapError (WalkError.mk path)
  match node.kind with
  | .directory => walkDirectory caller fs Lookup.maxPath path
  | .link =>
    let target ← (fs.stat caller path).mapError (WalkError.mk path)
    if target.kind == .directory then walkDirectory caller fs Lookup.maxPath path else .ok [path]
  | .file => .ok [path]

end FileSystem

namespace Storage

/-- Copies a file or a link. -/
def copyEntry (source destination : Path) (node : Node) : Storage FileError Unit :=
  if node.kind == .link then
    change fun caller fs => do fs.makeLink caller (← fs.readLink caller source) destination
  else copyFile source destination

/-- Where the copy of a path below the source of a copy goes. -/
def placeBelow (source destination path : Path) : Storage Failure Path :=
  match path.below? source with
  | some rest => pure (destination.join rest)
  | none => throw (.about .outside)

/-- The node at a path met during a walk. -/
def nodeMet (path : Path) : Storage Failure Node :=
  query fun caller fs => (fs.lstat caller path).mapError fun e => (WalkError.mk path e).toFailure

/-- Copies a directory and everything below it, `steps` directories deep, and counts what is no
directory. -/
def copyDirectory (skip : List Path) (source destination : Path) :
    Nat → Path → Storage Failure Nat
  | 0, _ => pure 0
  | steps + 1, path => do
    -- whether the directory can be listed is found out when it is met, and reported afterwards
    let opened ← attempt (query fun caller fs => do
      let _ ← fs.readDirectory caller path
      Lookup.find caller fs true path)
    if skip.any path.same then return 0
    let target ← placeBelow source destination path
    let _ ← nodeMet path
    mapError .file (createDirectories target)
    let (l, _) ←
      match opened with
      | .ok place => pure place
      | .error e => throw (WalkError.mk path e).toFailure
    let entries ← query fun _ fs => .ok (fs.children l)
    countOver (fun (name, node) => do
      let child := path.join ⟨name⟩
      if node.kind == .directory then copyDirectory skip source destination steps child
      else if skip.any child.same then return 0
      else
        let target ← placeBelow source destination child
        let node ← nodeMet child
        mapError .file (copyEntry child target node)
        return 1) entries

/-- Copies a file, a link or a directory with everything below it, and counts what is no
directory. -/
def copyTree (skip : List Path) (source destination : Path) : Storage Failure Nat := do
  let node ← query fun caller fs => (fs.lstat caller source).mapError .file
  if node.kind == .directory then copyDirectory skip source destination Lookup.maxPath source
  else
    mapError .file do
      match destination.parent? with
      | some above => createDirectories above
      | none => pure ()
      copyEntry source destination node
    return 1

/-- The paths that a pattern stands for below a root. -/
def expandPattern (root : Path) (pattern : String) : Storage Failure (List Path) :=
  query fun caller fs => (Glob.expand caller fs root pattern).mapError Glob.Error.toFailure

end Storage

end RpmRelease
