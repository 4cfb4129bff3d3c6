import RpmRelease.Release

/-!
# The staging directory

The sources of a release are gathered in the staging directory before they are archived.  Cleaning
removes whatever an earlier run has left of it and of the archives, and can be repeated at will.
Creating refuses a directory that is not empty.
-/

set_option autoImplicit false

namespace RpmRelease.Staging

/-- Removes what stands at a path, and tells whether there was anything.  A link is removed, not
what it leads to. -/
def removePath (path : Path) : Storage FileError Bool := do
  match ← Storage.attempt (Storage.query fun caller fs => fs.lstat caller path) with
  | .error e => if e.kind == .notFound then return false else throw e
  | .ok node =>
    if node.kind == .directory then Storage.removeAll path
    else Storage.change fun caller fs => fs.removeFile caller path
    return true

/-- Adds a remark to the failures of a program. -/
def remarked {α : Type} (remark : String) (program : Storage FileError α) : Storage Failure α :=
  program.mapError fun e => (Failure.file e).context remark

/-- Removes the outputs of a release, and lists those that were there. -/
def clean (r : Release) : Storage Failure (List Path) := do
  let removed ← r.outputs.mapM fun path => do
    let there ← remarked ("Failed to remove " ++ path.text) (removePath path)
    return if there then [path] else []
  return removed.flatten

/-- Whether there is nothing in a directory. -/
def isEmpty (directory : Path) : Storage FileError Bool :=
  Storage.query fun caller fs => (fs.readDirectory caller directory).map (·.isEmpty)

/-- Creates the staging directory of a release. -/
def create (r : Release) : Storage Failure Path := do
  let directory := r.stagingDirectory
  if ← Storage.isDirectory directory then
    if !(← (isEmpty directory).mapError .file) then throw (.stage (.stagingNotEmpty directory))
  remarked ("Failed to create " ++ directory.text) (Storage.createDirectories directory)
  return directory

end RpmRelease.Staging
