import RpmRelease.Command
import RpmRelease.FileSystem.Copy
import RpmRelease.Install.Directories
import RpmRelease.Staging

/-!
# Building, installing, cleaning and verifying a project

Building and verifying run the configured commands.  Installing copies three sets of files into
their directories, each match under its own name.  Cleaning removes transient files.
-/

set_option autoImplicit false

namespace RpmRelease.Project

/-- Runs the configured build command, and tells whether there is one. -/
def build (r : Release) : Session Bool := do
  if !r.configuration.build.isConfigured then return false
  Command.run r.root r.configuration.build.command
  return true

/-- Runs the configured check of the sources. -/
def verify (r : Release) : Session Unit := do
  if !r.configuration.verify.isConfigured then
    throw (.configuration (.missingField "verify.command"))
  Command.run r.root r.configuration.verify.command

/-- Installs one match into a directory, and counts what is no directory. -/
def installMatch (target source : Path) : Storage Failure Nat :=
  match source.fileName? with
  | none => pure 0
  | some name =>
    (Storage.copyTree [] source (target.join ⟨name⟩)).mapError
      (·.context ("Failed to install " ++ source.text ++ " into " ++ target.text))

/-- Installs everything that a pattern matches. -/
def installPattern (r : Release) (target : Path) (pattern : String) : Storage Failure Nat := do
  let found ← Storage.expandPattern r.root pattern
  if found.isEmpty then throw (.stage (.noSource pattern))
  Storage.countOver (installMatch target) found

/-- Installs a set of files into a directory, which is created when there is anything to install. -/
def installSet (r : Release) (target : Path) (patterns : List String) : Storage Failure Nat := do
  if patterns.isEmpty then return 0
  Staging.remarked ("Failed to create " ++ target.text) (Storage.createDirectories target)
  Storage.countOver (installPattern r target) patterns

/-- Installs the configured sets of files, and counts what is no directory. -/
def install (r : Release) (given : InstallDirectories) : Storage Failure Nat := do
  let sets := r.configuration.install
  let directories := given.resolve sets r.metadata.name
  let bin ← installSet r (given.target directories.bindir) sets.bin
  let lib ← installSet r (given.target directories.libdir) sets.lib
  let etc ← installSet r (given.target directories.etcdir) sets.etc
  return bin + lib + etc

/-- Removes a match that leads to a regular file, and tells whether it did. -/
def cleanMatch (path : Path) : Storage Failure Bool := do
  if ← Storage.isFile path then
    Staging.remarked ("Failed to remove " ++ path.text)
      (Storage.change fun caller fs => fs.removeFile caller path)
    return true
  else return false

/-- Removes the files that a pattern matches, and lists them. -/
def cleanPattern (r : Release) (pattern : String) : Storage Failure (List Path) := do
  let found ← Storage.expandPattern r.root pattern
  let removed ← found.mapM fun path => do return if ← cleanMatch path then [path] else []
  return removed.flatten

/-- Removes the transient files, and lists them. -/
def clean (r : Release) : Storage Failure (List Path) := do
  let removed ← r.configuration.clean.patterns.mapM (cleanPattern r)
  return removed.flatten

end RpmRelease.Project
