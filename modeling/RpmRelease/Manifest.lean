import RpmRelease.FileSystem.Copy
import RpmRelease.Release

/-!
# Staging the manifest

The manifest lists paths and patterns below the project root.  Its entries are copied into the
staging directory in their order; when an entry matches nothing, what was copied before stays.  The
outputs of the release itself are never copied, neither when an entry matches them nor when they
turn up below a directory that is copied.
-/

set_option autoImplicit false

namespace RpmRelease.Manifest

/-- The manifest of a release, which must not be empty. -/
def ofRelease (r : Release) : Except Failure (List String) :=
  match r.configuration.manifest.files with
  | [] => .error (.configuration (.missingField "manifest.files"))
  | files => .ok files

/-- Copies what one match of an entry leads to, and counts what is no directory. -/
def stageMatch (r : Release) (staging : Path) (outputs : List Path) (source : Path) :
    Storage Failure Nat := do
  if outputs.any source.startsWith then return 0
  match source.below? r.root with
  | none => throw (.about .outside)
  | some rest =>
    (Storage.copyTree outputs source (staging.join rest)).mapError
      (·.context ("Failed to copy " ++ rest.text ++ " into staging"))

/-- Copies everything that an entry matches. -/
def stageEntry (r : Release) (staging : Path) (entry : String) : Storage Failure Nat := do
  let found ← Storage.expandPattern r.root entry
  if found.isEmpty then throw (.stage (.noSource entry))
  let outputs := [staging, r.tarPath, r.archivePath]
  Storage.countOver (stageMatch r staging outputs) found

/-- Copies the entries of a manifest into a staging directory, and counts what is no directory. -/
def stage (r : Release) (staging : Path) (manifest : List String) : Storage Failure Nat :=
  Storage.countOver (stageEntry r staging) manifest

end RpmRelease.Manifest
