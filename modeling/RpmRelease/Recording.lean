import RpmRelease.Command
import RpmRelease.Repository
import RpmRelease.Staging

/-!
# Recording a release

A release is recorded in two steps, which can each be repeated: the changelog is made anew and
committed, and pending changes are committed and the release is tagged.  When both are done, the tag
covers the changelog.
-/

set_option autoImplicit false

namespace RpmRelease.Recording

/-- What tagging did. -/
structure TagOutcome where
  tag : Tag
  /-- whether there were changes to commit before -/
  committed : Bool
deriving DecidableEq, Repr

/-- What making the changelog anew did. -/
structure ChangelogOutcome where
  path : Path
  /-- whether the changelog had changed -/
  committed : Bool
deriving DecidableEq, Repr

/-- Commits pending changes and tags the release. -/
def tagRelease (r : Release) (repository : Repository) (force : Bool) : Session TagOutcome := do
  let message := "Release " ++ r.metadata.fullVersion
  let committed ← repository.commitAll message
  repository.createTag r.tag message force
  return { tag := r.tag, committed }

/-- The contents of the changelog: what the configured command writes, or the history. -/
def changelogContent (r : Release) (repository : Repository) : Session Bytes := do
  let command := r.configuration.versionControl.changelogCommand
  if command.isEmpty then
    return Text.Utf8.ofString (Changelog.render (← repository.history))
  else Command.capture r.root command

/-- Makes the changelog anew and commits it. -/
def regenerateChangelog (r : Release) (repository : Repository) : Session ChangelogOutcome := do
  let document := r.configuration.versionControl.changelog
  let path := r.root.join document
  let content ← changelogContent r repository
  match path.parent? with
  | some above => Session.files (Staging.remarked ("Failed to create " ++ above.text)
      (Storage.createDirectories above))
  | none => pure ()
  Session.files (Staging.remarked ("Failed to write " ++ path.text)
    (Storage.writeFile path content))
  let message := Changelog.commitMessage (← read).today
  let committed ← repository.commitPath document message
  return { path, committed }

/-- Makes the changelog anew, then tags the release. -/
def record (r : Release) (repository : Repository) (force : Bool) :
    Session (ChangelogOutcome × TagOutcome) := do
  let changelog ← regenerateChangelog r repository
  let tag ← tagRelease r repository force
  return (changelog, tag)

end RpmRelease.Recording
