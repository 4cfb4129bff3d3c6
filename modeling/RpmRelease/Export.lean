import RpmRelease.Repository
import RpmRelease.Staging

/-!
# Staging an export

The sources of a release can also come from the repository, as they were when the release was
tagged.  They are exported into the staging directory, which must be empty if it is there.
-/

set_option autoImplicit false

namespace RpmRelease.Export

/-- Exports the tagged sources of a release into a staging directory, and counts the entries. -/
def stage (r : Release) (repository : Repository) (staging : Path) : Session Nat := do
  if ← Session.isDirectory staging then
    if !(← Session.storage (Staging.isEmpty staging)) then
      throw (.repository (.exportNotEmpty staging))
  Session.files (Staging.remarked ("Failed to create " ++ staging.text)
    (Storage.createDirectories staging))
  repository.exportTag r.tag r.configuration.versionControl.module staging

end RpmRelease.Export
