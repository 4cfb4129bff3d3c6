import RpmRelease.Configuration.Load
import RpmRelease.Descriptor
import RpmRelease.Metadata

/-!
# A release

A release is resolved once, from the configuration and the descriptor, and handed to every stage.
All artifacts are made in the project root, under names that derive from the metadata.
-/

set_option autoImplicit false

namespace RpmRelease

/-- What all stages of a run share. -/
structure Release where
  /-- the project root, in which all artifacts are made -/
  root : Path
  metadata : Metadata
  configuration : Configuration
deriving DecidableEq, Repr

namespace Release

/-- The directory that the sources are staged in. -/
def stagingDirectory (r : Release) : Path :=
  r.root.join ⟨r.metadata.stem⟩

/-- The archive before it is compressed. -/
def tarPath (r : Release) : Path :=
  r.root.join ⟨r.metadata.stem ++ ".tar"⟩

/-- The compressed archive. -/
def archivePath (r : Release) : Path :=
  r.root.join ⟨r.metadata.stem ++ ".tar.bz2"⟩

/-- What staging and archiving make, in the order in which it is removed. -/
def outputs (r : Release) : List Path :=
  [r.stagingDirectory, r.tarPath, r.archivePath]

/-- The tag that labels the release. -/
def tag (r : Release) : Tag :=
  r.metadata.tag

/-- The metadata that a descriptor file declares, under a given name if there is one. -/
def readMetadata (descriptor : Path) (givenName : Option String) : Storage Failure Metadata := do
  let text ← Storage.query fun caller fs => (fs.readText caller descriptor).mapError fun e =>
    (Failure.file e).context ("Failed to read descriptor " ++ descriptor.text)
  match Descriptor.metadata givenName text with
  | .ok metadata => return metadata
  | .error field => throw (.stage (.undeclared descriptor field.label))

/-- The release of the project in a root. -/
def resolve (root : Path) (configurationPath : Option Path) : Storage Failure Release := do
  let configuration ← Configuration.load root configurationPath
  let descriptor ← configuration.descriptorPath root
  let metadata ← readMetadata descriptor configuration.package.name
  return { root, metadata, configuration }

end Release

end RpmRelease
