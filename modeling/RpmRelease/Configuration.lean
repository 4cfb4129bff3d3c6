import RpmRelease.Path

/-!
# The configuration of a project

Every section has defaults, so an empty configuration is a complete one.  `Configuration.fileNames`
are the places where the configuration of a project is looked for, in this order.
-/

set_option autoImplicit false

namespace RpmRelease

/-- Where the metadata of the package comes from. -/
structure PackageSection where
  /-- the descriptor; when absent, the only one in the project root -/
  descriptor : Option Path := none
  /-- the name of the package; when absent, the one that the descriptor declares -/
  name : Option String := none
deriving DecidableEq, Repr

/-- What is staged from the working tree. -/
structure ManifestSection where
  /-- paths and patterns below the project root -/
  files : List String := []
deriving DecidableEq, Repr

/-- The changelog document of a project that names none. -/
def VersionControlSection.defaultChangelog : Path := ⟨"ChangeLog"⟩

/-- How releases are recorded. -/
structure VersionControlSection where
  /-- the part of the repository that makes up the package; the whole of it when empty -/
  module : Path := ⟨""⟩
  /-- the changelog document -/
  changelog : Path := VersionControlSection.defaultChangelog
  /-- a command whose output is the changelog; when empty, the history is rendered -/
  changelogCommand : List String := []
  /-- whether an existing tag is moved -/
  tagForce : Bool := false
deriving DecidableEq, Repr

/-- The program that builds packages when a project names none. -/
def BuilderSection.defaultCommand : String := "rpmbuild"

/-- The arguments in front of the archive when a project gives none. -/
def BuilderSection.defaultArgs : List String := ["-ta"]

/-- The program that builds packages from archives. -/
structure BuilderSection where
  command : String := BuilderSection.defaultCommand
  args : List String := BuilderSection.defaultArgs
deriving DecidableEq, Repr

/-- A command that is run in the project root; none when empty. -/
structure CommandSection where
  command : List String := []
deriving DecidableEq, Repr

/-- Whether there is a command to run. -/
def CommandSection.isConfigured (s : CommandSection) : Bool :=
  !s.command.isEmpty

/-- The transient files of a project that names none: what is compiled, and copies of editors. -/
def CleanSection.defaultPatterns : List String := ["*.pyc", "*.pyo", "*~"]

/-- Which files are transient. -/
structure CleanSection where
  patterns : List String := CleanSection.defaultPatterns
deriving DecidableEq, Repr

/-- Which files are installed, and where. -/
structure InstallSection where
  bin : List String := []
  lib : List String := []
  etc : List String := []
  bindir : Option Path := none
  libdir : Option Path := none
  etcdir : Option Path := none
deriving DecidableEq, Repr

/-- The configuration of a project. -/
structure Configuration where
  package : PackageSection := {}
  manifest : ManifestSection := {}
  versionControl : VersionControlSection := {}
  builder : BuilderSection := {}
  build : CommandSection := {}
  verify : CommandSection := {}
  clean : CleanSection := {}
  install : InstallSection := {}
deriving DecidableEq, Repr

/-- Where the configuration of a project may stand, in the order in which it is looked for. -/
def Configuration.fileNames : List Path :=
  [⟨"rpm-rail.toml"⟩, ⟨".rpm-rail.toml"⟩, ⟨".config/rpm-rail.toml"⟩]

end RpmRelease
