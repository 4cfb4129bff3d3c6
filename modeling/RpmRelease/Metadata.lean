import RpmRelease.Tag

/-!
# Release metadata

Name, version and release of the package that is being released.  Every artifact name is derived
from these three texts.
-/

set_option autoImplicit false

namespace RpmRelease

/-- Name, version and release of a package. -/
structure Metadata where
  name : String
  version : String
  release : String
deriving DecidableEq, Repr

namespace Metadata

/-- The stem that the staging directory and the archives share: name and version. -/
def stem (m : Metadata) : String :=
  m.name ++ "-" ++ m.version

/-- Version and release. -/
def fullVersion (m : Metadata) : String :=
  m.version ++ "-" ++ m.release

/-- The tag that labels this release. -/
def tag (m : Metadata) : Tag :=
  Tag.format m.version m.release

end Metadata

end RpmRelease
