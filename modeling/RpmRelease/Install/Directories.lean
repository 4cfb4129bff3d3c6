import RpmRelease.Release

/-!
# Where files are installed

The user may give each directory, the configuration may give it, and otherwise it follows from the
name of the package.  With a destination root all directories, absolute ones too, are taken below
that root.
-/

set_option autoImplicit false

namespace RpmRelease

/-- The directories that the user has given. -/
structure InstallDirectories where
  /-- the root below which everything is installed -/
  destination : Option Path := none
  bindir : Option Path := none
  libdir : Option Path := none
  etcdir : Option Path := none
deriving DecidableEq, Repr

/-- The directory for each set of files, without the destination root. -/
structure ResolvedDirectories where
  bindir : Path
  libdir : Path
  etcdir : Path
deriving DecidableEq, Repr

namespace InstallDirectories

/-- The directories for a release: given ones first, then configured ones, then the usual ones. -/
def resolve (given : InstallDirectories) (configured : InstallSection) (name : String) :
    ResolvedDirectories where
  bindir := (given.bindir.or configured.bindir).getD ⟨"/usr/bin"⟩
  libdir := (given.libdir.or configured.libdir).getD (Path.join ⟨"/usr/share"⟩ ⟨name⟩)
  etcdir := (given.etcdir.or configured.etcdir).getD (Path.join ⟨"/etc"⟩ ⟨name⟩)

/-- Where a directory is below the destination root. -/
def target (given : InstallDirectories) (directory : Path) : Path :=
  match given.destination with
  | some destination =>
    destination.join (Path.ofComponents (directory.components.filter (· != .root)))
  | none => directory

end InstallDirectories

end RpmRelease
