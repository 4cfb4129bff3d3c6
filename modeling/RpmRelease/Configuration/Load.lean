import RpmRelease.Failure
import RpmRelease.FileSystem.Storage

/-!
# Finding the configuration and the descriptor of a project

Without a configuration file a project has the default configuration.  Without a configured
descriptor the only file in the project root that ends in `.spec` is the descriptor.
-/

set_option autoImplicit false

namespace RpmRelease

namespace Configuration

/-- The first configuration file that there is in a root. -/
def find? (root : Path) : Storage Failure (Option Path) :=
  Storage.query fun caller fs =>
    .ok ((fileNames.map root.join).find? (fs.reaches caller))

/-- The configuration of the project in a root; from a given file, if there is one. -/
def load (root : Path) (given : Option Path) : Storage Failure Configuration := do
  let found ←
    match given with
    | some path => pure (some path)
    | none => find? root
  match found with
  | none => return {}
  | some path => Storage.query fun caller fs => do
    let text ← (fs.readText caller path).mapError fun e =>
      (Failure.file e).context ("Failed to read config from " ++ path.text)
    (ofText text).mapError fun rejection =>
      (Failure.about (.configuration rejection)).context
        ("Failed to parse config from " ++ path.text)

/-- Whether a path leads to a file that may be a descriptor. -/
def isDescriptor (caller : Caller) (fs : FileSystem) (path : Path) : Bool :=
  fs.isFile caller path && path.extension? == some "spec"

/-- The descriptor of the project in a root. -/
def descriptorPath (configuration : Configuration) (root : Path) : Storage Failure Path :=
  match configuration.package.descriptor with
  | some descriptor => pure (root.join descriptor)
  | none => Storage.query fun caller fs => do
    let entries ← (fs.readDirectory caller root).mapError fun e =>
      (Failure.file e).context ("Failed to list " ++ root.text)
    let paths := entries.map fun (name, _) => root.join ⟨name⟩
    match Path.sort (paths.filter (isDescriptor caller fs)) with
    | [] => throw (.configuration (.noDescriptor root))
    | [descriptor] => return descriptor
    | candidates => throw (.configuration (.severalDescriptors candidates))

end Configuration

end RpmRelease
