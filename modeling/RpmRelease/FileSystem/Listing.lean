import RpmRelease.FileSystem.Lookup

/-!
# Listings

A listing tells what an observer sees below a directory: every entry with its path from there, in
the order of the bytes of these paths.  What is in a directory that the observer cannot list stays
out of sight.  There is no listing when an entry that is in sight cannot be read.
-/

set_option autoImplicit false

namespace RpmRelease

namespace FileSystem

/-- The entries below a directory, with the paths that begin with `above`; `steps` directories
deep. -/
def entriesBelow (caller : Caller) (fs : FileSystem) (base : Path) :
    Nat → String → Option (List (String × Node))
  | 0, _ => some []
  | steps + 1, above =>
    match fs.readDirectory caller (if above.isEmpty then base else base.join ⟨above⟩) with
    | .error _ => some []
    | .ok entries => do
      let found ← entries.mapM fun (name, _) => do
        let path := if above.isEmpty then name else above ++ "/" ++ name
        let node ← (fs.lstat caller (base.join ⟨path⟩)).toOption
        match node.kind with
        | .directory => return (path, node) :: (← entriesBelow caller fs base steps path)
        | .file =>
          if (fs.read caller (base.join ⟨path⟩)).isOk then return [(path, node)] else none
        | .link => return [(path, node)]
      return found.flatten

/-- What an observer sees below a directory. -/
def listing (caller : Caller) (fs : FileSystem) (base : Path) : Option (List (String × Node)) :=
  (entriesBelow caller fs base Lookup.maxPath "").map fun entries =>
    entries.mergeSort fun a b => a.1 ≤ b.1

end FileSystem

end RpmRelease
