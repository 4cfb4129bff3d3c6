import RpmRelease.FileSystem.Lookup
import RpmRelease.Glob.Pattern

/-!
# The paths that a pattern stands for

A pattern is cut into components at its slashes, and each component is matched against the names in
one directory.  A component without wildcards is looked up directly.  Two stars stand for any
number of directories, links to directories included, and at the end of a pattern for every
directory below.  The names `.` and `..` fit only components that begin with a dot.

`expand` finds the paths below a root; the root itself is taken literally, whatever characters it
consists of.
-/

set_option autoImplicit false

namespace RpmRelease.Glob

/-- One component of a pattern. -/
inductive Component
  /-- exactly this name -/
  | literal (text : List Char)
  /-- any number of directories -/
  | directories
  /-- every name that fits -/
  | wild (tokens : List Token)
deriving DecidableEq

namespace Component

/-- Reads a component. -/
def read (text : List Char) : Except PatternError Component :=
  if text = ['*', '*'] then .ok .directories
  else (Token.read 0 true text).map fun tokens =>
    match Token.literal? tokens with
    | some text => literal text
    | none => wild tokens

/-- Whether a name fits a component. -/
def fits (name : List Char) : Component → Bool
  | literal text => name == text
  | directories => true
  | wild tokens => Token.fits tokens name

/-- Whether the names `.` and `..` may fit a component. -/
def beginsWithDot : Component → Bool
  | wild (.char '.' :: _) => true
  | _ => false

end Component

/-- A pattern with an absolute path in front. -/
structure Pattern where
  components : List Component
  /-- whether only directories are asked for -/
  directoriesOnly : Bool

/-- Why a pattern was not read. -/
inductive ReadError
  /-- the pattern behind its root has a defect; the position counts the root, which is so long -/
  | whole (root : Nat) (error : PatternError)
  /-- a component that slashes cut out has a defect -/
  | component (error : PatternError)
deriving DecidableEq, Repr

/-- Reads a pattern behind an absolute path that stands for itself. -/
def Pattern.read (root pattern : List Char) : Except ReadError Pattern := do
  let text := root ++ pattern
  (check text).mapError (.whole root.length)
  let pieces := Text.splitWhen (· == '/') text.tail
  let slash := text.getLast? == some '/'
  let components ← ((if slash then pieces.dropLast else pieces).mapM Component.read).mapError .component
  return ⟨components, slash⟩

/-- A directory that could not be listed. -/
structure ListError where
  path : Path
  cause : FileError
deriving DecidableEq, Repr

/-- A path on the way to a match. -/
structure Candidate where
  path : Path
  isDirectory : Bool

section Search

variable (caller : Caller) (fs : FileSystem)

/-- A path as a candidate. -/
def Candidate.ofPath (path : Path) : Candidate :=
  ⟨path, fs.isDirectory caller path⟩

/-- An entry of a directory as a candidate. -/
def Candidate.ofEntry (directory : Path) (name : String) (node : Node) : Candidate :=
  let path := directory.join ⟨name⟩
  match node.kind with
  | .directory => ⟨path, true⟩
  | .file => ⟨path, false⟩
  | .link => ofPath caller fs path

/-- Whether something stands at a path, be it a link that leads nowhere. -/
def stands (path : Path) : Bool :=
  fs.reaches caller path || (fs.lstat caller path).isOk

/-- The paths below a candidate that fit the components.  Every step takes a component away or goes
one directory down; `steps` bounds their number. -/
def search (directoriesOnly : Bool) (steps : Nat) (pattern : List Component) (c : Candidate) :
    Except ListError (List Path) :=
  match steps, pattern with
  | 0, _ => .ok []
  | _, [] => .ok (if directoriesOnly && !c.isDirectory then [] else [c.path])
  | steps + 1, .literal text :: rest =>
    let next := c.path.join ⟨String.ofList text⟩
    let special := text == ['.'] || text == ['.', '.']
    if if special then c.isDirectory else stands caller fs next then
      search directoriesOnly steps rest (.ofPath caller fs next)
    else .ok []
  | steps + 1, first :: rest =>
    if !c.isDirectory then .ok []
    else
      match fs.readDirectory caller c.path with
      | .error e => .error ⟨c.path, e⟩
      | .ok entries => do
        let specials := if first.beginsWithDot then ["..", "."] else []
        let above ← (specials.filter fun name => first.fits name.toList).mapM fun name =>
          search directoriesOnly steps rest (.ofPath caller fs (c.path.join ⟨name⟩))
        let inside ← entries.mapM fun (name, node) => do
          let child := Candidate.ofEntry caller fs c.path name node
          -- the components that the name of the child itself is matched against
          let own := if first == .directories then rest.dropWhile (· == .directories) else first :: rest
          let found ←
            match own with
            | [] => pure (if child.isDirectory then [child.path] else [])
            | component :: rest =>
              if component.fits name.toList then search directoriesOnly steps rest child else pure []
          let deeper ←
            if first == .directories && child.isDirectory then
              search directoriesOnly steps (.directories :: own) child
            else pure []
          return found ++ deeper
        return (above ++ inside).flatten

/-- The paths that fit a pattern, in order. -/
def Pattern.paths (pattern : Pattern) : Except ListError (List Path) :=
  (search caller fs pattern.directoriesOnly (pattern.components.length + Lookup.maxPath)
    pattern.components (.ofPath caller fs ⟨"/"⟩)).map Path.sort

end Search

/-- Why a pattern gave no list of paths. -/
inductive Error
  | unreadable (error : ReadError)
  | unlisted (error : ListError)
deriving DecidableEq, Repr

/-- Whether a text has wildcards. -/
def hasWildcards (pattern : String) : Bool :=
  pattern.toList.any fun c => c == '*' || c == '?' || c == '['

/-- A root as a pattern that stands for nothing but this root, with one slash at its end. -/
def rootPattern (root : Path) : List Char :=
  ((escape root.text.toList).reverse.dropWhile (· == '/')).reverse ++ ['/']

/-- The paths below a root that a pattern stands for, in order.  A text without wildcards stands for
one path, if there is something. -/
def expand (caller : Caller) (fs : FileSystem) (root : Path) (pattern : String) :
    Except Error (List Path) :=
  if hasWildcards pattern then do
    let compiled ← (Pattern.read (rootPattern root) pattern.toList).mapError .unreadable
    (compiled.paths caller fs).mapError .unlisted
  else
    let path := root.join ⟨pattern⟩
    .ok (if (fs.lstat caller path).isOk then [path] else [])

end RpmRelease.Glob
