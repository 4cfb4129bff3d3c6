import RpmRelease.FileSystem.Basic
import RpmRelease.FileSystem.Error
import RpmRelease.Path

/-!
# Following a path

A path is followed step by step from the root or from the caller's directory.  A name leads into a
directory that the caller may enter, two dots lead to the directory above, and a slash at the end
asks for a directory.  A symbolic link on the way is replaced by the steps of its target, at most
forty times; a link at the very end is followed only on request.

`locate` says which node a path leads to, or which name in which directory is still vacant.
`locateEntry` stops before the last name, for operations on the entry itself.
-/

set_option autoImplicit false

namespace RpmRelease

namespace Lookup

/-- One step of a path. -/
inductive Step
  /-- stay -/
  | here
  /-- go to the directory above -/
  | up
  /-- go to an entry of the directory -/
  | name (text : String)
  /-- stay, but only in a directory -/
  | directory
deriving DecidableEq, Repr

/-- The most links that are followed for one path. -/
def maxLinks : Nat := 40

/-- The most bytes of a name. -/
def maxName : Nat := 255

/-- The first length, in bytes, that is too long for a path. -/
def maxPath : Nat := 4096

/-- The step that a text between slashes asks for; none for an empty text. -/
def Step.ofSegment (segment : List Char) : Option Step :=
  if segment.isEmpty then none
  else if segment = ['.'] then some .here
  else if segment = ['.', '.'] then some .up
  else some (.name (String.ofList segment))

/-- The steps of a path, without the root. -/
def steps (path : String) : List Step :=
  let found := (Text.splitWhen (· == '/') path.toList).filterMap Step.ofSegment
  if path.toList.getLast? == some '/' && !found.isEmpty then found ++ [.directory] else found

/-- Where a path begins. -/
def start (caller : Caller) (path : String) : Location :=
  if path.toList.head? == some '/' then [] else caller.directory

/-- Checks the text of a path before it is followed. -/
def checkText (path : String) : Except FileError Unit :=
  if path.toList.contains '\x00' then .error .nulInPath
  else if path.isEmpty then .error (.system .noEntry)
  else if maxPath ≤ path.utf8ByteSize then .error (.system .nameTooLong)
  else .ok ()

/-- Where a path leads. -/
inductive Place
  /-- to a node -/
  | occupied (location : Location) (node : Node)
  /-- to a name that a directory does not have; `slash` tells whether a slash follows the name -/
  | vacant (directory : Location) (name : String) (slash : Bool)
deriving DecidableEq

/-- The node at a location, which has to be a directory that the caller may enter. -/
def enter (caller : Caller) (fs : FileSystem) (l : Location) : Except FileError Unit :=
  match fs.get? l with
  | none => .error (.system .noEntry)
  | some node =>
    if node.kind != .directory then .error (.system .notDirectory)
    else if caller.may .enter node then .ok ()
    else .error (.system .accessDenied)

/-- Follows steps from a location.  `follow` says whether a link at the end is followed, `behindLink`
how a walk goes on when a link has been replaced by the steps of its target. -/
def walkSteps (caller : Caller) (fs : FileSystem) (follow : Bool)
    (behindLink : Location → List Step → Except FileError Place) (l : Location) :
    List Step → Except FileError Place
  | [] =>
    match fs.get? l with
    | some node => .ok (.occupied l node)
    | none => .error (.system .noEntry)
  | .directory :: rest =>
    match fs.get? l with
    | some node =>
      if node.kind != .directory then .error (.system .notDirectory)
      else walkSteps caller fs follow behindLink l rest
    | none => .error (.system .noEntry)
  | .here :: rest => do
    enter caller fs l
    walkSteps caller fs follow behindLink l rest
  | .up :: rest => do
    enter caller fs l
    walkSteps caller fs follow behindLink l.dropLast rest
  | .name name :: rest => do
    enter caller fs l
    if maxName < name.utf8ByteSize then throw (.system .nameTooLong)
    match fs.get? (l ++ [name]) with
    | none =>
      match rest with
      | [] => return .vacant l name false
      | [.directory] => return .vacant l name true
      | _ => throw (.system .noEntry)
    | some (.link target time) =>
      if rest.isEmpty && !follow then return .occupied (l ++ [name]) (.link target time)
      else
        let origin := if target.toList.head? == some '/' then [] else l
        behindLink origin (steps target ++ rest)
    | some _ => walkSteps caller fs follow behindLink (l ++ [name]) rest

/-- Follows steps from a location.  `follow` says whether a link at the end is followed, `links`
how many links may still be followed. -/
def walk (caller : Caller) (fs : FileSystem) (follow : Bool) :
    Nat → Location → List Step → Except FileError Place
  | 0 => walkSteps caller fs follow fun _ _ => .error (.system .tooManyLinks)
  | links + 1 => walkSteps caller fs follow (walk caller fs follow links)

/-- Where a path leads, with a link at its end followed or not. -/
def locate (caller : Caller) (fs : FileSystem) (follow : Bool) (path : Path) :
    Except FileError Place := do
  checkText path.text
  walk caller fs follow maxLinks (start caller path.text) (steps path.text)

/-- The node that a path leads to, and its location. -/
def find (caller : Caller) (fs : FileSystem) (follow : Bool) (path : Path) :
    Except FileError (Location × Node) := do
  match ← locate caller fs follow path with
  | .occupied l node => return (l, node)
  | .vacant .. => throw (.system .noEntry)

/-- The last step of a path. -/
inductive Ending
  /-- the path leads to the root, or ends in a dot or two dots -/
  | directory (step : Step)
  /-- the path ends in a name, with or without a slash behind it -/
  | name (text : String) (slash : Bool)
deriving DecidableEq

/-- Cuts the steps of a path before the last one. -/
def cutLast (steps : List Step) : List Step × Ending :=
  match steps.reverse with
  | .directory :: .name text :: front => (front.reverse, .name text true)
  | .directory :: step :: front => (front.reverse, .directory step)
  | .name text :: front => (front.reverse, .name text false)
  | step :: front => (front.reverse, .directory step)
  | [] => ([], .directory .here)

/-- The directory that holds the last entry of a path, which the caller may enter, and that entry's
name. -/
def locateEntry (caller : Caller) (fs : FileSystem) (path : Path) :
    Except FileError (Location × Ending) := do
  checkText path.text
  let (front, ending) := cutLast (steps path.text)
  match ← walk caller fs true maxLinks (start caller path.text) front with
  | .vacant .. => throw (.system .noEntry)
  | .occupied l _ =>
    enter caller fs l
    match ending with
    | .name text _ => if maxName < text.utf8ByteSize then throw (.system .nameTooLong)
    | .directory _ => pure ()
    return (l, ending)

end Lookup

namespace FileSystem

/-- The node that a path leads to, every link followed. -/
def stat (caller : Caller) (fs : FileSystem) (path : Path) : Except FileError Node :=
  (Lookup.find caller fs true path).map (·.2)

/-- The node that a path leads to, a link at its end taken as it is. -/
def lstat (caller : Caller) (fs : FileSystem) (path : Path) : Except FileError Node :=
  (Lookup.find caller fs false path).map (·.2)

/-- Whether a path leads to anything. -/
def reaches (caller : Caller) (fs : FileSystem) (path : Path) : Bool :=
  (fs.stat caller path).isOk

/-- Whether a path leads to a directory. -/
def isDirectory (caller : Caller) (fs : FileSystem) (path : Path) : Bool :=
  match fs.stat caller path with
  | .ok node => node.kind == .directory
  | .error _ => false

/-- Whether a path leads to a regular file. -/
def isFile (caller : Caller) (fs : FileSystem) (path : Path) : Bool :=
  match fs.stat caller path with
  | .ok node => node.kind == .file
  | .error _ => false

/-- The location that a path leads to, written as a path. -/
def canonical (caller : Caller) (fs : FileSystem) (path : Path) : Except FileError Path :=
  (Lookup.find caller fs true path).map fun (l, _) =>
    ⟨"/" ++ String.ofList (List.intercalate ['/'] (l.map String.toList))⟩

/-- The target of a link. -/
def readLink (caller : Caller) (fs : FileSystem) (path : Path) : Except FileError Path := do
  match ← fs.lstat caller path with
  | .link target _ => return ⟨target⟩
  | _ => throw (.system .invalidArgument)

/-- The entries of a directory, by name. -/
def readDirectory (caller : Caller) (fs : FileSystem) (path : Path) :
    Except FileError (List (String × Node)) := do
  let (l, node) ← Lookup.find caller fs true path
  if node.kind != .directory then throw (.system .notDirectory)
  if !caller.may .read node then throw (.system .accessDenied)
  return fs.children l

/-- Opens a file for reading: a directory can be opened, but not read. -/
def openRead (caller : Caller) (fs : FileSystem) (path : Path) : Except FileError Node := do
  let node ← fs.stat caller path
  if caller.may .read node then return node else throw (.system .accessDenied)

/-- The contents of a file. -/
def read (caller : Caller) (fs : FileSystem) (path : Path) : Except FileError Bytes := do
  match ← fs.openRead caller path with
  | .file _ _ content => return content
  | _ => throw (.system .isDirectory)

/-- The text in a file. -/
def readText (caller : Caller) (fs : FileSystem) (path : Path) : Except FileError (List Char) := do
  match Text.Utf8.decode (← fs.read caller path) with
  | some text => return text
  | none => throw .notText

end FileSystem

end RpmRelease
