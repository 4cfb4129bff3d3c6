import RpmRelease.FileSystem.Operation

/-!
# Programs on the file system

A `Storage` program reads and changes a file system on behalf of a caller.  When it fails, what it
has changed so far stays changed.

The programs here are the usual compounds of single operations: creating a directory together with
the directories above it, copying a file with its mode, and removing a whole tree.
-/

set_option autoImplicit false

namespace RpmRelease

/-- A program on the file system that may fail with an error of some sort. -/
abbrev Storage (ε α : Type) : Type := ReaderT Caller (ExceptT ε (StateM FileSystem)) α

namespace Storage

variable {ε α : Type}

/-- Runs a program: its outcome and the file system that it leaves. -/
def exec (program : Storage ε α) (caller : Caller) (fs : FileSystem) :
    Except ε α × FileSystem :=
  program caller fs

/-- The program that runs like this. -/
def ofExec (f : Caller → FileSystem → Except ε α × FileSystem) : Storage ε α := f

/-- Asks something of the present file system. -/
def query (f : Caller → FileSystem → Except ε α) : Storage ε α :=
  ofExec fun caller fs => (f caller fs, fs)

/-- Makes a single change. -/
def change (f : Caller → FileSystem → Except ε FileSystem) : Storage ε Unit :=
  ofExec fun caller fs =>
    match f caller fs with
    | .ok fs => (.ok (), fs)
    | .error e => (.error e, fs)

/-- The outcome of a program as a value. -/
def attempt {δ : Type} (program : Storage ε α) : Storage δ (Except ε α) :=
  ofExec fun caller fs =>
    let (outcome, fs) := program.exec caller fs
    (.ok outcome, fs)

/-- The program with its errors turned into others. -/
def mapError {δ : Type} (f : ε → δ) (program : Storage ε α) : Storage δ α :=
  ofExec fun caller fs =>
    let (outcome, fs) := program.exec caller fs
    (outcome.mapError f, fs)

/-- Does something for each item in turn, and adds up the counts. -/
def countOver {ι : Type} (program : ι → Storage ε Nat) : List ι → Storage ε Nat
  | [] => pure 0
  | item :: rest => do
    let count ← program item
    return count + (← countOver program rest)

/-- Whether a path leads to a directory. -/
def isDirectory (path : Path) : Storage ε Bool :=
  query fun caller fs => .ok (fs.isDirectory caller path)

/-- Whether a path leads to a regular file. -/
def isFile (path : Path) : Storage ε Bool :=
  query fun caller fs => .ok (fs.isFile caller path)

/-- Creates a directory, which may be there already. -/
def ensureDirectory (path : Path) : Storage FileError Unit := do
  match ← attempt (change fun caller fs => fs.makeDirectory caller path) with
  | .ok () => pure ()
  | .error e => if !(← isDirectory path) then throw e

/-- Creates the first directory of a list of ancestors, and those behind it where they are
missing. -/
def createAncestors : List Path → Storage FileError Unit
  | [] => pure ()
  | path :: above => do
    if path.text.isEmpty then return
    match ← attempt (change fun caller fs => fs.makeDirectory caller path) with
    | .ok () => pure ()
    | .error e =>
      if e.kind == .notFound then
        if above.isEmpty then throw e
        createAncestors above
        ensureDirectory path
      else if !(← isDirectory path) then throw e

/-- Creates a directory and the directories above it that are missing. -/
def createDirectories (path : Path) : Storage FileError Unit :=
  createAncestors path.ancestors

/-- Writes a file, created when it is not there. -/
def writeFile (path : Path) (content : Bytes) : Storage FileError Unit := do
  change fun caller fs => do
    let (l, fs) ← fs.openWrite caller Mode.file path
    return fs.fill caller l content

/-- Copies a file with its mode.  The destination is emptied before the contents are read, so a
file copied onto itself ends up empty. -/
def copyFile (source destination : Path) : Storage FileError Unit :=
  change fun caller fs => do
    let (origin, node) ← Lookup.find caller fs true source
    if !caller.may .read node then throw (.system .accessDenied)
    if node.kind != .file then
      throw (.custom .invalidInput
        "the source path is neither a regular file nor a symlink to a regular file")
    let (target, fs) ← fs.openWrite caller node.mode destination
    let fs :=
      match fs.get? target with
      | some opened => fs.set target (opened.setMode node.mode)
      | none => fs
    let content :=
      match fs.get? origin with
      | some (.file _ _ content) => content
      | _ => []
    return if content.isEmpty then fs else fs.fill caller target content

/-- How many levels of nodes there are below a location. -/
def depthBelow (fs : FileSystem) (l : Location) : Nat :=
  (fs.below l).foldl (fun depth (names, _) => max depth names.length) 0

/-- Removes everything in the directory at a location, up to a depth. -/
def emptyDirectory (depth : Nat) (l : Location) : Storage FileError Unit := do
  match depth with
  | 0 => pure ()
  | depth + 1 =>
    let entries ← query fun caller fs =>
      match fs.get? l with
      | some node =>
        if caller.may .read node then .ok (fs.children l) else .error (.system .accessDenied)
      | none => .error (.system .noEntry)
    entries.forM fun (name, node) => do
      -- a directory has to be open for both, to reach an entry and to remove it
      if node.kind == .directory then
        query fun caller fs => Lookup.enter caller fs l
        emptyDirectory depth (l ++ [name])
      query fun caller fs => Lookup.enter caller fs l
      query fun caller fs => fs.checkWritable caller l
      modify (·.erase (l ++ [name]))

/-- Removes a directory and everything in it; of a link, only the link. -/
def removeAll (path : Path) : Storage FileError Unit := do
  let (l, node) ← query fun caller fs => Lookup.find caller fs false path
  match node.kind with
  | .link => change fun caller fs => fs.removeFile caller path
  | .file => throw (.system .notDirectory)
  | .directory => do
    emptyDirectory (depthBelow (← get) l + 1) l
    change fun caller fs => fs.removeDirectory caller path

end Storage

end RpmRelease
