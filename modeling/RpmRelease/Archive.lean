import RpmRelease.Digest.Sha256
import RpmRelease.FileSystem.Copy
import RpmRelease.Release
import RpmRelease.Tar.Writer
import RpmRelease.World

/-!
# Archiving the staging directory

The staging directory is written into a tar file, entry by entry in the order of their paths; the
tar file is compressed; then the tar file and the staging directory are removed.  Every entry goes
below a directory named after the release.  With a fixed time for all entries the archive depends on
nothing but names, modes, contents and link targets.

A failure at any step leaves the later steps undone.
-/

set_option autoImplicit false

namespace RpmRelease.Archive

/-- What archiving has made. -/
structure Report where
  path : Path
  /-- how many entries there are, the directory at the top included -/
  entries : Nat
  /-- the digest of the compressed archive -/
  digest : String
deriving DecidableEq, Repr

/-- The time that a setting fixes for all entries; nothing when there is no setting or it is no
number. -/
def fixedTime (setting : Option String) : Option Nat :=
  setting.bind fun text => Text.readUnsigned (Text.trim text.toList)

/-- The path of something in the staging directory, from there, as it is written. -/
def relative (staging path : Path) : String :=
  ((path.below? staging).getD path).text

/-- The name of an entry in the archive. -/
def entryName (top rest : String) : Path :=
  if rest.isEmpty then ⟨top⟩
  else ⟨top ++ "/" ++ String.ofList (rest.toList.map fun c => if c = '\\' then '/' else c)⟩

/-- The time of an entry: the fixed one, or that of the node; no time before the epoch. -/
def entryTime (fixed : Option Nat) (node : Node) : Nat :=
  fixed.getD node.time.toNat

/-- What goes into the archive for a path in the staging directory. -/
def item (caller : Caller) (fs : FileSystem) (staging : Path) (top : String) (fixed : Option Nat)
    (path : Path) : Except FileError Tar.Item := do
  let node ← fs.lstat caller path
  let body ←
    match node with
    | .directory .. => pure .directory
    | .link .. => .link <$> fs.readLink caller path
    | .file .. => .file <$> fs.read caller path
  return {
    path := entryName top (relative staging path)
    mode := node.mode.toNat
    time := entryTime fixed node
    body }

/-- The paths in the staging directory in the order in which they are archived. -/
def sorted (staging : Path) (paths : List Path) : List Path :=
  paths.mergeSort fun a b => relative staging a ≤ relative staging b

/-- Writes everything in the staging directory, and counts the entries. -/
def writeEntries (caller : Caller) (fs : FileSystem) (staging : Path) (top : String)
    (fixed : Option Nat) : Tar.Writer Nat := do
  match fs.walk caller staging with
  | .error e => throw e.toFileError
  | .ok paths =>
    let paths := sorted staging paths
    paths.forM fun path => do
      match item caller fs staging top fixed path with
      | .ok item => Tar.Writer.append item
      | .error e => throw e
    return paths.length

/-- Writes the staging directory into a tar file, and counts the entries.  When an entry cannot be
written, the file ends behind those before it. -/
def writeTar (staging : Path) (top : String) (out : Path) (fixed : Option Nat) :
    Storage FileError Nat := do
  if !(← Storage.isDirectory staging) then
    throw (.custom .notFound ("staging directory " ++ staging.text ++ " does not exist"))
  Storage.writeFile out []
  Storage.ofExec fun caller fs =>
    let (outcome, written) := (writeEntries caller fs staging top fixed).run []
    match Lookup.find caller fs true out with
    | .ok (l, _) => (outcome, fs.fill caller l (written ++ Tar.ending))
    | .error e => (.error e, fs)

/-- Compresses a file into another one.  The second file is emptied before the first one is read. -/
def compress (codec : Codec) (source out : Path) : Storage FileError Unit :=
  Storage.change fun caller fs => do
    let _ ← fs.openRead caller source
    let (l, fs) ← fs.openWrite caller Mode.file out
    let content ← fs.read caller source
    return fs.fill caller l (codec.compress content)

/-- The digest of a file. -/
def digestFile (path : Path) : Storage FileError String :=
  Storage.query fun caller fs => (fs.read caller path).map Sha256.digest

/-- Turns the errors of a step into a failure that names the file it was about. -/
def reporting {α : Type} (path : Path) (program : Storage FileError α) : Storage Failure α :=
  program.mapError fun e => .stage (.archiveNotWritten path e)

/-- Archives the staging directory of a release and removes it. -/
def create (codec : Codec) (fixed : Option Nat) (r : Release) : Storage Failure Report := do
  let staging := r.stagingDirectory
  let entries ← reporting r.tarPath (writeTar staging r.metadata.stem r.tarPath fixed)
  reporting r.archivePath (compress codec r.tarPath r.archivePath)
  let digest ← reporting r.archivePath (digestFile r.archivePath)
  reporting r.tarPath (Storage.change fun caller fs => fs.removeFile caller r.tarPath)
  reporting staging (Storage.removeAll staging)
  return { path := r.archivePath, entries, digest }

end RpmRelease.Archive
