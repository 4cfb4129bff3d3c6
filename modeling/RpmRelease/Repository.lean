import RpmRelease.Changelog
import RpmRelease.Tar.Unpack
import RpmRelease.World

/-!
# The repository

Version control is done by the program `git`, which is started in the root of the project with a few
settings of its own.  What it writes is captured; when it fails, its last words become part of the
failure.

Nothing is committed when there is nothing to commit, an existing tag is not moved unless that is
asked for, and nothing is exported for a tag that does not exist.
-/

set_option autoImplicit false

namespace RpmRelease

/-- A repository, known by a directory in it. -/
structure Repository where
  path : Path
deriving DecidableEq, Repr

namespace Repository

/-- The arguments in front of every command. -/
def settings (repository : Repository) : List String :=
  ["git", "-C", repository.path.text, "-c", "advice.detachedHead=false",
    "-c", "core.quotePath=false"]

/-- Starts a command and waits for its end. -/
def start (argv : List String) (verb : String) : Session Response := do
  match ← Session.call none argv with
  | .ok response => return response
  | .error e => throw ((Failure.file e).context ("Failed to execute git " ++ verb))

/-- Whether a text has another one in it. -/
def mentions (part : List Char) : List Char → Bool
  | [] => part.isEmpty
  | c :: text => part.isPrefixOf (c :: text) || mentions part text

/-- Opens the repository that a directory is in. -/
def openAt (path : Path) : Session Repository := do
  let response ← start ["git", "-C", path.text, "rev-parse", "--show-toplevel"] "rev-parse"
  if response.succeeded then return ⟨path⟩
  let words := Text.Utf8.decodeLossy response.stderr
  if mentions "not a git repository".toList words then throw (.repository (.notFound path))
  throw (.plain ("Failed to open git repository: " ++ String.ofList words))

/-- Runs a command that has to succeed, and gives what it wrote to its standard output. -/
def run (repository : Repository) (args : List String) : Session Bytes := do
  let response ← start (repository.settings ++ args) (args.headD "")
  if response.succeeded then return response.stdout
  throw (.repository (.commandFailed ("git " ++ " ".intercalate args)
    (String.ofList (Text.trimEnd (Text.Utf8.decodeLossy response.stderr))) response.ending))

/-- Runs a command for whether it succeeds. -/
def succeeds (repository : Repository) (args : List String) : Session Bool := do
  let response ← start (repository.settings ++ args) (args.headD "")
  return response.succeeded

/-- Whether tracked files have changes that are not committed. -/
def hasPendingChanges (repository : Repository) : Session Bool := do
  let listed ← repository.run ["status", "--porcelain", "--untracked-files=no"]
  return !listed.isEmpty

/-- Commits all changes of tracked files, and tells whether there were any. -/
def commitAll (repository : Repository) (message : String) : Session Bool := do
  if !(← repository.hasPendingChanges) then return false
  let _ ← repository.run ["commit", "-a", "-m", message]
  return true

/-- Commits one file, and tells whether it had changed. -/
def commitPath (repository : Repository) (path : Path) (message : String) : Session Bool := do
  let _ ← repository.run ["add", "--", path.text]
  if ← repository.succeeds ["diff", "--cached", "--quiet", "--", path.text] then return false
  let _ ← repository.run ["commit", "-m", message, "--", path.text]
  return true

/-- Whether a tag exists. -/
def tagExists (repository : Repository) (tag : Tag) : Session Bool :=
  repository.succeeds ["rev-parse", "--verify", "--quiet", "refs/tags/" ++ tag.text]

/-- Creates a tag with a message.  A tag that exists is moved if `force` says so, else refused. -/
def createTag (repository : Repository) (tag : Tag) (message : String) (force : Bool) :
    Session Unit := do
  if !force then
    if ← repository.tagExists tag then throw (.repository (.tagExists tag))
  let _ ← repository.run
    (["tag", "-a"] ++ (if force then ["-f"] else []) ++ [tag.text, "-m", message])

/-- What a command that lists commits wrote, as the names of the commits. -/
def commitNames (listed : Bytes) : List String :=
  let names := (Text.lines (Text.Utf8.decodeLossy listed)).map Text.trim
  (names.filter (!·.isEmpty)).map String.ofList

/-- The names of all commits, newest first. -/
def commits (repository : Repository) : Session (List String) := do
  return commitNames (← repository.run ["rev-list", "HEAD"])

/-- The commit of a name. -/
def commit (repository : Repository) (name : String) : Session Commit := do
  match Commit.ofLog (← repository.run ["log", "-1", "--format=%an%n%ae%n%at%n%B", name]) with
  | .ok commit => return commit
  | .error defect => throw (.plain defect.message)

/-- All commits, newest first.  They are fetched one after the other, up to the first that cannot be
fetched, whose failure is that of the whole.  No fetch waits for another one, so they may as well run
side by side; then the commits are the same, and so are their order and whether there is a failure, but
behind the first fetch that fails others may have been started. -/
def history (repository : Repository) : Session (List Commit) := do
  if !(← repository.succeeds ["rev-parse", "--verify", "--quiet", "HEAD"]) then
    throw (.repository (.noHistory repository.path))
  (← repository.commits).mapM repository.commit

/-- The name of the tree below a part of the repository as it was tagged. -/
def treeName (tag : Tag) (part : Path) : String :=
  if part.text.isEmpty then tag.text else tag.text ++ ":" ++ part.text

/-- Unpacks the members of an archive, and counts them; remarks on all members do not count. -/
def unpackAll (destination : Path) (archive : Bytes) : Storage Failure Nat := do
  let (members, defect) := Tar.members archive
  let counted := members.filter fun m => Tar.kindOf m.header != Tar.Kind.globalRemarks
  counted.forM fun m => (m.unpack destination).mapError fun e =>
    (Failure.file e).context ("Failed to export into " ++ destination.text)
  match defect with
  | some e => throw ((Failure.file e).context "Failed to read git archive entry")
  | none => return counted.length

/-- Writes a part of the repository as it was tagged into a directory, and counts the entries. -/
def exportTag (repository : Repository) (tag : Tag) (part destination : Path) : Session Nat := do
  if !(← repository.tagExists tag) then throw (.repository (.tagNotFound tag))
  let tree := treeName tag part
  let _ ← repository.run ["ls-tree", "-r", "--name-only", tree]
  let archive ← repository.run ["archive", "--format=tar", tree]
  Session.files (unpackAll destination archive)

end Repository

end RpmRelease
