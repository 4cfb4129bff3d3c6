import RpmRelease.Calendar
import RpmRelease.Failure
import RpmRelease.FileSystem.Storage

/-!
# The world of a run

A run changes files, starts other programs and writes to the standard output and the standard error
stream.  Everything it can change makes up the `World`; what stays the same for the whole run is its
`Host`.  Other programs may answer anything and change any file, depending on everything that has
been started before.

A `Session` is a program in this world.  When it fails, what it has done so far stays done.
-/

set_option autoImplicit false

namespace RpmRelease

/-- The start of another program: its name, its arguments and the directory it runs in. -/
structure Invocation where
  argv : List String
  directory : Location
deriving DecidableEq, Repr

/-- What another program did, apart from the files it changed. -/
structure Response where
  ending : Ending
  stdout : Bytes
  stderr : Bytes
deriving DecidableEq, Repr

/-- A program that was started, and its answer. -/
structure Exchange where
  invocation : Invocation
  response : Response
deriving DecidableEq, Repr

/-- Whether a program ended with the status zero. -/
def Response.succeeded (r : Response) : Bool :=
  r.ending == some 0

/-- The other programs of a host. -/
structure Programs where
  /-- whether there is a program of this name where programs are looked for -/
  installed : String → Bool
  /-- what a program does, after the invocations that went before -/
  respond : List Invocation → Invocation → Caller → FileSystem → Response × FileSystem

/-- A compression of byte sequences. -/
structure Codec where
  compress : Bytes → Bytes
  decompress : Bytes → Option Bytes

/-- Nothing is lost by compressing. -/
def Codec.IsLossless (codec : Codec) : Prop :=
  ∀ bytes, codec.decompress (codec.compress bytes) = some bytes

/-- What stays the same during a run. -/
structure Host where
  caller : Caller
  programs : Programs
  codec : Codec
  /-- the environment variables -/
  environment : String → Option String
  /-- the present day in universal time -/
  today : Date

/-- What a run can change. -/
structure World where
  files : FileSystem
  /-- the programs that have been started and what they answered, the first one first -/
  exchanges : List Exchange := []
  stdout : Bytes := []
  stderr : Bytes := []

/-- The programs that have been started, the first one first. -/
def World.calls (world : World) : List Invocation :=
  world.exchanges.map (·.invocation)

/-- A program in the world. -/
abbrev Session (α : Type) : Type := ReaderT Host (ExceptT Failure (StateM World)) α

namespace Session

variable {α : Type}

/-- Runs a session: its outcome and the world that it leaves. -/
def exec (session : Session α) (host : Host) (world : World) : Except Failure α × World :=
  session host world

/-- The session that runs like this. -/
def ofExec (f : Host → World → Except Failure α × World) : Session α := f

/-- A program on the files of the world. -/
def files (program : Storage Failure α) : Session α :=
  ofExec fun host world =>
    let (outcome, files) := program.exec host.caller world.files
    (outcome, { world with files })

/-- A program on the files of the world that fails with file errors. -/
def storage (program : Storage FileError α) : Session α :=
  files (program.mapError .file)

/-- The outcome of a session as a value. -/
def attempt (session : Session α) : Session (Except Failure α) :=
  ofExec fun host world =>
    let (outcome, world) := session.exec host world
    (.ok outcome, world)

/-- Writes to the standard output. -/
def writeOut (bytes : Bytes) : Session Unit :=
  modify fun world => { world with stdout := world.stdout ++ bytes }

/-- Writes to the standard error stream. -/
def writeError (bytes : Bytes) : Session Unit :=
  modify fun world => { world with stderr := world.stderr ++ bytes }

/-- Writes a line to the standard output. -/
def print (line : String) : Session Unit :=
  writeOut (Text.Utf8.ofString (line ++ "\n"))

/-- Whether a path leads to a directory. -/
def isDirectory (path : Path) : Session Bool :=
  files (Storage.isDirectory path)

/-- Whether a path leads to a regular file. -/
def isFile (path : Path) : Session Bool :=
  files (Storage.isFile path)

end Session

namespace Invocation

/-- The directory that a program is to run in. -/
def enterDirectory (caller : Caller) (fs : FileSystem) (path : Path) :
    Except FileError Location := do
  let (l, _) ← Lookup.find caller fs true path
  Lookup.enter caller fs l
  return l

/-- Checks that a program can be started by a name.  A name without a slash is looked up among the
installed programs, any other one is the path of a file; no such file is a program here. -/
def checkProgram (installed : String → Bool) (caller : Caller) (fs : FileSystem) (name : String) :
    Except FileError Unit := do
  if name.toList.contains '/' then
    let node ← fs.stat caller ⟨name⟩
    if node.kind != .file || node.mode &&& 0o111#12 == 0 || !caller.may .enter node then
      throw (.system .accessDenied)
    throw (.system .execFormat)
  else if installed name then return ()
  else throw (.system .noEntry)

/-- What is started for an argument list in a directory, the caller's own unless one is given. -/
def prepare (host : Host) (fs : FileSystem) (directory : Option Path) (argv : List String) :
    Except FileError Invocation := do
  if argv.any fun arg => arg.toList.contains '\x00' then
    throw (.custom .invalidInput "nul byte found in provided data")
  let caller := host.caller
  let l ←
    match directory with
    | some path => enterDirectory caller fs path
    | none => pure caller.directory
  checkProgram host.programs.installed { caller with directory := l } fs (argv.headD "")
  return ⟨argv, l⟩

end Invocation

/-- Starts another program and waits for its end. -/
def Session.call (directory : Option Path) (argv : List String) :
    Session (Except FileError Response) :=
  ofExec fun host world =>
    match Invocation.prepare host world.files directory argv with
    | .error e => (.ok (.error e), world)
    | .ok invocation =>
      let caller := { host.caller with directory := invocation.directory }
      let (response, files) := host.programs.respond world.calls invocation caller world.files
      (.ok (.ok response),
        { world with files, exchanges := world.exchanges ++ [⟨invocation, response⟩] })

end RpmRelease
