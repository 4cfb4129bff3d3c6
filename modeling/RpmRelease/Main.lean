import RpmRelease.Application
import RpmRelease.Bzip2
import RpmRelease.Tar.Unpack

/-!
# The program

The project is read from the standard input as a tar archive and unpacked into the working directory
of a file system that holds nothing else, and the command line is carried out there.  What the run
writes goes to the standard output and the standard error stream, and its exit status is that of the
program.

No other programs are started: to the run they are not installed.  The time is the one that
`SOURCE_DATE_EPOCH` sets, or else the epoch.
-/

set_option autoImplicit false

namespace RpmRelease.Program

/-- What the program calls itself. -/
def banner : String := "rpm-rail 0.1.0"

/-- How the program is used. -/
def usage : String :=
  let verbs := CommandLine.Verb.all.map fun verb => "  " ++ ", ".intercalate verb.words
  "\n".intercalate (["Usage: rpm-rail [OPTIONS] <COMMAND>", "", "Commands:"] ++ verbs)

/-- What is said about a command line that asks for nothing to be done. -/
def complaint : CommandLine.Refusal → String
  | .help | .nothingSaid => usage
  | .version => banner
  | .noVerb => "error: a command is missing"
  | .unknownVerb => "error: there is no such command"
  | .unknownWord => "error: unexpected argument"
  | .badValue => "error: a value is missing or invalid"
  | .needlessValue => "error: a value is given where none is taken"
  | .repeated => "error: an argument is given more than once"
  | .incomplete => "error: a required argument is missing"

/-- The environment variables that are looked at. -/
def variableNames : List String :=
  ["SOURCE_DATE_EPOCH", "RPM_RAIL_CONFIG", "DESTDIR", "BINDIR", "LIBDIR", "ETCDIR"]

/-- A host without other programs. -/
def host (directory : Location) (environment : CommandLine.Environment) : Host :=
  let now : Int := ((Archive.fixedTime (environment "SOURCE_DATE_EPOCH")).getD 0 : Nat)
  { caller := ⟨true, directory, now⟩
    programs := ⟨fun _ => false, fun _ _ _ files => (⟨some 0, [], []⟩, files)⟩
    codec := Bzip2.codec
    environment
    today := Date.ofTimestamp now }

/-- The world that holds nothing but a project, unpacked from an archive. -/
def world (host : Host) (directory : Path) (archive : Bytes) : Except Failure World :=
  let program : Storage Failure Unit := do
    (Storage.createDirectories directory).mapError .file
    let _ ← Repository.unpackAll directory archive
  match program.exec host.caller FileSystem.empty with
  | (.ok (), files) => .ok { files }
  | (.error failure, _) => .error failure

/-- All that is left on a stream. -/
partial def readAll (stream : IO.FS.Stream) (before : Bytes) : IO Bytes := do
  let block ← stream.read 65536
  if block.isEmpty then return before else readAll stream (before ++ block.toList)

/-- Writes bytes to a stream. -/
def write (stream : IO.FS.Stream) (bytes : Bytes) : IO Unit := do
  stream.write ⟨bytes.toArray⟩
  stream.flush

/-- The names that lead from the root to a directory. -/
def locationOf (directory : Path) : Location :=
  directory.components.filterMap fun
    | .normal name => some name
    | _ => none

/-- Carries out a command line on the project that is read from the standard input. -/
def carryOut (arguments : CommandLine.Arguments) (environment : CommandLine.Environment) :
    IO UInt32 := do
  let directory : Path := ⟨(← IO.getEnv "PWD").getD "/"⟩
  let host := host (locationOf directory) environment
  let archive ← readAll (← IO.getStdin) []
  let (status, world) :=
    match world host directory archive with
    | .ok world => Application.execute arguments host world
    | .error failure => Application.conclude (.error failure, { files := FileSystem.empty })
  write (← IO.getStdout) world.stdout
  write (← IO.getStderr) world.stderr
  return UInt32.ofNat (status % 256).toNat

/-- Reads a command line and carries it out. -/
def start (words : List String) : IO UInt32 := do
  let set ← variableNames.mapM fun name => return (name, ← IO.getEnv name)
  let environment (name : String) : Option String := (set.lookup name).join
  match CommandLine.parse environment words with
  | .ok arguments => carryOut arguments environment
  | .error refusal =>
    let stream ← if refusal.exitStatus = 0 then IO.getStdout else IO.getStderr
    write stream (Text.Utf8.ofString (complaint refusal ++ "\n"))
    return UInt32.ofNat refusal.exitStatus.toNat

end RpmRelease.Program

/-- The program. -/
def main (args : List String) : IO UInt32 :=
  RpmRelease.Program.start args
