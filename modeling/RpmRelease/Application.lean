import RpmRelease.CommandLine
import RpmRelease.Verbosity

/-!
# The application

A run finds the project root, resolves the release and does what is asked for.  A failure that ends
it is shown on the standard error stream, and its exit status is the exit status of the program.

Showing a plan is the one request that needs no release; the release is shown with the plan when it
can be resolved.
-/

set_option autoImplicit false

namespace RpmRelease

namespace Application

/-- The directory of the caller as a path. -/
def currentDirectory : Storage Failure Path :=
  Storage.query fun caller fs =>
    ((fs.canonical { caller with superuser := true } ⟨"."⟩).mapError Failure.file).mapError
      (·.context "Failed to get current directory")

/-- The root of the project: a given directory, or else the caller's. -/
def findRoot (given : Option Path) : Storage Failure Path := do
  let directory ←
    match given with
    | some directory => pure directory
    | none => currentDirectory
  Storage.query fun caller fs => (fs.canonical caller directory).mapError fun e =>
    (Failure.file e).context ("Project directory not found: " ++ directory.text)

/-- Shows the version of a release. -/
def showVersion (release : Release) (json : Bool) : Session Unit :=
  Session.print (if json then release.summary.render else release.metadata.fullVersion)

/-- Does what is asked for, in a project root. -/
def perform (root : Path) (configuration : Option Path) : CommandLine.Request → Session Unit
  | .plan target json => do
    let release ← Session.attempt (Session.files (Release.resolve root configuration))
    Execution.showPlan target release.toOption json
  | .version json => do
    let release ← Session.files (Release.resolve root configuration)
    showVersion release json
  | .run target options => do
    let release ← Session.files (Release.resolve root configuration)
    Execution.run release options target

/-- Does what a command line says. -/
def run (arguments : CommandLine.Arguments) : Session Unit := do
  let root ← Session.files (findRoot arguments.directory)
  perform root arguments.configuration arguments.request

/-- Shows the failure that ended a run, if any; the exit status, and the world at the end. -/
def conclude : Except Failure Unit × World → Int × World
  | (.ok (), world) => (0, world)
  | (.error failure, world) =>
    (failure.exitCode.number,
      { world with stderr := world.stderr ++ Text.Utf8.ofString failure.report })

/-- A run from its arguments to its exit status. -/
def execute (arguments : CommandLine.Arguments) (host : Host) (world : World) : Int × World :=
  conclude ((run arguments).exec host world)

end Application

end RpmRelease
