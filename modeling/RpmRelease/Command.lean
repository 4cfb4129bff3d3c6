import RpmRelease.World

/-!
# Configured commands

The commands that a project configures are run in its root and are not interpreted in any way.  What
they write goes to the user, unless it is asked for as data.
-/

set_option autoImplicit false

namespace RpmRelease.Command

/-- A command as it is shown to the user. -/
def display (argv : List String) : String :=
  " ".intercalate argv

/-- The failure of a command that could not be started. -/
def notStarted (argv : List String) (e : FileError) : Failure :=
  .withHelp ("Failed to execute " ++ display argv ++ ": " ++ e.text)
    "Check that the program is installed and on PATH."

/-- Starts a command in a root and waits for its end. -/
def start (root : Path) (argv : List String) : Session Response := do
  if argv.isEmpty then throw (.plain "Empty command line")
  match ← Session.call (some root) argv with
  | .ok response => return response
  | .error e => throw (notStarted argv e)

/-- Fails unless a command has succeeded. -/
def check (argv : List String) (response : Response) : Session Unit :=
  if response.succeeded then pure ()
  else throw (.stage (.commandFailed (display argv) response.ending))

/-- Runs a command. -/
def run (root : Path) (argv : List String) : Session Unit := do
  let response ← start root argv
  Session.writeOut response.stdout
  Session.writeError response.stderr
  check argv response

/-- Runs a command for what it writes to its standard output. -/
def capture (root : Path) (argv : List String) : Session Bytes := do
  let response ← start root argv
  Session.writeError response.stderr
  check argv response
  return response.stdout

end RpmRelease.Command
