import RpmRelease.World

/-!
# Building packages

The package builder is a program that takes an archive as its last argument.
-/

set_option autoImplicit false

namespace RpmRelease.Builder

/-- The program and the arguments that build an archive. -/
def argv (builder : BuilderSection) (archive : Path) : List String :=
  builder.command :: builder.args ++ [archive.text]

/-- The command as it is shown to the user. -/
def commandLine (builder : BuilderSection) (archive : Path) : String :=
  " ".intercalate (argv builder archive)

/-- Builds a package from an archive. -/
def build (builder : BuilderSection) (archive : Path) : Session Unit := do
  if !(← Session.isFile archive) then
    throw (.withHelp ("Archive not found: " ++ archive.text)
      "Run \x60rpm-rail localdist\x60 or \x60rpm-rail dist\x60 first.")
  match ← Session.call none (argv builder archive) with
  | .error e =>
    throw (.withHelp ("Failed to execute " ++ builder.command ++ ": " ++ e.text)
      "Install rpm-build or point [builder] command at your package builder.")
  | .ok response =>
    Session.writeOut response.stdout
    Session.writeError response.stderr
    if !response.succeeded then
      throw (.stage (.buildFailed (commandLine builder archive) response.ending))

end RpmRelease.Builder
