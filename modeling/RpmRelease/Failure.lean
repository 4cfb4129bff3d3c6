import RpmRelease.Configuration.Decode
import RpmRelease.FileSystem.Error
import RpmRelease.Glob.Expansion
import RpmRelease.Tag
import RpmRelease.Text.Uppercase

/-!
# Failures

Nothing is recovered from: the first failure ends a run and is shown to the user with everything
that is known about it.  A failure is a cause; its wording, the advice that goes with it and the exit
status of the program are functions of the cause.  Failures of other programs pass on their exit
status.

`Failure.context` adds a remark.  It shows in the wording of complaints and of file errors only, and
changes neither the advice nor the exit status.
-/

set_option autoImplicit false

namespace RpmRelease

/-- What is wrong with the configuration of a project. -/
inductive ConfigurationFault
  /-- no descriptor is configured and there is none in the root -/
  | noDescriptor (root : Path)
  /-- no descriptor is configured and there are several in the root -/
  | severalDescriptors (candidates : List Path)
  /-- a field is needed and not given -/
  | missingField (field : String)
deriving DecidableEq, Repr

/-- How a program ended: with an exit status, or by a signal when there is none. -/
abbrev Ending := Option Int

/-- What went wrong in a stage of a release. -/
inductive StageFault
  /-- the descriptor does not declare a field -/
  | undeclared (descriptor : Path) (field : String)
  /-- the staging directory is there and not empty -/
  | stagingNotEmpty (path : Path)
  /-- an entry of the manifest or of a file set matches nothing -/
  | noSource (entry : String)
  /-- an archive could not be written -/
  | archiveNotWritten (path : Path) (cause : FileError)
  /-- the package builder failed -/
  | buildFailed (command : String) (ending : Ending)
  /-- a configured command failed -/
  | commandFailed (command : String) (ending : Ending)
deriving DecidableEq, Repr

/-- What went wrong in version control. -/
inductive RepositoryFault
  /-- a command failed, with what it wrote about it -/
  | commandFailed (command stderr : String) (ending : Ending)
  /-- there is no repository -/
  | notFound (path : Path)
  | tagNotFound (tag : Tag)
  | tagExists (tag : Tag)
  /-- the directory to export into is not empty -/
  | exportNotEmpty (path : Path)
  /-- there are no commits yet -/
  | noHistory (path : Path)
deriving DecidableEq, Repr

/-- What a complaint is about. -/
inductive Complaint
  /-- whatever a text says -/
  | plain (text : String)
  /-- a configuration file -/
  | configuration (rejection : Configuration.Rejection)
  /-- a pattern -/
  | pattern (error : Glob.ReadError)
  /-- a directory that a pattern needed -/
  | listing (error : Glob.ListError)
  /-- a directory or an entry met while walking a tree -/
  | walk (path : Path) (cause : FileError)
  /-- a path that is not below the one it was expected below -/
  | outside
deriving DecidableEq, Repr

/-- The wording of an error met while walking a tree. -/
def walkMessage (path : Path) (cause : FileError) : String :=
  "IO error for operation on " ++ path.text ++ ": " ++ cause.text

/-- The wording of a complaint. -/
def Complaint.message : Complaint → String
  | plain text => text
  | configuration rejection => "TOML deserialization error: " ++ rejection.message
  | pattern (.whole _ error) => "Invalid glob pattern: " ++ error.message
  | pattern (.component error) => "Invalid glob pattern: " ++ error.message
  | listing error =>
    "Glob error: attempting to read \x60" ++ error.path.text ++ "\x60 resulted in an error: " ++
      error.cause.text
  | walk path cause => "Directory walk error: " ++ walkMessage path cause
  | outside => "Path strip prefix error: prefix not found"

/-- Why a run ended early. -/
inductive Failure
  | configuration (fault : ConfigurationFault)
  | stage (fault : StageFault)
  | repository (fault : RepositoryFault)
  | file (error : FileError)
  | complaint (about : Complaint) (context : Option String) (help : Option String)
deriving DecidableEq, Repr

/-- The exit status of a program that failed. -/
inductive ExitCode
  /-- the user can mend it -/
  | user
  /-- the system or version control is at fault -/
  | system
  /-- the status of another program -/
  | external (status : Int)
deriving DecidableEq, Repr

/-- The number of an exit status. -/
def ExitCode.number : ExitCode → Int
  | user => 1
  | system => 2
  | external status => status

/-- The status to pass on for a program that did not succeed. -/
def ExitCode.ofEnding : Ending → ExitCode
  | some status => if status = 0 then system else external status
  | none => system

namespace ConfigurationFault

/-- The wording of a fault. -/
def message : ConfigurationFault → String
  | noDescriptor root => "No package descriptor (*.spec) found in " ++ root.text
  | severalDescriptors candidates =>
    "Multiple package descriptors found: " ++ ", ".intercalate (candidates.map Path.text)
  | missingField field => "Missing required field in config: " ++ field

/-- What a user can do about a fault. -/
def help : ConfigurationFault → String
  | missingField field => "Add \x60" ++ field ++ "\x60 to rpm-rail.toml."
  | _ => "Set \x60descriptor = \"<name>.spec\"\x60 under [package] in rpm-rail.toml."

end ConfigurationFault

/-- How a message tells of the end of a program. -/
def endingMessage : Ending → String
  | some status => " exited with status " ++ toString status
  | none => " was terminated by a signal"

namespace StageFault

/-- The wording of a fault. -/
def message : StageFault → String
  | undeclared descriptor field =>
    "No " ++ field ++ " declaration found in " ++ descriptor.text
  | stagingNotEmpty path => "Staging directory already exists and is not empty: " ++ path.text
  | noSource entry => "Manifest entry matched no files: " ++ entry
  | archiveNotWritten path cause =>
    "Failed to write archive " ++ path.text ++ ": " ++ cause.text
  | buildFailed command ending => "Package build failed: " ++ command ++ endingMessage ending
  | commandFailed command ending => "Command failed: " ++ command ++ endingMessage ending

/-- What a user can do about a fault. -/
def help : StageFault → Option String
  | undeclared _ field =>
    some ("Add a \x60" ++ String.ofList (Text.capitalize field.toList) ++
      ":\x60 line to the descriptor preamble.")
  | stagingNotEmpty _ => some "Run \x60rpm-rail clean-dist\x60 to remove stale staging output."
  | noSource _ => some "Check the [manifest] files list in rpm-rail.toml."
  | archiveNotWritten .. => some "The staging directory was left in place for inspection."
  | _ => none

/-- The exit status for a fault. -/
def exitCode : StageFault → ExitCode
  | buildFailed _ ending => .ofEnding ending
  | commandFailed _ ending => .ofEnding ending
  | archiveNotWritten .. => .system
  | _ => .user

end StageFault

namespace RepositoryFault

/-- The wording of a fault. -/
def message : RepositoryFault → String
  | commandFailed command stderr _ => "Git command failed: " ++ command ++ "\n" ++ stderr
  | notFound path => "Git repository not found at: " ++ path.text
  | tagNotFound tag => "Tag not found: " ++ tag.text
  | tagExists tag => "Tag already exists: " ++ tag.text
  | exportNotEmpty path => "Export target is not empty: " ++ path.text
  | noHistory path => "Repository has no commits yet: " ++ path.text

/-- What a user can do about a fault. -/
def help : RepositoryFault → Option String
  | notFound path =>
    some ("Initialize the repository first or check the path: " ++ path.text)
  | tagNotFound tag =>
    some ("Create it first with \x60rpm-rail tag\x60 (expected tag " ++ tag.text ++ ").")
  | tagExists _ =>
    some "Bump Version/Release in the descriptor, or pass --force to move the tag."
  | exportNotEmpty _ => some "Run \x60rpm-rail clean-dist\x60 before exporting."
  | noHistory _ => some "Commit the package sources first."
  | commandFailed .. => none

/-- The exit status for a fault. -/
def exitCode : RepositoryFault → ExitCode
  | commandFailed _ _ ending => .ofEnding ending
  | notFound _ => .system
  | _ => .user

end RepositoryFault

namespace Failure

/-- A failure that a text describes. -/
def plain (text : String) : Failure :=
  complaint (.plain text) none none

/-- A failure that a text describes, with advice. -/
def withHelp (text help : String) : Failure :=
  complaint (.plain text) none (some help)

/-- A failure about something that has a wording of its own. -/
def about (c : Complaint) : Failure :=
  complaint c none none

/-- Adds a remark.  The remarks on a complaint stand below it, the latest first; a remark on a file
error stands in front of its text. -/
def context (remark : String) : Failure → Failure
  | complaint about remarks help =>
    complaint about (some (match remarks with
      | some earlier => remark ++ "\n" ++ earlier
      | none => remark)) help
  | file error => file (error.withContext remark)
  | failure => failure

/-- The wording of a failure. -/
def message : Failure → String
  | configuration fault => fault.message
  | stage fault => fault.message
  | repository fault => fault.message
  | file error => "I/O error: " ++ error.text
  | complaint about remarks _ =>
    match remarks with
    | some remarks => about.message ++ "\n" ++ remarks
    | none => about.message

/-- What a user can do about a failure. -/
def help : Failure → Option String
  | configuration fault => some fault.help
  | stage fault => fault.help
  | repository fault => fault.help
  | file _ => none
  | complaint _ _ help => help

/-- The exit status for a failure. -/
def exitCode : Failure → ExitCode
  | configuration _ => .user
  | stage fault => fault.exitCode
  | repository fault => fault.exitCode
  | file _ => .system
  | complaint .. => .user

/-- The file error behind a failure. -/
def source : Failure → Option FileError
  | file error => some error
  | stage (.archiveNotWritten _ cause) => some cause
  | _ => none

/-- What is shown to the user about a failure. -/
def report (failure : Failure) : String :=
  "\n❌ " ++ failure.message ++ "\n\n" ++
    match failure.help with
    | some help => "💡 Help: " ++ help ++ "\n\n"
    | none => ""

end Failure

/-- A failure for why a pattern gave no list of paths. -/
def Glob.Error.toFailure : Glob.Error → Failure
  | .unreadable error => .about (.pattern error)
  | .unlisted error => .about (.listing error)

end RpmRelease
