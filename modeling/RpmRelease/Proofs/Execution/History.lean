import Mathlib.Tactic.Common
import RpmRelease.Execution
import RpmRelease.Proofs.World

/-!
# The history of a run

A run is explained by a history: the list of the steps that it took, each with the world in which it
was taken.  A step gives one command to the repository or puts one question to it, starts one other
program, does one thing to the files, or refuses to go on; only the commits of a list are read in a
single step.  Between steps a run may print, and nothing else.

The commands and the questions are listed, with their arguments, so that a history cannot contain any
other; and what a step does is said with the start of programs and with the operations alone.

Some steps require others: nothing is tagged before the changelog is committed, nothing is exported
before it is tagged, nothing is archived before it is exported, and nothing is built before it is
archived.  In an ordered history each step comes after what it requires.
-/

set_option autoImplicit false

namespace RpmRelease.Execution

/-! ## Steps -/

/-- An operation on the files of a release. -/
inductive Operation
  /-- creates a directory with those above it -/
  | createAbove (above : Path)
  | writeChangelog (content : Bytes)
  /-- removes an output of an earlier run, if it is there -/
  | remove (output : Path)
  /-- looks whether the staging directory is empty -/
  | lookIntoStaging
  | createStaging
  | unpack (archive : Bytes)
  | writeTar
  | compress
  /-- computes the digest of the archive -/
  | digest
  | removeTar
  | removeStaging

/-- What a step answers when it succeeds. -/
inductive Answer
  | done
  /-- whether a question was answered with yes; for a program, whether its status was zero -/
  | status (yes : Bool)
  /-- what a program wrote to its standard output -/
  | bytes (written : Bytes)

/-- The commands that a run gives to the repository and that have to succeed. -/
inductive GitCommand
  | listCommits
  /-- stages the changelog -/
  | addChangelog
  | commitChangelog (message : String)
  | listChanges
  | commitChanges
  /-- creates the tag, or moves it there -/
  | createTag (force : Bool)
  /-- lists the contents of the tag -/
  | listTag
  /-- gives the contents of the tag as an archive -/
  | archiveTag

/-- The questions that a run puts to the repository; the status of a program answers them. -/
inductive Probe
  | hasCommits
  /-- whether the changelog is as it was -/
  | isUnchanged
  | isTagged

/-- A step of a run. -/
inductive Step
  | openRepository
  /-- runs the configured command for the changelog -/
  | convert
  /-- reads the commits of a list, from the log of each -/
  | readCommits (names : List String)
  | git (command : GitCommand)
  | ask (probe : Probe)
  | operate (operation : Operation)
  | refuse (failure : Failure)
  /-- runs the package builder -/
  | build

/-! ### Commands of the repository -/

/-- What `git` is started with in a root. -/
def gitWords (root : Path) (args : List String) : List String :=
  ["git", "-C", root.text, "-c", "advice.detachedHead=false", "-c", "core.quotePath=false"] ++ args

/-- The arguments that ask whether a tag exists. -/
def askTag (tag : Tag) : List String :=
  ["rev-parse", "--verify", "--quiet", "refs/tags/" ++ tag.text]

/-- The part of the tag of a release that is exported. -/
def treeOf (r : Release) : String :=
  let part := r.configuration.versionControl.module.text
  if part.isEmpty then r.tag.text else r.tag.text ++ ":" ++ part

/-- The arguments that create a tag. -/
def createTag (r : Release) (force : Bool) : List String :=
  ["tag", "-a"] ++ (if force then ["-f"] else []) ++
    [r.tag.text, "-m", "Release " ++ r.metadata.fullVersion]

/-- The arguments that ask for changes that are not committed. -/
def listChanges : List String := ["status", "--porcelain", "--untracked-files=no"]

/-- The arguments that commit all changes. -/
def commitChanges (r : Release) : List String :=
  ["commit", "-a", "-m", "Release " ++ r.metadata.fullVersion]

/-- The arguments of a command. -/
def GitCommand.args (r : Release) : GitCommand → List String
  | .listCommits => ["rev-list", "HEAD"]
  | .addChangelog => ["add", "--", r.configuration.versionControl.changelog.text]
  | .commitChangelog message =>
    ["commit", "-m", message, "--", r.configuration.versionControl.changelog.text]
  | .listChanges => Execution.listChanges
  | .commitChanges => Execution.commitChanges r
  | .createTag force => Execution.createTag r force
  | .listTag => ["ls-tree", "-r", "--name-only", treeOf r]
  | .archiveTag => ["archive", "--format=tar", treeOf r]

/-- The arguments that put a question. -/
def Probe.args (r : Release) : Probe → List String
  | .hasCommits => ["rev-parse", "--verify", "--quiet", "HEAD"]
  | .isUnchanged =>
    ["diff", "--cached", "--quiet", "--", r.configuration.versionControl.changelog.text]
  | .isTagged => askTag r.tag

/-! ### Sessions of steps -/

/-- What an operation does. -/
def Operation.program (host : Host) (r : Release) : Operation → Storage Failure Answer
  | .createAbove above => (fun _ => .done) <$>
    Staging.remarked ("Failed to create " ++ above.text) (Storage.createDirectories above)
  | .writeChangelog content =>
    let path := r.root.join r.configuration.versionControl.changelog
    (fun _ => .done) <$>
      Staging.remarked ("Failed to write " ++ path.text) (Storage.writeFile path content)
  | .remove output => .status <$>
    Staging.remarked ("Failed to remove " ++ output.text) (Staging.removePath output)
  | .lookIntoStaging => .status <$> (Staging.isEmpty r.stagingDirectory).mapError .file
  | .createStaging => (fun _ => .done) <$>
    Staging.remarked ("Failed to create " ++ r.stagingDirectory.text)
      (Storage.createDirectories r.stagingDirectory)
  | .unpack archive => (fun _ => .done) <$> Repository.unpackAll r.stagingDirectory archive
  | .writeTar => (fun _ => .done) <$> Archive.reporting r.tarPath
    (Archive.writeTar r.stagingDirectory r.metadata.stem r.tarPath
      (Archive.fixedTime (host.environment "SOURCE_DATE_EPOCH")))
  | .compress => (fun _ => .done) <$> Archive.reporting r.archivePath
    (Archive.compress host.codec r.tarPath r.archivePath)
  | .digest => (fun _ => .done) <$>
    Archive.reporting r.archivePath (Archive.digestFile r.archivePath)
  | .removeTar => (fun _ => .done) <$> Archive.reporting r.tarPath
    (Storage.change fun caller fs => fs.removeFile caller r.tarPath)
  | .removeStaging => (fun _ => .done) <$> Archive.reporting r.stagingDirectory
    (Storage.removeAll r.stagingDirectory)

/-- Starts one program and waits for its end. -/
def startProgram (directory : Option Path) (argv : List String) (notStarted : FileError → Failure) :
    Session Response := do
  match ← Session.call directory argv with
  | .ok response => return response
  | .error e => throw (notStarted e)

/-- Starts `git` with some words, for a command that is called like this. -/
def startGit (words : List String) (verb : String) : Session Response :=
  startProgram none words fun e => (Failure.file e).context ("Failed to execute git " ++ verb)

/-- Opens the repository that a root is in. -/
def openRepository (root : Path) : Session Repository := do
  let response ← startGit ["git", "-C", root.text, "rev-parse", "--show-toplevel"] "rev-parse"
  if response.ending == some 0 then return ⟨root⟩
  let words := Text.Utf8.decodeLossy response.stderr
  if Repository.mentions "not a git repository".toList words then
    throw (.repository (.notFound root))
  throw (.plain ("Failed to open git repository: " ++ String.ofList words))

/-- Runs `git` in a root and fails unless its status is zero.  Gives what it wrote. -/
def demandGit (root : Path) (args : List String) : Session Bytes := do
  let response ← startGit (gitWords root args) (args.headD "")
  if response.ending == some 0 then return response.stdout
  throw (.repository (.commandFailed ("git " ++ " ".intercalate args)
    (String.ofList (Text.trimEnd (Text.Utf8.decodeLossy response.stderr))) response.ending))

/-- Runs `git` in a root for whether its status is zero. -/
def askGit (root : Path) (args : List String) : Session Bool := do
  let response ← startGit (gitWords root args) (args.headD "")
  return response.ending == some 0

/-- Reads the commit of a name from its log. -/
def readCommit (root : Path) (name : String) : Session Commit := do
  match Commit.ofLog (← demandGit root ["log", "-1", "--format=%an%n%ae%n%at%n%B", name]) with
  | .ok commit => return commit
  | .error defect => throw (.plain defect.message)

/-- Runs a configured command in a root and fails unless its status is zero.  Gives what it wrote. -/
def runConfigured (root : Path) (argv : List String) : Session Bytes := do
  let response ← startProgram (some root) argv (Command.notStarted argv)
  Session.writeError response.stderr
  if response.ending == some 0 then return response.stdout
  throw (.stage (.commandFailed (Command.display argv) response.ending))

/-- What the package builder is started with. -/
def builderWords (r : Release) : List String :=
  r.configuration.builder.command :: r.configuration.builder.args ++ [r.archivePath.text]

/-- Starts the package builder with the archive, and fails unless its status is zero. -/
def startBuilder (r : Release) : Session Unit := do
  let response ← startProgram none (builderWords r) fun e =>
    .withHelp ("Failed to execute " ++ r.configuration.builder.command ++ ": " ++ e.text)
      "Install rpm-build or point [builder] command at your package builder."
  Session.writeOut response.stdout
  Session.writeError response.stderr
  if response.ending == some 0 then return
  throw (.stage (.buildFailed (" ".intercalate (builderWords r)) response.ending))

/-- What a step does. -/
def Step.session (host : Host) (r : Release) : Step → Session Answer
  | .openRepository => (fun _ => .done) <$> Execution.openRepository r.root
  | .convert => .bytes <$> runConfigured r.root r.configuration.versionControl.changelogCommand
  | .readCommits names => (fun _ => .done) <$> names.mapM (readCommit r.root)
  | .git command => .bytes <$> demandGit r.root (command.args r)
  | .ask probe => .status <$> askGit r.root (probe.args r)
  | .operate operation => Session.files (operation.program host r)
  | .refuse failure => throw failure
  | .build => (fun _ => .done) <$> startBuilder r

/-! ## Histories -/

/-- A step in the world in which it was taken. -/
structure Event where
  step : Step
  before : World

/-- How the step of an event ended. -/
def Event.outcome (host : Host) (r : Release) (e : Event) : Except Failure Answer :=
  ((e.step.session host r).exec host e.before).1

/-- The world that the step of an event left. -/
def Event.after (host : Host) (r : Release) (e : Event) : World :=
  ((e.step.session host r).exec host e.before).2

/-- An event whose outcome is an answer leaves the world that its session leaves. -/
theorem Event.exec_of_outcome {host : Host} {r : Release} {e : Event} {answer : Answer}
    (h : e.outcome host r = .ok answer) :
    (e.step.session host r).exec host e.before = (.ok answer, e.after host r) :=
  Prod.ext h rfl

/-- Whether the step of an event succeeded. -/
def Event.Succeeded (host : Host) (r : Release) (e : Event) : Prop :=
  ∃ answer, e.outcome host r = .ok answer

/-- A history explains how a world came about: all programs that were started since its origin, and
all that was done to the files, are those of its steps. -/
inductive Explains (host : Host) (r : Release) (origin : World) : List Event → World → Prop
  | start : Explains host r origin [] origin
  /-- nothing is done but printing -/
  | print {history : List Event} {world world' : World} (h : Explains host r origin history world)
      (hfiles : world'.files = world.files) (hexchanges : world'.exchanges = world.exchanges) :
      Explains host r origin history world'
  | step {history : List Event} {world : World} (s : Step)
      (h : Explains host r origin history world) :
      Explains host r origin (history ++ [⟨s, world⟩]) (Event.after host r ⟨s, world⟩)

/-- A history has a step in it, and this is what it answered. -/
def Did (host : Host) (r : Release) (history : List Event) (s : Step) (answer : Answer) : Prop :=
  ∃ e ∈ history, e.step = s ∧ e.outcome host r = .ok answer

/-- What was done stays done. -/
theorem Did.append {host : Host} {r : Release} {history : List Event} {s : Step} {answer : Answer}
    (h : Did host r history s answer) (more : List Event) : Did host r (history ++ more) s answer := by
  obtain ⟨e, he, hdone⟩ := h
  exact ⟨e, List.mem_append_left more he, hdone⟩

/-! ## What has to be done before -/

section Conditions

variable (host : Host) (r : Release) (history : List Event)

/-- The changelog has been written. -/
def WroteChangelog : Prop :=
  ∃ content, Did host r history (.operate (.writeChangelog content)) .done

/-- The changelog has been committed, or was found to be unchanged. -/
def CommittedChangelog : Prop :=
  (∃ said, Did host r history (.git .addChangelog) (.bytes said)) ∧
    (Did host r history (.ask .isUnchanged) (.status true) ∨
      ∃ message said, Did host r history (.git (.commitChangelog message)) (.bytes said))

/-- All other changes have been committed, or there were none. -/
def CommittedChanges : Prop :=
  Did host r history (.git .listChanges) (.bytes []) ∨
    ((∃ listed, Did host r history (.git .listChanges) (.bytes listed)) ∧
      ∃ said, Did host r history (.git .commitChanges) (.bytes said))

/-- The tag of the release has been created. -/
def Tagged : Prop :=
  ∃ force said, Did host r history (.git (.createTag force)) (.bytes said)

/-- The tag was found, its contents were listed, and they were given as an archive. -/
def Exported (archive : Bytes) : Prop :=
  Did host r history (.ask .isTagged) (.status true) ∧
    (∃ listed, Did host r history (.git .listTag) (.bytes listed)) ∧
    Did host r history (.git .archiveTag) (.bytes archive)

/-- What was exported has been unpacked. -/
def Unpacked : Prop :=
  ∃ archive, Did host r history (.operate (.unpack archive)) .done

/-- The staging directory has been archived, and only the archive was left. -/
def Archived : Prop :=
  Did host r history (.operate .writeTar) .done ∧ Did host r history (.operate .compress) .done ∧
    Did host r history (.operate .digest) .done ∧ Did host r history (.operate .removeTar) .done ∧
    Did host r history (.operate .removeStaging) .done

/-- The archive is found where this history has put it. -/
def FoundOwnArchive (files : FileSystem) : Prop :=
  ∃ e ∈ history, e.step = .operate .compress ∧ ∃ place mode content,
    Lookup.find host.caller (e.after host r).files true r.archivePath =
      .ok (place, .file mode host.caller.now (host.codec.compress content)) ∧
    Lookup.find host.caller files true r.archivePath =
      .ok (place, .file mode host.caller.now (host.codec.compress content))

end Conditions

/-- What has to be done before a step is taken, and what it may be about. -/
def Requires (host : Host) (r : Release) (before : List Event) (e : Event) : Prop :=
  match e.step with
  | .git .addChangelog => WroteChangelog host r before
  | .git (.createTag _) =>
    WroteChangelog host r before ∧ CommittedChangelog host r before ∧
      CommittedChanges host r before
  | .git .archiveTag => Tagged host r before ∧
    r.tag = Tag.format r.metadata.version r.metadata.release ∧
    ∃ rest, GitCommand.archiveTag.args r = ["archive", "--format=tar", r.tag.text ++ rest]
  | .operate (.createAbove above) =>
    (r.root.join r.configuration.versionControl.changelog).parent? = some above
  | .operate (.remove output) => output ∈ r.outputs
  | .operate (.unpack archive) => Exported host r before archive
  | .operate .writeTar => Unpacked host r before
  | .build => Archived host r before ∧ FoundOwnArchive host r before e.before.files ∧
    (builderWords r).getLast? = some r.archivePath.text
  | _ => True

/-- Each step was taken after all that has to be done before it. -/
def Ordered (host : Host) (r : Release) (history : List Event) : Prop :=
  ∀ before e later, history = before ++ e :: later → Requires host r before e

/-- A step may follow when all is done that it requires. -/
theorem Ordered.concat {host : Host} {r : Release} {history : List Event} {e : Event}
    (h : Ordered host r history) (he : Requires host r history e) :
    Ordered host r (history ++ [e]) := by
  intro before e' later hsplit
  rcases List.eq_nil_or_concat later with rfl | ⟨rest, last, rfl⟩
  · obtain ⟨rfl, hlast⟩ := List.append_inj' hsplit rfl
    obtain rfl : e = e' := by simpa using hlast
    exact he
  · rw [List.concat_eq_append, ← List.cons_append, ← List.append_assoc] at hsplit
    obtain ⟨hhistory, _⟩ := List.append_inj' hsplit rfl
    exact h before e' rest hhistory

end RpmRelease.Execution
