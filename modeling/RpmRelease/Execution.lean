import RpmRelease.Archive
import RpmRelease.Builder
import RpmRelease.Export
import RpmRelease.Install
import RpmRelease.Manifest
import RpmRelease.Recording
import RpmRelease.Target
import RpmRelease.Text.Json

/-!
# Running targets

A target is run by running the actions of its plan one after the other.  The first failure ends the
run, and what has been made until then stays.  A changelog directly followed by a tag is recorded as
one: its lines are shown when both are done.

The repository is opened by the first action that needs it, so that targets which copy the working
tree also work outside a repository.
-/

set_option autoImplicit false

namespace RpmRelease

namespace Release

/-- The release as it is shown in JSON. -/
def summary (r : Release) : Json :=
  .object [
    ("name", .string r.metadata.name),
    ("version", .string r.metadata.version),
    ("release", .string r.metadata.release),
    ("tag", .string r.tag.text),
    ("staging_dir", .string r.stagingDirectory.text),
    ("archive", .string r.archivePath.text)]

end Release

/-- How targets are run. -/
structure RunOptions where
  /-- whether the plan is shown instead -/
  dryRun : Bool := false
  /-- whether the plan is shown as JSON -/
  json : Bool := false
  /-- whether an existing tag is moved -/
  force : Bool := false
  install : InstallDirectories := {}
deriving DecidableEq, Repr

namespace Execution

/-- A count in a message. -/
def count (n : Nat) : String :=
  String.ofList (Nat.toDigits 10 n)

/-- The plan of a target as JSON. -/
def planJson (target : Target) (release : Option Release) : Json :=
  .object ([
    ("target", .string target.name),
    ("steps", .array (target.plan.map fun step => .string step.name))] ++
    (release.map fun r => ("release", r.summary)).toList)

/-- The lines that show the plan of a target. -/
def planLines (target : Target) (release : Option Release) : List String :=
  let steps := target.plan.zipIdx.map fun (step, i) => "  " ++ count (i + 1) ++ ". " ++ step.name
  let dependents := target.dependents
  ["📋 Plan for '" ++ target.name ++ "'"] ++
    (release.map fun r => "   " ++ r.metadata.name ++ " " ++ r.metadata.fullVersion ++ " (tag " ++
      r.tag.text ++ ")").toList ++
    [""] ++ steps ++
    (if dependents.isEmpty then []
    else ["", "   Also run by: " ++ ", ".intercalate (dependents.map Target.name)])

/-- Shows the plan of a target. -/
def showPlan (target : Target) (release : Option Release) (json : Bool) : Session Unit :=
  if json then Session.print (planJson target release).render
  else (planLines target release).forM Session.print

/-- A session that opens the repository at most once. -/
abbrev Run (α : Type) : Type := StateT (Option Repository) Session α

/-- The repository of a release, opened if it is not open yet. -/
def repository (r : Release) : Run Repository := do
  match ← get with
  | some repository => return repository
  | none =>
    let repository ← Repository.openAt r.root
    set (some repository)
    return repository

/-- Shows what making the changelog anew did. -/
def showChangelog (r : Release) (outcome : Recording.ChangelogOutcome) : Session Unit :=
  Session.print ("📝 Regenerated " ++ r.configuration.versionControl.changelog.text ++
    (if outcome.committed then " (committed)" else " (unchanged)"))

/-- Shows what tagging did. -/
def showTag (r : Release) (outcome : Recording.TagOutcome) : Session Unit := do
  if outcome.committed then
    Session.print ("💾 Committed pending changes for " ++ r.metadata.fullVersion)
  Session.print ("🏷️  Tagged " ++ outcome.tag.text)

/-- Whether an existing tag is moved. -/
def moveTag (r : Release) (options : RunOptions) : Bool :=
  options.force || r.configuration.versionControl.tagForce

/-- Records the release: changelog and tag together. -/
def recordRelease (r : Release) (options : RunOptions) : Run Unit := do
  let repository ← repository r
  let (changelog, tag) ← Recording.record r repository (moveTag r options)
  showChangelog r changelog
  showTag r tag

/-- Builds the sources. -/
def runBuild (r : Release) : Session Unit := do
  if ← Project.build r then Session.print "✅ Build finished"
  else Session.print "⏭️  No [build] command configured, skipping"

/-- Copies the manifest into the staging directory. -/
def runCopy (r : Release) : Session Unit := do
  let staging ← Session.files (Staging.create r)
  match Manifest.ofRelease r with
  | .error failure => throw failure
  | .ok manifest =>
    let files ← Session.files (Manifest.stage r staging manifest)
    Session.print ("📂 Staged " ++ count files ++ " files into " ++ r.metadata.stem ++
      "/ (copy)")

/-- Exports the tagged sources into the staging directory. -/
def runExport (r : Release) : Run Unit := do
  let repository ← repository r
  let entries ← Export.stage r repository r.stagingDirectory
  Session.print ("📦 Exported " ++ count entries ++ " entries from " ++ r.tag.text ++
    " into " ++ r.metadata.stem ++ "/ (export)")

/-- Archives the staging directory. -/
def runArchive (r : Release) : Session Unit := do
  let host ← read
  let fixed := Archive.fixedTime (host.environment "SOURCE_DATE_EPOCH")
  let report ← Session.files (Archive.create host.codec fixed r)
  Session.print ("🗜️  Created " ++ report.path.fileName?.getD "" ++ " (" ++
    count report.entries ++ " entries)")
  Session.print ("   sha256 " ++ report.digest)

/-- Builds the package. -/
def runBuilder (r : Release) : Session Unit := do
  Session.print ("🔨 Building package from " ++ r.archivePath.text)
  Builder.build r.configuration.builder r.archivePath
  Session.print "✅ Package build finished"

/-- Runs one action; composites do nothing of their own. -/
def runAction (r : Release) (options : RunOptions) : Target → Run Unit
  | .build => runBuild r
  | .installFiles => do
    let copied ← Session.files (Project.install r options.install)
    Session.print ("📥 Installed " ++ count copied ++ " files")
  | .clean => do
    let removed ← Session.files (Project.clean r)
    Session.print ("🧹 Removed " ++ count removed.length ++ " transient files")
  | .verify => do
    Project.verify r
    Session.print "✅ Verification passed"
  | .changelog => do
    let repository ← repository r
    let outcome ← Recording.regenerateChangelog r repository
    showChangelog r outcome
  | .tag => do
    let repository ← repository r
    let outcome ← Recording.tagRelease r repository (moveTag r options)
    showTag r outcome
  | .cleanDist => do
    let removed ← Session.files (Staging.clean r)
    if !removed.isEmpty then
      Session.print ("🧹 Removed " ++ count removed.length ++ " stale artifacts")
  | .localCopy => runCopy r
  | .exportTag => runExport r
  | .archive => runArchive r
  | .buildRpm => runBuilder r
  | .install | .localDist | .dist | .localRpm | .rpm => pure ()

/-- Runs the steps of a plan in order; a changelog directly followed by a tag is one step. -/
def runSteps (r : Release) (options : RunOptions) : List Target → Run Unit
  | .changelog :: .tag :: rest => do
    recordRelease r options
    runSteps r options rest
  | step :: rest => do
    runAction r options step
    runSteps r options rest
  | [] => pure ()

/-- Runs a target, or shows its plan. -/
def run (r : Release) (options : RunOptions) (target : Target) : Session Unit := do
  if options.dryRun then showPlan target (some r) options.json
  else
    let steps := target.plan
    (runSteps r options steps).run' none
    if 1 < steps.length then Session.print ("✅ " ++ target.name ++ " complete")

end Execution

end RpmRelease
