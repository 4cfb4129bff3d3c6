import RpmRelease.Proofs.CommandLine
import RpmRelease.Proofs.Execution.Tagging
import RpmRelease.Proofs.Staging.InRoot

/-!
# Whole runs

What is proved of running a target holds of every command line that asks for it, with the release
that is resolved in its root.  Other requests only show something.
-/

set_option autoImplicit false

namespace RpmRelease.Application

open Session (Adds Only)
open Execution (LeavesTags Tagging moveTag)

variable {host : Host} {arguments : CommandLine.Arguments}

/-- The release that a command line is about. -/
def release (arguments : CommandLine.Arguments) : Storage Failure Release := do
  let root ← findRoot arguments.directory
  Release.resolve root arguments.configuration

/-- A run of a target resolves the release first. -/
theorem run_eq {target : Target} {options : RunOptions}
    (h : arguments.request = .run target options) :
    run arguments = Session.files (release arguments) >>= fun r => Execution.run r options target := by
  unfold run perform release
  rw [h, Session.files_bind, bind_assoc]

/-- A command line asks to be shown something, or for a run of a target. -/
theorem shows_or_runs (arguments : CommandLine.Arguments) :
    (∀ target options, arguments.request ≠ .run target options) ∨
      ∃ target options, arguments.request = .run target options := by
  cases arguments.request with
  | run target options => exact .inr ⟨target, options, rfl⟩
  | _ => exact .inl (by simp)

/-- A run that only shows something starts no program. -/
theorem adds_show (h : ∀ target options, arguments.request ≠ .run target options) :
    Adds host (run arguments) (Only fun _ => False) := by
  unfold run perform
  refine Adds.files.bindOnly fun root => ?_
  split
  · exact (Adds.attempt Adds.files).bindOnly fun _ => Execution.adds_showPlan _ _ _
  · exact Adds.files.bindOnly fun _ => Adds.print
  · next target options hrequest => exact absurd hrequest (h target options)

/-- Whatever a command line says and whatever other programs answer, a run either starts nothing, or it
is the run of a target with the release of the root.  When the plan of the target has the tag in it,
the run makes that tag with one call at most, and otherwise with none; what else calls `git tag` is a
configured command, run as it is.  The tag is that of the version and the release.  It is only moved
when the command line has the word for that or the configuration says so; in all other runs the call
comes directly after a question that found no tag, and a question that finds one is the failure. -/
theorem tags_of_run (host : Host) (world : World) (environment : CommandLine.Environment)
    (words : List String) (arguments : CommandLine.Arguments)
    (h : CommandLine.parse environment words = .ok arguments) :
    ∃ new, ((run arguments).exec host world).2.exchanges = world.exchanges ++ new ∧
      (new = [] ∨ ∃ r target options,
        ((release arguments).exec host.caller world.files).1 = .ok r ∧
        r.tag = Tag.format r.metadata.version r.metadata.release ∧
        arguments.request = .run target options ∧
        (options.force = true → "--force" ∈ words) ∧ "-f" ∉ Execution.createTag r false ∧
        if .tag ∈ target.plan then
          Tagging r (options.force || r.configuration.versionControl.tagForce)
            ((run arguments).exec host world).1 new
        else ∀ e ∈ new, LeavesTags r e) := by
  rcases shows_or_runs arguments with hshow | ⟨target, options, hrequest⟩
  · have hadds : Adds host (run arguments) (Only fun _ => False) := adds_show hshow
    obtain ⟨new, hnew, hnone⟩ := hadds.run world
    exact ⟨new, hnew, .inl (List.eq_nil_iff_forall_not_mem.2 hnone)⟩
  · rw [run_eq hrequest, Session.exec_bind, Session.exec_files]
    cases hrelease : ((release arguments).exec host.caller world.files).1 with
    | error failure => exact ⟨[], (List.append_nil _).symm, .inl rfl⟩
    | ok r =>
        obtain ⟨new, hnew, hrun⟩ := (@Execution.adds_run host r options target).run
          { world with files := ((release arguments).exec host.caller world.files).2 }
        refine ⟨new, hnew, hrun.imp_right fun htags => ?_⟩
        exact ⟨r, target, options, rfl, rfl, hrequest, CommandLine.mem_words_of_force h hrequest,
          Execution.not_mem_createTag r, htags⟩

/-- A host on which `git` succeeds with the commands that it agrees with. -/
def agreeing (agrees : List String → Bool) : Host where
  caller := .superuserAtRoot
  programs := ⟨fun name => name == "git", fun _ invocation _ files =>
    (⟨some (if agrees invocation.argv then 0 else 1), [], []⟩, files)⟩
  codec := ⟨id, some⟩
  environment := fun _ => none
  today := ⟨1970, 1, 1⟩

/-- A host on which there is no tag of the described release. -/
def untagged : Host :=
  agreeing fun argv => argv != Execution.question (Release.described "p")

/-- The request for a target, without options, in the directory of the described project. -/
def request (target : Target) : CommandLine.Arguments :=
  ⟨some ⟨"/r"⟩, none, 0, .run target {}⟩

/-- Running a target runs the steps of its plan with the release that was found, and says at the end
that more than one step is complete. -/
theorem exec_run_request {target : Target} {steps : List Target} {r : Release} {files : FileSystem}
    (hrelease : ((release (request target)).exec host.caller files).1 = .ok r)
    (hplan : target.plan = steps) :
    (run (request target)).exec host { files } = (do
      (Execution.runSteps r {} steps).run' none
      if 1 < steps.length then Session.print ("✅ " ++ target.name ++ " complete")).exec host
        { files := ((release (request target)).exec host.caller files).2 } := by
  rw [run_eq rfl, Session.exec_bind, Session.exec_files, hrelease]
  simp only [Execution.run, hplan]
  rfl

/-- The described project is the release that a request for a target in it is about. -/
theorem release_described (target : Target) :
    ((release (request target)).exec .superuserAtRoot (Release.describedTree ['p'])).1 =
      .ok (Release.described "p") := by
  simp only [release, request, Release.resolve, Configuration.descriptorPath, Release.sort_eq_ite]
  decide +kernel

/-- Where there is no tag yet, the described project is tagged with one call, which follows the
question. -/
theorem tags_of_run_described :
    CommandLine.parse (fun _ => none) ["-C", "/r", "tag"] = .ok (request .tag) ∧
    ∃ before own later, ((run (request .tag)).exec untagged
        { files := Release.describedTree ['p'] }).2.exchanges = before ++ own ++ later ∧
      Execution.MakesTag (Release.described "p") false own := by
  have hparse : CommandLine.parse (fun _ => none) ["-C", "/r", "tag"] = .ok (request .tag) := by
    decide +kernel
  refine ⟨hparse, ?_⟩
  obtain ⟨new, hnew, hrun⟩ := tags_of_run untagged { files := Release.describedTree ['p'] } _ _ _ hparse
  have hplan : Target.tag.plan = [.tag] := by cbv
  have hexec := @exec_run_request untagged .tag [.tag] _ (Release.describedTree ['p'])
    (release_described .tag) hplan
  rcases hrun with rfl | ⟨r, target, options, hrelease, -, hrequest, -, -, htags⟩
  · rw [hexec] at hnew
    exact absurd hnew (by decide +kernel)
  · obtain rfl : Release.described "p" = r := by
      rw [show untagged.caller = .superuserAtRoot from rfl, release_described] at hrelease
      exact Except.ok.inj hrelease
    obtain ⟨rfl, rfl⟩ : Target.tag = target ∧ ({} : RunOptions) = options := by
      simpa [request] using hrequest
    have houtcome : ((run (request .tag)).exec untagged
        { files := Release.describedTree ['p'] }).1 = .ok () := by
      rw [hexec]
      decide +kernel
    rw [hplan, if_pos (List.mem_singleton_self _), houtcome] at htags
    cases htags with
    | made hbefore hown hlater => exact ⟨_, _, _, hnew, hown⟩

/-- A project whose changelog is made by a command that moves a tag. -/
def movingTree : FileSystem :=
  .ofNodes [
    (["r", "rpm-rail.toml"], .file Mode.file 0 (Text.Utf8.ofString
      "[vcs]\nchangelog_command = ['git', 'tag', '-f', 'V1']\n")),
    (["r", "p.spec"], .file Mode.file 0 (Text.Utf8.ofString "Name: p\nVersion: 1\nRelease: 1\n")),
    (["r"], .directory Mode.directory 0)]

/-- A configured command may move a tag though neither the command line nor the configuration says that
tags may be moved. -/
theorem exists_moving_command :
    CommandLine.parse (fun _ => none) ["-C", "/r", "changelog"] = .ok (request .changelog) ∧
    (∃ r, ((release (request .changelog)).exec .superuserAtRoot movingTree).1 = .ok r ∧
      r.configuration.versionControl.tagForce = false) ∧
    ∃ e ∈ ((run (request .changelog)).exec (agreeing fun _ => true)
        { files := movingTree }).2.exchanges,
      Execution.CallsTag e.invocation.argv ∧ "-f" ∈ e.invocation.argv := by
  have hrelease : ((release (request .changelog)).exec .superuserAtRoot movingTree).1 = .ok
      { Release.described "p" with configuration :=
        { versionControl := { changelogCommand := ["git", "tag", "-f", "V1"] } } } := by
    simp only [release, request, Release.resolve, Configuration.descriptorPath, Release.sort_eq_ite]
    decide +kernel
  refine ⟨by decide +kernel, ⟨_, hrelease, rfl⟩, ?_⟩
  rw [@exec_run_request (agreeing fun _ => true) .changelog [.changelog] _ movingTree hrelease (by cbv)]
  unfold Execution.CallsTag
  decide +kernel

end RpmRelease.Application
