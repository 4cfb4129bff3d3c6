import RpmRelease.Proofs.Application
import RpmRelease.Proofs.Failure

/-!
# How runs end

A program that does not succeed ends the run, with a failure that tells how that program ended.  Only
`git` may also be asked questions: some are answered by not succeeding and the run goes on, and some
end the run with a failure of its own about what was asked.  All other failures come about while every
program that had to succeed did.

`Accounts` says this of what a part of a run exchanges and of how that part ends.  One part after the
other does what its parts do, so that it holds of every step of a plan and of every plan.
-/

set_option autoImplicit false

namespace RpmRelease

variable {α β : Type} {host : Host} {r : Release} {asks : List (List String)}

namespace Execution

open Session (Adds Chains)
open Storage (Throws)

/-- The command that asks whether there is a repository. -/
def repositoryQuestion (r : Release) : List String :=
  ["git", "-C", r.root.text, "rev-parse", "--show-toplevel"]

/-- The command that asks whether there are commits. -/
def commitQuestion (r : Release) : List String :=
  Repository.settings ⟨r.root⟩ ++ ["rev-parse", "--verify", "--quiet", "HEAD"]

/-- The command that asks whether the changelog is as it was committed. -/
def changeQuestion (r : Release) : List String :=
  Repository.settings ⟨r.root⟩ ++
    ["diff", "--cached", "--quiet", "--", r.configuration.versionControl.changelog.text]

/-- The questions of a step after which a run goes on, whatever the answer is. -/
def asked (r : Release) : Target → List (List String)
  | .changelog => [changeQuestion r]
  | .tag => [question r]
  | _ => []

/-- The failures of a run that cannot go on after an answer. -/
inductive Refusal (r : Release) : List String → Failure → Prop
  | noRepository : Refusal r (repositoryQuestion r) (.repository (.notFound r.root))
  | notOpened (words : String) :
    Refusal r (repositoryQuestion r) (.plain ("Failed to open git repository: " ++ words))
  | noCommits : Refusal r (commitQuestion r) (.repository (.noHistory r.root))
  | noTag : Refusal r (question r) (.repository (.tagNotFound r.tag))

/-- A refusal is a failure of the program's own and tells of no other program. -/
theorem Refusal.isOwn {argv : List String} {failure : Failure} (h : Refusal r argv failure) :
    failure.IsOwn := by
  cases h <;> rfl

/-- A failure that a program is the cause of. -/
def CausedBy (r : Release) (e : Exchange) (failure : Failure) : Prop :=
  failure.ending? = some e.response.ending ∨ Refusal r e.invocation.argv failure

/-- A program after which a run goes on. -/
def Passed (asks : List (List String)) (e : Exchange) : Prop :=
  e.response.succeeded = true ∨ e.invocation.argv ∈ asks

/-- The exchanges of a part of a run account for how it ends. -/
inductive Accounts (r : Release) (asks : List (List String)) :
    Except Failure α → List Exchange → Prop
  | completed {a : α} {new : List Exchange} (hpassed : ∀ e ∈ new, Passed asks e) :
    Accounts r asks (.ok a) new
  | stopped {failure : Failure} {new : List Exchange} (hown : failure.IsOwn)
    (hpassed : ∀ e ∈ new, Passed asks e) : Accounts r asks (.error failure) new
  | ended {failure : Failure} {before : List Exchange} {e : Exchange}
    (hbefore : ∀ e ∈ before, Passed asks e) (hfailed : e.response.succeeded = false)
    (hcause : CausedBy r e failure) : Accounts r asks (.error failure) (before ++ [e])

/-- Programs after which a run goes on may stand in front of what accounts for its end. -/
theorem Accounts.append {outcome : Except Failure α} {before new : List Exchange}
    (hbefore : ∀ e ∈ before, Passed asks e) (h : Accounts r asks outcome new) :
    Accounts r asks outcome (before ++ new) := by
  have hboth {more : List Exchange} (hmore : ∀ e ∈ more, Passed asks e) :
      ∀ e ∈ before ++ more, Passed asks e := by
    intro e he
    exact (List.mem_append.1 he).elim (hbefore e) (hmore e)
  cases h with
  | completed hpassed => exact .completed (hboth hpassed)
  | stopped hown hpassed => exact .stopped hown (hboth hpassed)
  | ended hmore hfailed hcause =>
      rw [← List.append_assoc]
      exact .ended (hboth hmore) hfailed hcause

/-- A program that has to succeed and does not is the last one, and the cause of the failure. -/
theorem Accounts.of_failed {outcome : Except Failure α} {new before later : List Exchange}
    {e : Exchange} (h : Accounts r asks outcome new) (hnew : new = before ++ e :: later)
    (hfailed : e.response.succeeded = false) (hasked : e.invocation.argv ∉ asks) :
    later = [] ∧ ∃ failure, outcome = .error failure ∧ CausedBy r e failure := by
  have hnotPassed : ¬ Passed asks e := by
    rintro (hsucceeded | hmem)
    · exact absurd (hfailed.symm.trans hsucceeded) (by decide)
    · exact hasked hmem
  have hmem : e ∈ new := by simp [hnew]
  cases h with
  | completed hpassed => exact absurd (hpassed e hmem) hnotPassed
  | stopped hown hpassed => exact absurd (hpassed e hmem) hnotPassed
  | @ended failure passed last hbefore hlast hcause =>
      -- it is none of those that passed, so that all of them stand in front of it
      rcases List.append_eq_append_iff.1 hnew with ⟨rest, -, hend⟩ | ⟨rest, hrest, hend⟩
      · obtain ⟨-, hend⟩ | ⟨-, hend⟩ := List.singleton_eq_append_iff.1 hend
        · obtain ⟨rfl, rfl⟩ := List.cons.inj hend
          exact ⟨rfl, failure, rfl, hcause⟩
        · exact absurd hend (by simp)
      · cases rest with
        | nil =>
            obtain ⟨rfl, rfl⟩ := List.cons.inj hend
            exact ⟨rfl, failure, rfl, hcause⟩
        | cons first rest =>
            obtain rfl := (List.cons.inj hend).1
            exact absurd (hbefore e (by simp [hrest])) hnotPassed

/-- A failure that tells how a program ended tells it of the last one. -/
theorem Accounts.of_ending {failure : Failure} {ending : Ending} {new : List Exchange}
    (h : Accounts r asks (.error failure : Except Failure α) new)
    (hending : failure.ending? = some ending) :
    ∃ before e, new = before ++ [e] ∧ e.response.succeeded = false ∧ e.response.ending = ending := by
  cases h with
  | stopped hown => exact absurd (hown.symm.trans hending) (by simp)
  | ended _ hfailed hcause =>
      refine ⟨_, _, rfl, hfailed, ?_⟩
      rcases hcause with hcause | hrefusal
      · exact Option.some.inj (hcause.symm.trans hending)
      · exact absurd (hrefusal.isOwn.symm.trans hending) (by simp)

/-- The exit status of such a failure is that of the last program, or two. -/
theorem Accounts.number_exitCode {failure : Failure} {ending : Ending} {new : List Exchange}
    (h : Accounts r asks (.error failure : Except Failure α) new)
    (hending : failure.ending? = some ending) : failure.exitCode.number = ending.getD 2 := by
  obtain ⟨before, e, -, hfailed, rfl⟩ := h.of_ending hending
  rw [Failure.exitCode_of_ending? hending]
  exact ExitCode.number_ofEnding (by simpa [Response.succeeded] using hfailed)

/-- What two parts exchange accounts for the end of both together. -/
theorem chains_accounts : Chains (Accounts r asks : Except Failure α → _ → Prop)
    (Accounts r asks : Except Failure β → _ → Prop) (Accounts r asks) where
  stop := fun failure new h => by
    cases h with
    | stopped hown hpassed => exact .stopped hown hpassed
    | ended hbefore hfailed hcause => exact .ended hbefore hfailed hcause
  go := fun a outcome new more h hmore => by
    cases h with
    | completed hpassed => exact hmore.append hpassed

/-! ## Parts of a run -/

/-- Returning a value exchanges nothing. -/
theorem accounts_pure {a : α} : Adds host (pure a : Session α) (Accounts r asks) :=
  .pure (.completed (by simp))

/-- Failing with a failure of one's own exchanges nothing. -/
theorem accounts_throw {failure : Failure} (h : failure.IsOwn) :
    Adds host (throw failure : Session α) (Accounts r asks) :=
  .throw (.stopped h (by simp))

/-- One session after the other accounts for its end when both do. -/
theorem accounts_bind {x : Session α} {f : α → Session β} (hx : Adds host x (Accounts r asks))
    (hf : ∀ a, Adds host (f a) (Accounts r asks)) : Adds host (x >>= f) (Accounts r asks) :=
  Adds.chain chains_accounts hx hf

/-- A check in front of a session accounts for its end when its failure is one of one's own. -/
theorem accounts_check {γ : Type} {c : Prop} [Decidable c] {failure : Failure}
    {g : γ → Session α} {x : Session α} (h : failure.IsOwn)
    (hx : Adds host x (Accounts r asks)) :
    Adds host (if c then MonadExcept.throw failure >>= g else x) (Accounts r asks) :=
  Adds.check (fun _ => .stopped h (by simp)) fun _ => hx

/-- Sessions for the items of a list account for their end when each of them does. -/
theorem accounts_mapM {ι : Type} {items : List ι} {program : ι → Session α}
    (h : ∀ item, Adds host (program item) (Accounts r asks)) :
    Adds host (items.mapM program) (Accounts r asks) := by
  induction items with
  | nil => exact accounts_pure
  | cons item items ih =>
      rw [List.mapM_cons]
      exact accounts_bind (h item) fun _ => accounts_bind ih fun _ => accounts_pure

/-- A program on files starts no other program, and its failures are its own. -/
theorem accounts_files {program : Storage Failure α} (h : Throws Failure.IsOwn program) :
    Adds host (Session.files program) (Accounts r asks) where
  run := fun world => by
    refine ⟨[], (List.append_nil _).symm, ?_⟩
    rw [Session.exec_files]
    cases houtcome : (program.exec host.caller world.files).1 with
    | ok a => exact .completed (by simp)
    | error failure => exact .stopped (h.error _ _ _ houtcome) (by simp)

/-- What is printed in front of a session does not matter to what it exchanges. -/
theorem adds_behindOut {bytes : Bytes} {x : Session α} {R : Except Failure α → List Exchange → Prop}
    (h : Adds host x R) : Adds host (Session.writeOut bytes >>= fun _ => x) R where
  run := fun world => h.run { world with stdout := world.stdout ++ bytes }

/-- What is printed as an error in front of a session does not matter to what it exchanges. -/
theorem adds_behindError {bytes : Bytes} {x : Session α}
    {R : Except Failure α → List Exchange → Prop} (h : Adds host x R) :
    Adds host (Session.writeError bytes >>= fun _ => x) R where
  run := fun world => h.run { world with stderr := world.stderr ++ bytes }

/-- Printing a line exchanges nothing. -/
theorem accounts_print {line : String} : Adds host (Session.print line) (Accounts r asks) where
  run := fun _ => ⟨[], (List.append_nil _).symm, .completed (by simp)⟩

/-! ## Starting programs -/

/-- Either a program could not be started, and the failure tells of no program, or it is the one
exchange there is. -/
def Starts (argv : List String) : Except Failure Response → List Exchange → Prop :=
  fun outcome new => (∃ failure : Failure, failure.IsOwn ∧ outcome = .error failure ∧ new = []) ∨
    ∃ e, new = [e] ∧ e.invocation.argv = argv ∧ outcome = .ok e.response

/-- The end of a run after a program did not succeed. -/
def Ends (r : Release) (argv : List String) (response : Response) :
    Except Failure α → List Exchange → Prop :=
  fun outcome new => new = [] ∧ ∃ failure : Failure, outcome = .error failure ∧
    (failure.ending? = some response.ending ∨ Refusal r argv failure)

section Starts

variable {argv : List String} {x : Session Response} {f : Response → Session α}

/-- What follows a program is accounted for together with its exchange; a program that could not be
started accounts for itself. -/
theorem accounts_started (hx : Adds host x (Starts argv))
    (hf : ∀ e : Exchange, e.invocation.argv = argv →
      Adds host (f e.response) fun outcome more => Accounts r asks outcome ([e] ++ more)) :
    Adds host (x >>= f) (Accounts r asks) := by
  refine hx.bind ?_ ?_
  · rintro failure new (⟨cause, hown, hcause, rfl⟩ | ⟨e, -, -, houtcome⟩)
    · obtain rfl := Except.error.inj hcause
      exact .stopped hown (by simp)
    · exact absurd houtcome (by simp)
  · rintro response new (⟨cause, -, hcause, -⟩ | ⟨e, rfl, hargv, houtcome⟩)
    · exact absurd hcause (by simp)
    · obtain rfl := Except.ok.inj houtcome
      exact hf e hargv

/-- A program that has to succeed. -/
theorem accounts_required (hx : Adds host x (Starts argv))
    (hgoes : ∀ response, response.succeeded = true → Adds host (f response) (Accounts r asks))
    (hends : ∀ response, response.succeeded = false → Adds host (f response) (Ends r argv response)) :
    Adds host (x >>= f) (Accounts r asks) := by
  refine accounts_started hx fun e hargv => ?_
  cases hsucceeded : e.response.succeeded with
  | true =>
      refine (hgoes _ hsucceeded).weaken fun outcome more hmore => hmore.append ?_
      simp [Passed, hsucceeded]
  | false =>
      refine (hends _ hsucceeded).weaken ?_
      rintro outcome more ⟨rfl, failure, rfl, hcause⟩
      refine @Accounts.ended _ r asks failure [] e (by simp) hsucceeded ?_
      exact hcause.imp_right fun hrefusal => hargv ▸ hrefusal

/-- A question after which the run goes on. -/
theorem accounts_asked (hx : Adds host x (Starts argv)) (hasked : argv ∈ asks)
    (hf : ∀ response, Adds host (f response) (Accounts r asks)) :
    Adds host (x >>= f) (Accounts r asks) := by
  refine accounts_started hx fun e hargv => ?_
  refine (hf e.response).weaken fun outcome more hmore => hmore.append ?_
  intro asked hmem
  rw [List.mem_singleton.1 hmem]
  exact .inr (hargv ▸ hasked)

/-- Failing with the status of a program is an end after that program. -/
theorem ends_throw {response : Response} {failure : Failure}
    (h : failure.ending? = some response.ending) :
    Adds host (throw failure : Session α) (Ends r argv response) :=
  .throw ⟨rfl, failure, rfl, .inl h⟩

/-- Failing with a refusal is an end after the question that was refused. -/
theorem ends_refused {response : Response} {failure : Failure} (h : Refusal r argv failure) :
    Adds host (throw failure : Session α) (Ends r argv response) :=
  .throw ⟨rfl, failure, rfl, .inr h⟩

/-- What would come behind a failure does not matter to the end. -/
theorem ends_throwFirst {γ : Type} {g : γ → Session α} {response : Response} {failure : Failure}
    (h : failure.ending? = some response.ending ∨ Refusal r argv failure) :
    Adds host (MonadExcept.throw failure >>= g) (Ends r argv response) :=
  .throw ⟨rfl, failure, rfl, h⟩

/-- A program is started, unless it cannot be, with a failure that tells of no program. -/
theorem starts_of_call {directory : Option Path} {g : Except FileError Response → Session Response}
    (herror : ∀ e, ∃ failure : Failure, failure.IsOwn ∧ g (.error e) = throw failure)
    (hok : ∀ response, g (.ok response) = pure response) :
    Adds host (Session.call directory argv >>= g) (Starts argv) := by
  refine .ofCall (fun e => ?_) fun e hargv => ?_
  · obtain ⟨failure, hown, hfailure⟩ := herror e
    rw [hfailure]
    exact .throw (.inl ⟨failure, hown, rfl, rfl⟩)
  · rw [hok]
    exact .pure (.inr ⟨e, rfl, hargv, rfl⟩)

end Starts

/-- Starting `git` either fails to, or is one exchange. -/
theorem starts_start (argv : List String) (verb : String) :
    Adds host (Repository.start argv verb) (Starts argv) :=
  starts_of_call (fun _ => ⟨_, by exact rfl, rfl⟩) fun _ => rfl

/-- Starting a configured command either fails to, or is one exchange. -/
theorem starts_command (root : Path) (argv : List String) :
    Adds host (Command.start root argv) (Starts argv) := by
  unfold Command.start
  refine Adds.check (fun _ => .inl ⟨_, by exact rfl, rfl, rfl⟩) fun _ => ?_
  exact starts_of_call (fun _ => ⟨_, by exact rfl, rfl⟩) fun _ => rfl

/-! ## Configured commands -/

section Command

variable {root : Path} {argv : List String} {response : Response}

/-- A command that succeeded passes its check. -/
theorem accounts_commandCheck (h : response.succeeded = true) :
    Adds host (Command.check argv response) (Accounts r asks) := by
  rw [Command.check, if_pos h]
  exact accounts_pure

/-- A command that did not succeed ends the run. -/
theorem ends_commandCheck (h : response.succeeded = false) {f : Unit → Session α} :
    Adds host (Command.check argv response >>= f) (Ends r argv response) := by
  rw [Command.check, if_neg (by simp [h])]
  exact ends_throwFirst (.inl rfl)

/-- Running a configured command accounts for its end. -/
theorem accounts_command : Adds host (Command.run root argv) (Accounts r asks) := by
  refine accounts_required (starts_command root argv) (fun response h => ?_) fun response h => ?_
  · exact adds_behindOut (adds_behindError (accounts_commandCheck h))
  · rw [← bind_pure (Command.check argv response)]
    exact adds_behindOut (adds_behindError (ends_commandCheck h))

/-- Running a configured command for its output accounts for its end. -/
theorem accounts_capture : Adds host (Command.capture root argv) (Accounts r asks) := by
  refine accounts_required (starts_command root argv) (fun response h => ?_) fun response h => ?_
  · exact adds_behindError (accounts_bind (accounts_commandCheck h) fun _ => accounts_pure)
  · exact adds_behindError (ends_commandCheck h)

/-- The package builder has to succeed too. -/
theorem accounts_builder {builder : BuilderSection} {archive : Path} :
    Adds host (Builder.build builder archive) (Accounts r asks) := by
  unfold Builder.build
  refine accounts_bind (accounts_files (.query fun _ _ _ h => absurd h (by simp))) fun found => ?_
  refine accounts_check rfl ?_
  have hstarts : Adds host (Session.call none (Builder.argv builder archive) >>=
      Except.rec (fun e => throw (.withHelp ("Failed to execute " ++ builder.command ++ ": " ++ e.text)
        "Install rpm-build or point [builder] command at your package builder.")) pure)
      (Starts (Builder.argv builder archive)) :=
    starts_of_call (fun _ => ⟨_, by exact rfl, rfl⟩) fun _ => rfl
  have hbuild := @accounts_required _ host r asks _ _ (fun response => do
      Session.writeOut response.stdout
      Session.writeError response.stderr
      if !response.succeeded then
        throw (.stage (.buildFailed (Builder.commandLine builder archive) response.ending)))
    hstarts (fun response h => ?_) fun response h => ?_
  · rw [bind_assoc] at hbuild
    convert hbuild using 3 with answer
    cases answer <;> rfl
  · simp only [h, Bool.not_true]
    exact adds_behindOut (adds_behindError accounts_pure)
  · simp only [h, Bool.not_false]
    exact adds_behindOut (adds_behindError (ends_throw rfl))

end Command

/-! ## Commands of the repository -/

/-- A command of the repository that has to succeed accounts for its end. -/
theorem accounts_run (args : List String) :
    Adds host (Repository.run ⟨r.root⟩ args) (Accounts r asks) := by
  unfold Repository.run
  refine accounts_required (starts_start _ _) (fun response h => ?_) fun response h => ?_
  · rw [if_pos h]
    exact accounts_pure
  · rw [if_neg (by simp [h])]
    exact ends_throw rfl

/-- A question to the repository is a start of `git`, of which only the success is looked at. -/
theorem succeeds_bind (repository : Repository) (args : List String) (f : Bool → Session α) :
    repository.succeeds args >>= f =
      Repository.start (repository.settings ++ args) (args.headD "") >>= fun response =>
        f response.succeeded := by
  rw [Repository.succeeds, bind_assoc]
  rfl

/-- Opening the repository accounts for its end. -/
theorem accounts_openAt : Adds host (Repository.openAt r.root) (Accounts r asks) := by
  refine accounts_required (starts_start _ _) (fun response h => ?_) fun response h => ?_
  · rw [if_pos h]
    exact accounts_pure
  · rw [if_neg (by simp [h])]
    dsimp only
    split
    · exact ends_throwFirst (.inr .noRepository)
    · exact ends_refused (.notOpened _)

/-- Committing all changes accounts for its end. -/
theorem accounts_commitAll (message : String) :
    Adds host (Repository.commitAll ⟨r.root⟩ message) (Accounts r asks) := by
  unfold Repository.commitAll Repository.hasPendingChanges
  refine accounts_bind (accounts_bind (accounts_run _) fun _ => accounts_pure) fun pending => ?_
  split
  · exact accounts_pure
  · exact accounts_bind (accounts_run _) fun _ => accounts_pure

/-- Committing the changelog accounts for its end, if the run may ask whether it changed. -/
theorem accounts_commitPath (message : String) (h : changeQuestion r ∈ asks) :
    Adds host (Repository.commitPath ⟨r.root⟩ r.configuration.versionControl.changelog message)
      (Accounts r asks) := by
  unfold Repository.commitPath
  refine accounts_bind (accounts_run _) fun _ => ?_
  rw [succeeds_bind]
  refine accounts_asked (starts_start _ _) h fun response => ?_
  split
  · exact accounts_pure
  · exact accounts_bind (accounts_run _) fun _ => accounts_pure

/-- Creating the tag accounts for its end, if the run may ask whether there is one. -/
theorem accounts_createTag (message : String) (force : Bool) (h : question r ∈ asks) :
    Adds host (Repository.createTag ⟨r.root⟩ r.tag message force) (Accounts r asks) := by
  have hcreate : Adds host (do
      let _ ← Repository.run ⟨r.root⟩
        (["tag", "-a"] ++ (if force then ["-f"] else []) ++ [r.tag.text, "-m", message])
      pure ()) (Accounts r asks) :=
    accounts_bind (accounts_run _) fun _ => accounts_pure
  unfold Repository.createTag Repository.tagExists
  dsimp only
  cases force with
  | false =>
      rw [if_pos (by decide), succeeds_bind]
      refine accounts_asked (starts_start _ _) h fun response => ?_
      exact accounts_check rfl hcreate
  | true =>
      rw [if_neg (by decide)]
      exact hcreate

/-- Reading the history accounts for its end. -/
theorem accounts_history :
    Adds host (Repository.history ⟨r.root⟩) (Accounts r asks) := by
  have hcommit (name : String) : Adds host (Repository.commit ⟨r.root⟩ name) (Accounts r asks) := by
    unfold Repository.commit
    refine accounts_bind (accounts_run _) fun log => ?_
    split
    · exact accounts_pure
    · exact accounts_throw rfl
  unfold Repository.history Repository.commits
  rw [succeeds_bind]
  refine accounts_required (starts_start _ _) (fun response h => ?_) fun response h => ?_
  · simp only [h, Bool.not_true]
    refine accounts_bind (accounts_bind (accounts_run _) fun _ => accounts_pure) fun names => ?_
    exact accounts_mapM hcommit
  · simp only [h, Bool.not_false]
    exact ends_throwFirst (.inr .noCommits)

/-- Exporting the tag accounts for its end. -/
theorem accounts_exportTag (part destination : Path) :
    Adds host (Repository.exportTag ⟨r.root⟩ r.tag part destination) (Accounts r asks) := by
  unfold Repository.exportTag Repository.tagExists
  rw [succeeds_bind]
  refine accounts_required (starts_start _ _) (fun response h => ?_) fun response h => ?_
  · simp only [h, Bool.not_true]
    refine accounts_bind (accounts_run _) fun _ => accounts_bind (accounts_run _) fun archive => ?_
    exact accounts_files (Repository.throws_unpackAll _ _)
  · simp only [h, Bool.not_false]
    exact ends_throwFirst (.inr .noTag)

/-! ## Recording and exporting -/

/-- Making the changelog anew accounts for its end. -/
theorem accounts_regenerateChangelog (h : changeQuestion r ∈ asks) :
    Adds host (Recording.regenerateChangelog r ⟨r.root⟩) (Accounts r asks) := by
  have hcontent : Adds host (Recording.changelogContent r ⟨r.root⟩) (Accounts r asks) := by
    unfold Recording.changelogContent
    dsimp only
    split
    · exact accounts_bind accounts_history fun _ => accounts_pure
    · exact accounts_capture
  unfold Recording.regenerateChangelog
  refine accounts_bind hcontent fun content => ?_
  have hcommit : Adds host (do
      Session.files (Staging.remarked
        ("Failed to write " ++ (r.root.join r.configuration.versionControl.changelog).text)
        (Storage.writeFile (r.root.join r.configuration.versionControl.changelog) content))
      let message := Changelog.commitMessage (← read).today
      let committed ← Repository.commitPath ⟨r.root⟩ r.configuration.versionControl.changelog message
      return (⟨r.root.join r.configuration.versionControl.changelog, committed⟩ :
        Recording.ChangelogOutcome)) (Accounts r asks) := by
    refine accounts_bind (accounts_files (Staging.throws_remarked _ _)) fun _ => Adds.read ?_
    exact accounts_bind (accounts_commitPath _ h) fun _ => accounts_pure
  dsimp only
  split
  · exact accounts_bind (accounts_files (Staging.throws_remarked _ _)) fun _ => hcommit
  · exact hcommit

/-- Tagging the release accounts for its end. -/
theorem accounts_tagRelease (force : Bool) (h : question r ∈ asks) :
    Adds host (Recording.tagRelease r ⟨r.root⟩ force) (Accounts r asks) := by
  unfold Recording.tagRelease
  refine accounts_bind (accounts_commitAll _) fun committed => ?_
  exact accounts_bind (accounts_createTag _ _ h) fun _ => accounts_pure

/-- Filling the staging directory from the tag accounts for its end. -/
theorem accounts_exportStage :
    Adds host (Export.stage r ⟨r.root⟩ r.stagingDirectory) (Accounts r asks) := by
  have hexport : Adds host (do
      Session.files (Staging.remarked ("Failed to create " ++ r.stagingDirectory.text)
        (Storage.createDirectories r.stagingDirectory))
      Repository.exportTag ⟨r.root⟩ r.tag r.configuration.versionControl.module r.stagingDirectory)
      (Accounts r asks) :=
    accounts_bind (accounts_files (Staging.throws_remarked _ _)) fun _ => accounts_exportTag _ _
  unfold Export.stage
  refine accounts_bind (accounts_files Throws.isDirectory) fun there => ?_
  dsimp only
  split
  · refine accounts_bind (accounts_files (.mapError fun _ => rfl)) fun empty => ?_
    exact accounts_check rfl hexport
  · exact hexport

/-! ## Runs -/

/-- Showing the tag accounts for its end. -/
theorem accounts_showTag (outcome : Recording.TagOutcome) :
    Adds host (showTag r outcome) (Accounts r asks) := by
  unfold showTag
  split
  · exact accounts_bind accounts_print fun _ => accounts_print
  · exact accounts_print

/-- One session after the other that keep the repository account for their end when both do. -/
theorem runAccounts_bind {x : Run α} {f : α → Run β} (hx : RunAdds host r x (Accounts r asks))
    (hf : ∀ a, RunAdds host r (f a) (Accounts r asks)) :
    RunAdds host r (x >>= f) (Accounts r asks) :=
  RunAdds.chain chains_accounts hx hf

/-- What is done in the repository accounts for its end when it is that of the root. -/
theorem runAccounts_inRepository {f : Repository → Run α}
    (h : RunAdds host r (f ⟨r.root⟩) (Accounts r asks)) :
    RunAdds host r (repository r >>= f) (Accounts r asks) :=
  .inOpened (.completed (by simp)) accounts_openAt chains_accounts h

/-- Recording the release accounts for its end. -/
theorem runAccounts_recordRelease (options : RunOptions) (hchangelog : changeQuestion r ∈ asks)
    (htag : question r ∈ asks) :
    RunAdds host r (recordRelease r options) (Accounts r asks) := by
  unfold recordRelease Recording.record
  refine runAccounts_inRepository (runAccounts_bind (RunAdds.lift ?_) fun outcomes => ?_)
  · refine accounts_bind (accounts_regenerateChangelog hchangelog) fun changelog => ?_
    exact accounts_bind (accounts_tagRelease _ htag) fun _ => accounts_pure
  · obtain ⟨changelog, tag⟩ := outcomes
    exact runAccounts_bind (RunAdds.lift accounts_print) fun _ => RunAdds.lift (accounts_showTag _)

/-- What one step exchanges accounts for how it ends. -/
theorem runAccounts_runAction (options : RunOptions) {step : Target}
    (h : ∀ argv ∈ asked r step, argv ∈ asks) :
    RunAdds host r (runAction r options step) (Accounts r asks) := by
  have hprint {line : String} : Adds host (Session.print line) (Accounts r asks) := accounts_print
  unfold runAction
  -- each step is a program on files, or starts programs that account for their end
  cases step with
  | build =>
      unfold runBuild Project.build
      refine RunAdds.lift (accounts_bind ?_ fun built => ?_)
      · split
        · exact accounts_pure
        · exact accounts_bind accounts_command fun _ => accounts_pure
      · split
        · exact hprint
        · exact hprint
  | installFiles =>
      exact runAccounts_bind (RunAdds.lift (accounts_files (Project.throws_install _ _))) fun _ =>
        RunAdds.lift hprint
  | clean =>
      exact runAccounts_bind (RunAdds.lift (accounts_files (Project.throws_clean _))) fun _ =>
        RunAdds.lift hprint
  | verify =>
      unfold Project.verify
      refine runAccounts_bind (RunAdds.lift (accounts_check rfl accounts_command)) fun _ => ?_
      exact RunAdds.lift hprint
  | changelog =>
      refine runAccounts_inRepository (runAccounts_bind (RunAdds.lift ?_) fun _ => RunAdds.lift hprint)
      exact accounts_regenerateChangelog (h _ (by simp [asked]))
  | tag =>
      refine runAccounts_inRepository (runAccounts_bind (RunAdds.lift ?_) fun _ => ?_)
      · exact accounts_tagRelease _ (h _ (by simp [asked]))
      · exact RunAdds.lift (accounts_showTag _)
  | cleanDist =>
      refine runAccounts_bind (RunAdds.lift (accounts_files (Staging.throws_clean _))) fun removed => ?_
      split
      · exact RunAdds.lift hprint
      · exact RunAdds.pure (.completed (by simp))
  | localCopy =>
      unfold runCopy
      refine RunAdds.lift (accounts_bind (accounts_files (Staging.throws_create _)) fun staging => ?_)
      split
      · next failure hfailure => exact accounts_throw (Manifest.isOwn_of_ofRelease hfailure)
      · exact accounts_bind (accounts_files (Manifest.throws_stage _ _ _)) fun copied => hprint
  | exportTag =>
      unfold runExport
      refine runAccounts_inRepository (runAccounts_bind (RunAdds.lift accounts_exportStage) fun _ => ?_)
      exact RunAdds.lift hprint
  | archive =>
      unfold runArchive
      refine RunAdds.lift (Adds.read ?_)
      refine accounts_bind (accounts_files (Archive.throws_create _ _ _)) fun report => ?_
      exact accounts_bind hprint fun _ => hprint
  | buildRpm =>
      unfold runBuilder
      exact RunAdds.lift (accounts_bind hprint fun _ => accounts_bind accounts_builder fun _ => hprint)
  | install | localDist | dist | localRpm | rpm => exact RunAdds.pure (.completed (by simp))

/-- One step after the other, what a run exchanges accounts for how it ends. -/
theorem runAccounts_runSteps (options : RunOptions) {steps : List Target}
    (h : ∀ step ∈ steps, ∀ argv ∈ asked r step, argv ∈ asks) :
    RunAdds host r (runSteps r options steps) (Accounts r asks) := by
  induction steps using runSteps.induct with
  | case1 rest ih =>
      rw [runSteps]
      refine runAccounts_bind (runAccounts_recordRelease options ?_ ?_) fun _ => ?_
      · exact h .changelog (by simp) _ (by simp [asked])
      · exact h .tag (by simp) _ (by simp [asked])
      · exact ih fun step hstep => h step (by simp [hstep])
  | case2 step rest hstep ih =>
      rw [runSteps]
      · refine runAccounts_bind (runAccounts_runAction options (h step (by simp))) fun _ => ?_
        exact ih fun later hlater => h later (by simp [hlater])
      · exact hstep
  | case3 => exact RunAdds.pure (.completed (by simp))

/-- The questions of a target after which a run goes on. -/
def questions (r : Release) (target : Target) : List (List String) :=
  target.plan.flatMap (asked r)

/-- Showing a plan accounts for its end. -/
theorem accounts_showPlan (target : Target) (release : Option Release) (json : Bool) :
    Adds host (showPlan target release json) (Accounts r asks) := by
  have hlines (lines : List String) : Adds host (lines.forM Session.print) (Accounts r asks) := by
    induction lines with
    | nil => exact accounts_pure
    | cons line lines ih => exact accounts_bind accounts_print fun _ => ih
  unfold showPlan
  split
  · exact accounts_print
  · exact hlines _

/-- Running a target accounts for its end, with the questions of the target. -/
theorem accounts_target (options : RunOptions) (target : Target) :
    Adds host (run r options target) (Accounts r (questions r target)) := by
  unfold run
  split
  · exact accounts_showPlan _ _ _
  · refine accounts_bind (Adds.map ?_) fun _ => ?_
    · have hsteps := (@runAccounts_runSteps host r (questions r target) options target.plan ?_).run none
        (by simp)
      · exact hsteps.weaken fun _ _ h => h.2
      · intro step hstep argv hargv
        exact List.mem_flatMap.2 ⟨step, hstep, hargv⟩
    · split
      · exact accounts_print
      · exact accounts_pure

end Execution

namespace Application

open Execution (Accounts accounts_bind accounts_files)

/-- A run that only shows something, or cannot find what it is about, has failures of its own. -/
theorem accounts_show {arguments : CommandLine.Arguments}
    (h : ∀ target options, arguments.request ≠ .run target options) :
    Session.Adds host (run arguments) (Accounts r asks) := by
  unfold run perform
  refine accounts_bind (accounts_files (throws_findRoot _)) fun root => ?_
  split
  · refine accounts_bind ?_ fun release => Execution.accounts_showPlan _ _ _
    exact ⟨fun world => ⟨[], (List.append_nil _).symm, .completed (by simp)⟩⟩
  · refine accounts_bind (accounts_files (Release.throws_resolve _ _)) fun release => ?_
    exact Execution.accounts_print
  · next target options hrequest => exact absurd hrequest (h target options)

/-- What a command line exchanges accounts for how it ends: it exchanges nothing, or it runs a target
with the release that it is about. -/
theorem accounts_of_run (arguments : CommandLine.Arguments) (host : Host) (world : World) :
    ∃ new r asks, ((run arguments).exec host world).2.exchanges = world.exchanges ++ new ∧
      Accounts r asks ((run arguments).exec host world).1 new ∧
      (new = [] ∨ ∃ target options,
        ((release arguments).exec host.caller world.files).1 = .ok r ∧
        arguments.request = .run target options ∧ asks = Execution.questions r target) := by
  rcases shows_or_runs arguments with hshow | ⟨target, options, hrequest⟩
  · -- any release will do, since nothing is started
    have hadds : Session.Adds host (run arguments) (Accounts (Release.described "p") []) :=
      accounts_show hshow
    have hnone : Session.Adds host (run arguments) (Session.Only fun _ => False) := adds_show hshow
    obtain ⟨new, hnew, haccounts⟩ := hadds.run world
    obtain ⟨same, hsame, hempty⟩ := hnone.run world
    obtain rfl : new = same := List.append_cancel_left (hnew.symm.trans hsame)
    exact ⟨new, _, _, hnew, haccounts, .inl (List.eq_nil_iff_forall_not_mem.2 hempty)⟩
  · rw [run_eq hrequest, Session.exec_bind, Session.exec_files]
    cases hrelease : ((release arguments).exec host.caller world.files).1 with
    | error failure =>
        have hown : failure.IsOwn := by
          refine Storage.Throws.error ?_ _ _ _ hrelease
          exact (throws_findRoot _).bind fun root => Release.throws_resolve _ _
        exact ⟨[], Release.described "p", [], (List.append_nil _).symm, .stopped hown (by simp),
          .inl rfl⟩
    | ok r =>
        obtain ⟨new, hnew, hrun⟩ := (@Execution.accounts_target host r options target).run
          { world with files := ((release arguments).exec host.caller world.files).2 }
        exact ⟨new, r, _, hnew, hrun, .inr ⟨target, options, rfl, hrequest, rfl⟩⟩

/-- A command line exchanges what its run does, and its status is that of the failure, or zero. -/
theorem execute_eq {arguments : CommandLine.Arguments} {world : World} :
    (execute arguments host world).2.exchanges = ((run arguments).exec host world).2.exchanges ∧
    (execute arguments host world).1 = match ((run arguments).exec host world).1 with
      | .ok () => 0
      | .error failure => failure.exitCode.number := by
  unfold execute
  rcases (run arguments).exec host world with ⟨_ | _, _⟩ <;> exact ⟨rfl, rfl⟩

/-- Whatever a command line says and whatever other programs do: a run that only shows something, or
finds no release, starts none; and any other is the run of a target with the release of the root.  A
program of such a run that does not succeed is either asked one of the questions of the target after
which a run goes on, or it is the last one and the cause of the failure: with a question that ends the
run, or else with its own status, which is two for a program that was ended by a signal.  Runs without
a failure, and no others, have the status zero.  Remarks change nothing of that, and when a failure
tells how a program ended, then that program was the last one.  Where commits are fetched, the last
program is meant up to the first fetch that fails. -/
theorem status_of_execute (arguments : CommandLine.Arguments) (host : Host) (world : World) :
    ∃ status outcome new, (execute arguments host world).1 = status ∧
      ((run arguments).exec host world).1 = outcome ∧
      (execute arguments host world).2.exchanges = world.exchanges ++ new ∧
      (new = [] ∨ ∃ r target options,
        ((release arguments).exec host.caller world.files).1 = .ok r ∧
        arguments.request = .run target options ∧
        ∀ before e later, new = before ++ e :: later → e.response.succeeded = false →
          e.invocation.argv ∈ Execution.questions r target ∨
          later = [] ∧ ∃ failure, outcome = .error failure ∧
            (Execution.Refusal r e.invocation.argv failure ∨
              failure.ending? = some e.response.ending ∧ status = e.response.ending.getD 2)) ∧
      (outcome = .ok () → status = 0) ∧
      ∀ failure, outcome = .error failure →
        status ≠ 0 ∧ (∀ remark, (failure.context remark).exitCode.number = status) ∧
        ∀ ending, failure.ending? = some ending → status = ending.getD 2 ∧
          ∃ before e, new = before ++ [e] ∧ e.response.succeeded = false ∧
            e.response.ending = ending := by
  obtain ⟨new, r, asks, hnew, haccounts, hrun⟩ := accounts_of_run arguments host world
  obtain ⟨hexchanges, hstatus⟩ := @execute_eq host arguments world
  have hnumber (failure : Failure) (h : ((run arguments).exec host world).1 = .error failure) :
      (execute arguments host world).1 = failure.exitCode.number := by
    rw [hstatus, h]
  have hending (failure : Failure) (h : ((run arguments).exec host world).1 = .error failure)
      (ending : Ending) (htells : failure.ending? = some ending) :
      (execute arguments host world).1 = ending.getD 2 := by
    rw [hnumber failure h]
    exact (h ▸ haccounts).number_exitCode htells
  refine ⟨_, _, new, rfl, rfl, hexchanges.trans hnew, ?_, fun h => ?_, fun failure h => ?_⟩
  · refine hrun.imp_right ?_
    rintro ⟨target, options, hrelease, hrequest, rfl⟩
    refine ⟨r, target, options, hrelease, hrequest, fun before e later hsplit hfailed => ?_⟩
    -- a failed program that is no question accounts for the end of the run
    refine or_iff_not_imp_left.2 fun hasked => ?_
    obtain ⟨hlater, failure, hfailure, hcause⟩ := haccounts.of_failed hsplit hfailed hasked
    refine ⟨hlater, failure, hfailure, hcause.symm.imp_right fun htells => ?_⟩
    exact ⟨htells, hending failure hfailure _ htells⟩
  · rw [hstatus, h]
  · refine ⟨?_, fun remark => ?_, fun ending htells => ?_⟩
    · rw [hnumber failure h]
      exact failure.number_exitCode_ne_zero
    · rw [Failure.exitCode_context, hnumber failure h]
    · exact ⟨hending failure h ending htells, (h ▸ haccounts).of_ending htells⟩

end Application

end RpmRelease
