import RpmRelease.Proofs.Execution.Ending
import RpmRelease.Proofs.FileSystem.Growing
import RpmRelease.Proofs.Text.Listing

/-!
# Making the changelog anew

The contents of the changelog are fetched from other programs: from the history, commit by commit, or
from the configured command.  Until they are complete nothing is written and nothing is committed.
Then the document is written, and committed if `git` does not say that it is as it was.
-/

set_option autoImplicit false

namespace RpmRelease

open Relation (ReflTransGen)
open Session (Adds Sends)

variable {α β ι : Type} {host : Host}

/-! ## Worlds that other programs change -/

/-- Something is shown, or another program is started and does what it does. -/
inductive Moves (host : Host) : World → World → Prop
  | shown (world : World) (stdout stderr : Bytes) : Moves host world { world with stdout, stderr }
  | answered (world : World) (invocation : Invocation) (response : Response) (files : FileSystem)
    (h : host.programs.respond world.calls invocation
      { host.caller with directory := invocation.directory } world.files = (response, files)) :
    Moves host world { world with files, exchanges := world.exchanges ++ [⟨invocation, response⟩] }

/-- Files are changed by nothing but other programs. -/
abbrev Driven (host : Host) : World → World → Prop :=
  ReflTransGen (Moves host)

namespace Session

/-- A session that changes no files of its own. -/
structure Drives (host : Host) (x : Session α) : Prop where
  run : ∀ world, Driven host world (x.exec host world).2

/-- Returning a value changes no files. -/
theorem Drives.pure {a : α} : Drives host (pure a : Session α) where
  run := fun _ => .refl

/-- Failing changes no files. -/
theorem Drives.throw {failure : Failure} : Drives host (throw failure : Session α) where
  run := fun _ => .refl

/-- Two sessions that change no files of their own change none one after the other. -/
theorem Drives.bind {x : Session α} {f : α → Session β} (hx : Drives host x)
    (hf : ∀ a, Drives host (f a)) : Drives host (x >>= f) where
  run := fun world => by
    have hfirst := hx.run world
    rw [exec_bind]
    rcases hrun : x.exec host world with ⟨failure | a, middle⟩
    · rw [hrun] at hfirst
      exact hfirst
    · rw [hrun] at hfirst
      exact hfirst.trans ((hf a).run middle)

/-- Sessions for the items of a list change no files of their own when none of them does. -/
theorem Drives.mapM {items : List ι} {program : ι → Session α}
    (h : ∀ item, Drives host (program item)) : Drives host (items.mapM program) := by
  induction items with
  | nil => exact .pure
  | cons item items ih =>
      rw [List.mapM_cons]
      exact (h item).bind fun _ => ih.bind fun _ => .pure

/-- Writing to the standard error stream changes no files. -/
theorem Drives.writeError {bytes : Bytes} : Drives host (writeError bytes) where
  run := fun world => .single (.shown world _ _)

/-- Calling a program changes the files as the program does. -/
theorem Drives.call (directory : Option Path) (argv : List String) :
    Drives host (call directory argv) where
  run := fun world => by
    simp only [Session.call, exec, ofExec]
    cases Invocation.prepare host world.files directory argv with
    | error e => exact .refl
    | ok invocation => exact .single (.answered world invocation _ _ rfl)

/-- What each item of a list adds is one exchange, which says what comes of it. -/
theorem Adds.mapM_forall₂ {items : List ι} {program : ι → Session α} {P : Exchange → Prop}
    {asks : ι → Exchange → Prop} {tells : Exchange → α → Prop}
    (h : ∀ item, Adds host (program item) fun outcome new => (∀ e ∈ new, P e) ∧
      ∀ a, outcome = .ok a → ∃ e, new = [e] ∧ asks item e ∧ tells e a) :
    Adds host (items.mapM program) fun outcome new => (∀ e ∈ new, P e) ∧
      ∀ results, outcome = .ok results → List.Forall₂ asks items new ∧
        List.Forall₂ tells new results := by
  induction items with
  | nil =>
      refine .pure ⟨by simp, fun results hresults => ?_⟩
      obtain rfl := Except.ok.inj hresults
      exact ⟨.nil, .nil⟩
  | cons item items ih =>
      rw [List.mapM_cons]
      refine (h item).bind (fun failure new hnew => ⟨hnew.1, by simp⟩) fun a new hnew => ?_
      obtain ⟨e, rfl, hasks, htells⟩ := hnew.2 a rfl
      refine ih.bind (fun failure more hmore => ⟨?_, by simp⟩) fun results more hmore => .pure ⟨?_, ?_⟩
      · exact fun other hother => (List.mem_append.1 hother).elim (hnew.1 other) (hmore.1 other)
      · rw [List.append_nil]
        exact fun other hother => (List.mem_append.1 hother).elim (hnew.1 other) (hmore.1 other)
      · intro all hall
        obtain rfl := Except.ok.inj hall
        obtain ⟨hmoreAsks, hmoreTells⟩ := hmore.2 results rfl
        rw [List.append_nil]
        exact ⟨.cons hasks hmoreAsks, .cons htells hmoreTells⟩

end Session

open Session (Drives)

namespace Repository

/-- Starting `git` changes no files of its own. -/
theorem drives_start (argv : List String) (verb : String) : Drives host (start argv verb) := by
  unfold start
  refine (Drives.call none argv).bind fun answer => ?_
  cases answer
  · exact .throw
  · exact .pure

/-- A command of the repository changes no files of its own. -/
theorem drives_run (repository : Repository) (args : List String) :
    Drives host (repository.run args) := by
  unfold run
  refine (drives_start _ _).bind fun response => ?_
  split
  · exact .pure
  · exact .throw

/-- A question to the repository changes no files of its own. -/
theorem drives_succeeds (repository : Repository) (args : List String) :
    Drives host (repository.succeeds args) := by
  unfold succeeds
  exact (drives_start _ _).bind fun _ => .pure

/-- Reading the history changes no files of its own. -/
theorem drives_history (repository : Repository) : Drives host repository.history := by
  have hcommit (name : String) : Drives host (repository.commit name) := by
    unfold commit
    refine (drives_run _ _).bind fun log => ?_
    split
    · exact .pure
    · exact .throw
  have hcommits : Drives host repository.commits := by
    unfold commits
    exact (drives_run _ _).bind fun _ => .pure
  unfold history
  refine (drives_succeeds _ _).bind fun found => ?_
  dsimp only
  split
  · exact Drives.throw.bind fun _ => hcommits.bind fun _ => .mapM hcommit
  · exact hcommits.bind fun _ => .mapM hcommit

/-- Committing a file changes no files of its own. -/
theorem drives_commitPath (repository : Repository) (path : Path) (message : String) :
    Drives host (repository.commitPath path message) := by
  unfold commitPath
  refine (drives_run _ _).bind fun _ => (drives_succeeds _ _).bind fun unchanged => ?_
  split
  · exact .pure
  · exact (drives_run _ _).bind fun _ => .pure

end Repository

/-- Running a configured command for its output changes no files of its own. -/
theorem Command.drives_capture (root : Path) (argv : List String) :
    Drives host (capture root argv) := by
  have hstart : Drives host (start root argv) := by
    unfold start
    split
    on_goal 1 => refine Drives.throw.bind fun _ => ?_
    all_goals
      refine (Drives.call _ _).bind fun answer => ?_
      cases answer
      · exact .throw
      · exact .pure
  unfold capture check
  refine hstart.bind fun response => Drives.writeError.bind fun _ => Drives.bind ?_ fun _ => .pure
  split
  · exact .pure
  · exact .throw

/-- Making the contents of the changelog changes no files of its own. -/
theorem Recording.drives_changelogContent (r : Release) (repository : Repository) :
    Drives host (changelogContent r repository) := by
  unfold changelogContent
  dsimp only
  split
  · exact (Repository.drives_history repository).bind fun _ => .pure
  · exact Command.drives_capture _ _

/-! ## What is exchanged -/

open Execution (gitWords)

/-- A program ended with the status zero. -/
def Answered (argv : List String) (e : Exchange) : Prop :=
  e.invocation.argv = argv ∧ e.response.ending = some 0

/-- A program could not be started, or did not end with the status zero. -/
def Missed (argv : List String) (new : List Exchange) : Prop :=
  new = [] ∨ ∃ e, new = [e] ∧ e.invocation.argv = argv ∧ e.response.ending ≠ some 0

/-- A program has succeeded exactly if its status is zero. -/
theorem Response.succeeded_iff {response : Response} :
    response.succeeded = true ↔ response.ending = some 0 :=
  beq_iff_eq

/-- A program has not succeeded exactly if its status is another one, or there is none. -/
theorem Response.succeeded_eq_false_iff {response : Response} :
    response.succeeded = false ↔ response.ending ≠ some 0 := by
  rw [← Bool.not_eq_true, Response.succeeded_iff]

/-- A program that was missed is the one that should have been started. -/
theorem Missed.argv_eq {argv : List String} {new : List Exchange} (h : Missed argv new) :
    ∀ e ∈ new, e.invocation.argv = argv := by
  intro e he
  obtain rfl | ⟨missed, rfl, hargv, -⟩ := h
  · exact absurd he List.not_mem_nil
  · exact List.mem_singleton.1 he ▸ hargv

namespace Repository

/-- The command that tells of one commit. -/
def logCommand (repository : Repository) (name : String) : List String :=
  gitWords repository.path ["log", "-1", "--format=%an%n%ae%n%at%n%B", name]

/-- The commands that read the history. -/
def ReadsHistory (repository : Repository) (argv : List String) : Prop :=
  argv = gitWords repository.path ["rev-parse", "--verify", "--quiet", "HEAD"] ∨
    argv = gitWords repository.path ["rev-list", "HEAD"] ∨ ∃ name, argv = repository.logCommand name

/-- How a file is committed: it is added, and committed unless `git` then says that there is nothing
to commit. -/
inductive Commits (repository : Repository) (path : Path) (message : String) :
    Except Failure Bool → List Exchange → Prop
  | notAdded {failure : Failure} {new : List Exchange}
    (h : Missed (gitWords repository.path ["add", "--", path.text]) new) :
    Commits repository path message (.error failure) new
  | notCompared {failure : Failure} {added : Exchange}
    (hadded : Answered (gitWords repository.path ["add", "--", path.text]) added) :
    Commits repository path message (.error failure) [added]
  | unchanged {added compared : Exchange}
    (hadded : Answered (gitWords repository.path ["add", "--", path.text]) added)
    (hcompared : Answered (gitWords repository.path ["diff", "--cached", "--quiet", "--", path.text])
      compared) : Commits repository path message (.ok false) [added, compared]
  | notCommitted {failure : Failure} {added compared : Exchange} {new : List Exchange}
    (hadded : Answered (gitWords repository.path ["add", "--", path.text]) added)
    (hcompared : compared.invocation.argv =
      gitWords repository.path ["diff", "--cached", "--quiet", "--", path.text])
    (hchanged : compared.response.ending ≠ some 0)
    (h : Missed (gitWords repository.path ["commit", "-m", message, "--", path.text]) new) :
    Commits repository path message (.error failure) (added :: compared :: new)
  | committed {added compared committed : Exchange}
    (hadded : Answered (gitWords repository.path ["add", "--", path.text]) added)
    (hcompared : compared.invocation.argv =
      gitWords repository.path ["diff", "--cached", "--quiet", "--", path.text])
    (hchanged : compared.response.ending ≠ some 0)
    (hcommitted : Answered (gitWords repository.path ["commit", "-m", message, "--", path.text])
      committed) :
    Commits repository path message (.ok true) [added, compared, committed]

/-- A command that has to succeed does, or nothing comes after it. -/
theorem adds_run_answered (repository : Repository) (args : List String) :
    Adds host (repository.run args) fun outcome new =>
      (∀ failure, outcome = .error failure → Missed (gitWords repository.path args) new) ∧
      ∀ said, outcome = .ok said →
        ∃ e, new = [e] ∧ Answered (gitWords repository.path args) e ∧ e.response.stdout = said := by
  refine (repository.adds_run args).weaken ?_
  rintro outcome new (⟨failure, rfl, rfl⟩ | ⟨e, rfl, hargv, rfl⟩)
  · exact ⟨fun _ _ => .inl rfl, by simp⟩
  · unfold required
    cases hsucceeded : e.response.succeeded with
    | true =>
        have hzero := Response.succeeded_iff.1 hsucceeded
        refine ⟨by simp, fun said hsaid => ⟨e, rfl, ⟨hargv, hzero⟩, ?_⟩⟩
        exact Except.ok.inj hsaid
    | false =>
        have hother := Response.succeeded_eq_false_iff.1 hsucceeded
        exact ⟨fun _ _ => .inr ⟨e, rfl, hargv, hother⟩, by simp⟩

/-- Committing a file adds it, and commits it unless there is nothing to commit. -/
theorem adds_commitPath (repository : Repository) (path : Path) (message : String) :
    Adds host (repository.commitPath path message) (Commits repository path message) := by
  unfold commitPath
  refine (adds_run_answered _ _).bind (fun failure new h => .notAdded (h.1 failure rfl)) ?_
  rintro said new ⟨-, hsaid⟩
  obtain ⟨added, rfl, hadded, -⟩ := hsaid said rfl
  refine (adds_succeeds _ _).bind ?_ ?_
  · rintro failure more (⟨_, -, rfl⟩ | ⟨_, -, -, houtcome⟩)
    · exact .notCompared hadded
    · exact absurd houtcome (by simp)
  rintro unchanged more (⟨_, houtcome, -⟩ | ⟨compared, rfl, hcompared, houtcome⟩)
  · exact absurd houtcome (by simp)
  obtain rfl := Except.ok.inj houtcome
  cases hchanged : compared.response.succeeded with
  | true => exact .pure (.unchanged hadded ⟨hcompared, Response.succeeded_iff.1 hchanged⟩)
  | false =>
      have hother := Response.succeeded_eq_false_iff.1 hchanged
      refine (adds_run_answered _ _).bind (fun failure last h => ?_) fun said last h => .pure ?_
      · exact .notCommitted hadded hcompared hother (h.1 failure rfl)
      · obtain ⟨committed, rfl, hcommitted, -⟩ := h.2 said rfl
        exact .committed hadded hcompared hother hcommitted

/-- One commit is read from one exchange. -/
theorem adds_commit (repository : Repository) (name : String) :
    Adds host (repository.commit name) fun outcome new =>
      (∀ e ∈ new, e.invocation.argv = repository.logCommand name) ∧
      ∀ commit, outcome = .ok commit → ∃ e, new = [e] ∧ Answered (repository.logCommand name) e ∧
        Commit.ofLog e.response.stdout = .ok commit := by
  unfold commit
  refine (adds_run_answered _ _).bind (fun failure new h => ?_) fun said new h => ?_
  · exact ⟨(h.1 failure rfl).argv_eq, by simp⟩
  obtain ⟨log, rfl, hlog, rfl⟩ := h.2 said rfl
  have hargv : ∀ e ∈ [log] ++ [], e.invocation.argv = repository.logCommand name := by
    intro e he
    rw [List.append_nil, List.mem_singleton] at he
    exact he ▸ hlog.1
  split
  · next commit hcommit =>
      refine .pure ⟨hargv, fun found hfound => ⟨log, rfl, hlog, ?_⟩⟩
      rw [hcommit, Except.ok.inj hfound]
  · exact .throw ⟨hargv, by simp⟩

/-- The names of the commits are those that are listed, one on each line that is not blank. -/
theorem listsNames_commitNames (listed : Bytes) :
    Text.ListsNames (Text.Utf8.decodeLossy listed) (commitNames listed) := by
  unfold commitNames
  exact Text.listsNames_trim _

/-- The names of the commits are read from one exchange. -/
theorem adds_commits (repository : Repository) :
    Adds host repository.commits fun outcome new =>
      (∀ e ∈ new, e.invocation.argv = gitWords repository.path ["rev-list", "HEAD"]) ∧
      ∀ names, outcome = .ok names → ∃ listed, new = [listed] ∧
        Answered (gitWords repository.path ["rev-list", "HEAD"]) listed ∧
        Text.ListsNames (Text.Utf8.decodeLossy listed.response.stdout) names := by
  unfold commits
  refine (adds_run_answered _ _).bind (fun failure new h => ?_) fun said new h => .pure ?_
  · exact ⟨(h.1 failure rfl).argv_eq, by simp⟩
  obtain ⟨listed, rfl, hlisted, rfl⟩ := h.2 said rfl
  refine ⟨by simpa using hlisted.1, fun names hnames => ⟨listed, rfl, hlisted, ?_⟩⟩
  rw [← Except.ok.inj hnames]
  exact listsNames_commitNames _

/-- The history is what the names that are listed and the logs of their commits tell. -/
theorem adds_historyTold (repository : Repository) :
    Adds host repository.history fun outcome new =>
      (∀ e ∈ new, repository.ReadsHistory e.invocation.argv) ∧
      ∀ commits, outcome = .ok commits → ∃ asked listed logs names, new = asked :: listed :: logs ∧
        Answered (gitWords repository.path ["rev-parse", "--verify", "--quiet", "HEAD"]) asked ∧
        Answered (gitWords repository.path ["rev-list", "HEAD"]) listed ∧
        Text.ListsNames (Text.Utf8.decodeLossy listed.response.stdout) names ∧
        List.Forall₂ (fun name => Answered (repository.logCommand name)) names logs ∧
        List.Forall₂ (fun log commit => Commit.ofLog log.response.stdout = .ok commit) logs
          commits := by
  -- each commit is read from one log, and reading a log is one way to read the history
  have hasks (name : String) : Adds host (repository.commit name) fun outcome new =>
      (∀ e ∈ new, repository.ReadsHistory e.invocation.argv) ∧
      ∀ commit, outcome = .ok commit → ∃ e, new = [e] ∧ Answered (repository.logCommand name) e ∧
        Commit.ofLog e.response.stdout = .ok commit :=
    (adds_commit repository name).weaken fun outcome new h =>
      ⟨fun e he => .inr (.inr ⟨name, h.1 e he⟩), h.2⟩
  unfold history
  refine (adds_succeeds _ _).bind ?_ ?_
  · rintro failure new (⟨_, -, rfl⟩ | ⟨_, -, -, houtcome⟩)
    · exact ⟨by simp, by simp⟩
    · exact absurd houtcome (by simp)
  rintro found new (⟨_, houtcome, -⟩ | ⟨asked, rfl, hasked, houtcome⟩)
  · exact absurd houtcome (by simp)
  obtain rfl := Except.ok.inj houtcome
  have hreads : ∀ e ∈ [asked], repository.ReadsHistory e.invocation.argv := by
    intro e he
    rw [List.mem_singleton.1 he]
    exact .inl hasked
  refine Adds.check (fun _ => ⟨by simpa using hreads, by simp⟩) fun hfound => ?_
  have hsucceeded : asked.response.ending = some 0 :=
    Response.succeeded_iff.1 (by simpa using hfound)
  refine (adds_commits _).bind (fun failure more h => ?_) fun names more h => ?_
  · exact ⟨List.forall_mem_append.2 ⟨hreads, fun e he => .inr (.inl (h.1 e he))⟩, by simp⟩
  obtain ⟨listed, rfl, hlisted, hnames⟩ := h.2 names rfl
  refine (Adds.mapM_forall₂ hasks).weaken fun outcome logs hlogs => ⟨?_, ?_⟩
  · have hlist : ∀ e ∈ [listed], repository.ReadsHistory e.invocation.argv :=
      fun e he => .inr (.inl (h.1 e he))
    rw [← List.append_assoc]
    exact List.forall_mem_append.2 ⟨List.forall_mem_append.2 ⟨hreads, hlist⟩, hlogs.1⟩
  · rintro commits rfl
    obtain ⟨hlogsOf, hcommits⟩ := hlogs.2 commits rfl
    exact ⟨asked, listed, logs, names, rfl, ⟨hasked, hsucceeded⟩, hlisted, hnames, hlogsOf, hcommits⟩

end Repository

/-- What a command writes that succeeds. -/
theorem Command.adds_captured (root : Path) (argv : List String) :
    Adds host (capture root argv) fun outcome new =>
      (∀ failure, outcome = .error failure → Missed argv new) ∧
      ∀ said, outcome = .ok said → ∃ e, new = [e] ∧ Answered argv e ∧ e.response.stdout = said := by
  unfold capture check
  refine (Execution.starts_command root argv).bind ?_ ?_
  · rintro failure new (⟨_, -, -, rfl⟩ | ⟨_, -, -, houtcome⟩)
    · exact ⟨fun _ _ => .inl rfl, by simp⟩
    · exact absurd houtcome (by simp)
  rintro response new (⟨_, -, houtcome, -⟩ | ⟨e, rfl, hargv, houtcome⟩)
  · exact absurd houtcome (by simp)
  obtain rfl := Except.ok.inj houtcome
  refine Execution.adds_behindError ?_
  cases hsucceeded : e.response.succeeded with
  | true =>
      have hzero := Response.succeeded_iff.1 hsucceeded
      refine .pure ⟨by simp, fun said hsaid => ⟨e, rfl, ⟨hargv, hzero⟩, ?_⟩⟩
      exact Except.ok.inj hsaid
  | false =>
      have hother := Response.succeeded_eq_false_iff.1 hsucceeded
      exact .throw ⟨fun _ _ => .inr ⟨e, rfl, hargv, hother⟩, by simp⟩

namespace Recording

/-- How the contents of the changelog are fetched.  Without a configured command the commits are those
that `git` lists, one on each line that is not blank, none left out and in this order; each is what its
log tells.  With a configured command the contents are what it writes. -/
inductive Fetches (r : Release) (repository : Repository) :
    Except Failure Bytes → List Exchange → Prop
  | history {asked listed : Exchange} {names : List String} {logs : List Exchange}
    {commits : List Commit}
    (hcommand : r.configuration.versionControl.changelogCommand = [])
    (hasked : Answered (gitWords repository.path ["rev-parse", "--verify", "--quiet", "HEAD"]) asked)
    (hlisted : Answered (gitWords repository.path ["rev-list", "HEAD"]) listed)
    (hnames : Text.ListsNames (Text.Utf8.decodeLossy listed.response.stdout) names)
    (hlogs : List.Forall₂ (fun name => Answered (repository.logCommand name)) names logs)
    (hcommits : List.Forall₂ (fun log commit => Commit.ofLog log.response.stdout = .ok commit)
      logs commits) :
    Fetches r repository (.ok (Text.Utf8.ofString (Changelog.render commits)))
      (asked :: listed :: logs)
  | noHistory {failure : Failure} {new : List Exchange}
    (hcommand : r.configuration.versionControl.changelogCommand = [])
    (h : ∀ e ∈ new, repository.ReadsHistory e.invocation.argv) :
    Fetches r repository (.error failure) new
  | converted {e : Exchange} (hcommand : r.configuration.versionControl.changelogCommand ≠ [])
    (h : Answered r.configuration.versionControl.changelogCommand e) :
    Fetches r repository (.ok e.response.stdout) [e]
  | notConverted {failure : Failure} {new : List Exchange}
    (hcommand : r.configuration.versionControl.changelogCommand ≠ [])
    (h : Missed r.configuration.versionControl.changelogCommand new) :
    Fetches r repository (.error failure) new

/-- The contents of the changelog are fetched from the commits that are listed, or from a configured
command. -/
theorem adds_changelogContent (r : Release) (repository : Repository) :
    Adds host (changelogContent r repository) (Fetches r repository) := by
  unfold changelogContent
  dsimp only
  split
  · next hempty =>
      have hcommand := List.isEmpty_iff.1 hempty
      refine repository.adds_historyTold.bind (fun failure new h => .noHistory hcommand h.1) ?_
      rintro commits new ⟨-, htold⟩
      obtain ⟨asked, listed, logs, names, rfl, hasked, hlisted, hnames, hlogs, hcommits⟩ :=
        htold commits rfl
      refine .pure ?_
      rw [List.append_nil]
      exact .history hcommand hasked hlisted hnames hlogs hcommits
  · next hempty =>
      have hcommand := mt List.isEmpty_iff.2 hempty
      refine (Command.adds_captured _ _).weaken ?_
      rintro outcome new hcapture
      cases outcome with
      | error failure => exact .notConverted hcommand (hcapture.1 failure rfl)
      | ok said =>
          obtain ⟨e, rfl, hanswered, rfl⟩ := hcapture.2 said rfl
          exact .converted hcommand hanswered

/-- Writes the document and commits it. -/
def deliver (r : Release) (repository : Repository) (content : Bytes) : Session ChangelogOutcome := do
  let document := r.configuration.versionControl.changelog
  let path := r.root.join document
  Session.files (Staging.remarked ("Failed to write " ++ path.text) (Storage.writeFile path content))
  let message := Changelog.commitMessage (← read).today
  let committed ← repository.commitPath document message
  return { path, committed }

/-- The document has been written, and then committed as it may be. -/
structure Delivered (r : Release) (repository : Repository) (host : Host) (before : World)
    (content : Bytes) (run : Except Failure ChangelogOutcome × World) : Prop where
  run : ∃ files l outcome recorded,
    Storage.Wrote host.caller before.files files
      (r.root.join r.configuration.versionControl.changelog) content l ∧
    repository.Commits r.configuration.versionControl.changelog
      (Changelog.commitMessage host.today) outcome recorded ∧
    run.1 = outcome.map (⟨r.root.join r.configuration.versionControl.changelog, ·⟩) ∧
    run.2.exchanges = before.exchanges ++ recorded ∧ Driven host { before with files } run.2

/-- Making the changelog anew is to fetch its contents, and to write and commit it. -/
theorem regenerateChangelog_eq (r : Release) (repository : Repository) :
    regenerateChangelog r repository = (do
      let content ← changelogContent r repository
      match (r.root.join r.configuration.versionControl.changelog).parent? with
      | some above => Session.files (Staging.remarked ("Failed to create " ++ above.text)
          (Storage.createDirectories above))
      | none => pure ()
      deliver r repository content) := by
  unfold regenerateChangelog deliver
  rfl

/-- A remarked program on files ends and changes the files like the program, with the remark on its
failures. -/
theorem exec_files_remarked {remark : String} {program : Storage FileError α} (host : Host)
    (world : World) :
    (Session.files (Staging.remarked remark program)).exec host world =
      ((program.exec host.caller world.files).1.mapError fun e => (Failure.file e).context remark,
        { world with files := (program.exec host.caller world.files).2 }) := rfl

/-- Delivering a document fails with a file error and changes nothing, or writes the document and
commits it. -/
theorem exec_deliver (r : Release) (repository : Repository) (content : Bytes) (world : World) :
    (∃ e, (deliver r repository content).exec host world = (.error (.file e), world)) ∨
      Delivered r repository host world content ((deliver r repository content).exec host world) := by
  unfold deliver
  rw [Session.exec_bind, exec_files_remarked]
  rcases Storage.wrote_or_error host.caller world.files
      (r.root.join r.configuration.versionControl.changelog) content with
    ⟨e, herror⟩ | ⟨files, l, hwrite, hwrote⟩
  · rw [herror]
    exact .inl ⟨_, rfl⟩
  rw [hwrite]
  have hadds := @Repository.adds_commitPath host repository
    r.configuration.versionControl.changelog (Changelog.commitMessage host.today)
  have hdrives := @Repository.drives_commitPath host repository
    r.configuration.versionControl.changelog (Changelog.commitMessage host.today)
  obtain ⟨recorded, hrecorded, hcommits⟩ := hadds.run { world with files }
  refine .inr ⟨files, l, _, recorded, hwrote, hcommits, ?_⟩
  have hend := (Session.exec_map (fun committed => (⟨r.root.join
    r.configuration.versionControl.changelog, committed⟩ : ChangelogOutcome))
    (repository.commitPath r.configuration.versionControl.changelog
      (Changelog.commitMessage host.today)) host { world with files })
  rw [map_eq_pure_bind] at hend
  refine ⟨congrArg Prod.fst hend, ?_, ?_⟩
  · exact (congrArg (·.2.exchanges) hend).trans hrecorded
  · exact (congrArg Prod.snd hend).symm ▸ hdrives.run { world with files }

/-- The contents of the changelog are fetched first, with nothing changed but by other programs.  When
they cannot be fetched, that is all.  When a directory for the document or the document cannot be
written, everything that is there stays as it is and nothing is committed.  Otherwise the document is
written as it was fetched, and it is committed. -/
theorem regenerateChangelog_course (r : Release) (repository : Repository) (host : Host)
    (world : World) :
    ∃ content gathered fetched, Fetches r repository content gathered ∧
      fetched.exchanges = world.exchanges ++ gathered ∧ Driven host world fetched ∧
      match content with
      | .error failure =>
        (regenerateChangelog r repository).exec host world = (.error failure, fetched)
      | .ok bytes => ∃ files, fetched.files.Within files ∧
        ((∃ e, (regenerateChangelog r repository).exec host world =
          (.error (.file e), { fetched with files })) ∨
        Delivered r repository host { fetched with files } bytes
          ((regenerateChangelog r repository).exec host world)) := by
  obtain ⟨gathered, hgathered, hfetches⟩ := (@adds_changelogContent host r repository).run world
  have hdriven := (@drives_changelogContent host r repository).run world
  refine ⟨_, gathered, _, hfetches, hgathered, hdriven, ?_⟩
  rw [regenerateChangelog_eq, Session.exec_bind]
  rcases (changelogContent r repository).exec host world with ⟨failure | bytes, fetched⟩
  · rfl
  dsimp only
  split
  · next above habove =>
    have hwithin := Storage.within_createDirectories host.caller fetched.files above
    rw [Session.exec_bind, exec_files_remarked]
    refine ⟨_, hwithin, ?_⟩
    rcases (Storage.createDirectories above).exec host.caller fetched.files with ⟨e | ⟨⟩, files⟩
    · exact .inl ⟨_, rfl⟩
    · exact exec_deliver r repository bytes { fetched with files }
  · exact ⟨fetched.files, .refl _, exec_deliver r repository bytes fetched⟩

end Recording

end RpmRelease
