import RpmRelease.Proofs.Archive.Failing
import RpmRelease.Proofs.Execution.History
import RpmRelease.Proofs.Release

/-!
# Tags that are refused

Pending changes are committed before `git` is asked whether there is a tag already.  So a release whose
tag is refused may have made a commit; it has made one exactly when there were pending changes, and
nothing else.  No tag is created or moved, and what was refused once is refused again only for a tag that
is there.

Each program of the repository has one equivalence here: it ends in a given way exactly when the commands
of `git` that it takes are started and answer so.
-/

set_option autoImplicit false

namespace RpmRelease

open Execution (listChanges commitChanges askTag)

variable {host : Host} {α β : Type}

namespace Session

/-- Two sessions succeed one after the other when each does, the second one where the first has led.
-/
theorem exec_bind_ok_iff {x : Session α} {f : α → Session β} {world world' : World} {b : β} :
    (x >>= f).exec host world = (.ok b, world') ↔
      ∃ a middle, x.exec host world = (.ok a, middle) ∧ (f a).exec host middle = (.ok b, world') := by
  refine ⟨of_exec_bind_ok, ?_⟩
  rintro ⟨a, middle, hfirst, hsecond⟩
  rw [exec_bind, hfirst]
  exact hsecond

/-- Two sessions fail one after the other when the first fails, or the second does where the first has
led. -/
theorem exec_bind_error_iff {x : Session α} {f : α → Session β} {world world' : World}
    {failure : Failure} :
    (x >>= f).exec host world = (.error failure, world') ↔
      x.exec host world = (.error failure, world') ∨
        ∃ a middle, x.exec host world = (.ok a, middle) ∧
          (f a).exec host middle = (.error failure, world') := by
  rw [exec_bind]
  rcases x.exec host world with ⟨_ | a, middle⟩ <;> simp

/-- Returning a value succeeds with it, in the same world. -/
theorem exec_pure_ok_iff {a b : α} {world world' : World} :
    (pure a : Session α).exec host world = (.ok b, world') ↔ a = b ∧ world = world' := by
  constructor
  · exact Run.ok_inj
  · rintro ⟨rfl, rfl⟩
    rfl

/-- Returning a value does not fail. -/
theorem exec_pure_ne_error {a : α} {world world' : World} {failure : Failure} :
    (pure a : Session α).exec host world ≠ (.error failure, world') := fun h =>
  absurd (show (Except.ok a : Except Failure α) = .error failure from congrArg Prod.fst h) (by simp)

/-- Throwing fails with what is thrown, in the same world. -/
theorem exec_throw_error_iff {failure failure' : Failure} {world world' : World} :
    (throw failure : Session α).exec host world = (.error failure', world') ↔
      failure = failure' ∧ world = world' := by
  constructor
  · intro h
    exact ⟨Except.error.inj (congrArg Prod.fst h : (Except.error failure : Except Failure α) = _),
      congrArg Prod.snd h⟩
  · rintro ⟨rfl, rfl⟩
    rfl

/-- Throwing does not succeed. -/
theorem exec_throw_ne_ok {failure : Failure} {a : α} {world world' : World} :
    (throw failure : Session α).exec host world ≠ (.ok a, world') := fun h =>
  absurd (show (Except.error failure : Except Failure α) = .ok a from congrArg Prod.fst h) (by simp)

end Session

namespace Repository

variable {repository : Repository} {args : List String} {verb : String} {world world' : World}
  {tag : Tag} {message : String} {force : Bool}

/-! ## Commands and their replies -/

/-- What is started for a command of a repository. -/
def invocation (repository : Repository) (host : Host) (args : List String) : Invocation :=
  ⟨repository.settings ++ args, host.caller.directory⟩

/-- A command can be started: `git` is installed, and no argument has a zero character. -/
structure Starts (host : Host) (repository : Repository) (args : List String) : Prop where
  installed : host.programs.installed "git" = true
  spelled : ∀ arg ∈ repository.settings ++ args, '\x00' ∉ arg.toList

/-- A command of a repository is started and answers.  The world that is left has the files that `git`
left, and one exchange more. -/
inductive Replies (host : Host) (repository : Repository) (args : List String) (world : World) :
    Response → World → Prop
  | replied {response : Response} {files : FileSystem} (starts : Starts host repository args)
    (h : host.programs.respond world.calls (repository.invocation host args) host.caller world.files =
      (response, files)) :
    Replies host repository args world response { world with
      files, exchanges := world.exchanges ++ [⟨repository.invocation host args, response⟩] }

/-- A command that answers is the one program more that was called. -/
theorem Replies.calls_eq {response : Response} (h : Replies host repository args world response world') :
    world'.calls = world.calls ++ [repository.invocation host args] := by
  cases h
  simp [World.calls]

/-- Looking for a zero character finds one when there is one. -/
theorem any_zero_iff (argv : List String) :
    (argv.any fun arg => arg.toList.contains '\x00') = true ↔
      ¬ ∀ arg ∈ argv, '\x00' ∉ arg.toList := by
  simp

/-- A command that can be started is prepared. -/
theorem prepare_eq_ok (fs : FileSystem) (h : Starts host repository args) :
    Invocation.prepare host fs none (repository.settings ++ args) =
      .ok (repository.invocation host args) := by
  have hspelled := (any_zero_iff (repository.settings ++ args)).not.2 (not_not.2 h.spelled)
  have hprogram : Invocation.checkProgram host.programs.installed host.caller fs "git" =
      if host.programs.installed "git" then .ok () else .error (.system .noEntry) := rfl
  rw [h.installed, if_pos rfl] at hprogram
  simp only [Invocation.prepare, if_neg hspelled]
  exact congrArg (· >>= fun _ => _) hprogram

/-- A command that cannot be started is not prepared. -/
theorem exists_prepare_error (fs : FileSystem) (h : ¬ Starts host repository args) :
    ∃ e, Invocation.prepare host fs none (repository.settings ++ args) = .error e := by
  by_cases hspelled : ∀ arg ∈ repository.settings ++ args, '\x00' ∉ arg.toList
  · have hnone := (any_zero_iff (repository.settings ++ args)).not.2 (not_not.2 hspelled)
    have hprogram : Invocation.checkProgram host.programs.installed host.caller fs "git" =
        if host.programs.installed "git" then .ok () else .error (.system .noEntry) := rfl
    have hinstalled : ¬ host.programs.installed "git" = true := fun installed => h ⟨installed, hspelled⟩
    rw [if_neg hinstalled] at hprogram
    refine ⟨.system .noEntry, ?_⟩
    simp only [Invocation.prepare, if_neg hnone]
    exact congrArg (· >>= fun _ => _) hprogram
  · have hsome := (any_zero_iff (repository.settings ++ args)).2 hspelled
    refine ⟨.custom .invalidInput "nul byte found in provided data", ?_⟩
    simp only [Invocation.prepare, if_pos hsome]
    rfl

/-- A command that answers is started successfully. -/
theorem Replies.exec_start {response : Response}
    (h : Replies host repository args world response world') (verb : String) :
    (start (repository.settings ++ args) verb).exec host world = (.ok response, world') := by
  cases h with
  | replied starts h =>
      have hcall : (Session.call none (repository.settings ++ args)).exec host world =
          (.ok (.ok (host.programs.respond world.calls (repository.invocation host args) host.caller
            world.files).1), { world with
              files := (host.programs.respond world.calls (repository.invocation host args) host.caller
                world.files).2
              exchanges := world.exchanges ++ [⟨repository.invocation host args,
                (host.programs.respond world.calls (repository.invocation host args) host.caller
                  world.files).1⟩] }) := by
        simp only [Session.call, Session.exec, Session.ofExec, prepare_eq_ok _ starts]
        rfl
      rw [h] at hcall
      rw [start, Session.exec_bind, hcall]
      rfl

/-- A command is started and answers, or the session fails for a reason of its own. -/
theorem exec_start_cases (host : Host) (repository : Repository) (args : List String) (verb : String)
    (world : World) :
    (∃ response world', Replies host repository args world response world') ∨
      ∃ e, (start (repository.settings ++ args) verb).exec host world =
        (.error ((Failure.file e).context ("Failed to execute git " ++ verb)), world) := by
  by_cases hstarts : Starts host repository args
  · exact .inl ⟨_, _, .replied hstarts rfl⟩
  · obtain ⟨e, he⟩ := exists_prepare_error world.files hstarts
    have hcall : (Session.call none (repository.settings ++ args)).exec host world =
        (.ok (.error e), world) := by
      simp only [Session.call, Session.exec, Session.ofExec, he]
    refine .inr ⟨e, ?_⟩
    rw [start, Session.exec_bind, hcall]
    rfl

/-- A command is started successfully just when it answers. -/
theorem exec_start_ok_iff {response : Response} :
    (start (repository.settings ++ args) verb).exec host world = (.ok response, world') ↔
      Replies host repository args world response world' := by
  refine ⟨fun h => ?_, fun h => h.exec_start verb⟩
  obtain ⟨told, left, hreplies⟩ | ⟨e, herror⟩ := exec_start_cases host repository args verb world
  · obtain ⟨rfl, rfl⟩ := Run.ok_inj ((hreplies.exec_start verb).symm.trans h)
    exact hreplies
  · rw [herror] at h
    exact absurd (congrArg Prod.fst h) (by simp)

/-- A question is answered just when the command answers, and the answer is whether that is a success.
-/
theorem exec_succeeds_ok_iff {answer : Bool} :
    (repository.succeeds args).exec host world = (.ok answer, world') ↔
      ∃ response, Replies host repository args world response world' ∧
        response.succeeded = answer := by
  simp only [succeeds, Session.exec_bind_ok_iff, exec_start_ok_iff, Session.exec_pure_ok_iff]
  constructor
  · rintro ⟨response, _, hreplies, rfl, rfl⟩
    exact ⟨response, hreplies, rfl⟩
  · rintro ⟨response, hreplies, rfl⟩
    exact ⟨response, world', hreplies, rfl, rfl⟩

/-- A command that has to succeed does just when it answers with success, and gives what it wrote. -/
theorem exec_run_ok_iff {said : Bytes} :
    (repository.run args).exec host world = (.ok said, world') ↔
      ∃ response, Replies host repository args world response world' ∧
        response.succeeded = true ∧ response.stdout = said := by
  rw [run, Session.exec_bind_ok_iff]
  constructor
  · rintro ⟨response, middle, hstart, hrest⟩
    rw [exec_start_ok_iff] at hstart
    split at hrest
    · next hsucceeded =>
        obtain ⟨rfl, rfl⟩ := Session.exec_pure_ok_iff.1 hrest
        exact ⟨response, hstart, hsucceeded, rfl⟩
    · exact absurd hrest Session.exec_throw_ne_ok
  · rintro ⟨response, hreplies, hsucceeded, rfl⟩
    refine ⟨response, world', exec_start_ok_iff.2 hreplies, ?_⟩
    rw [if_pos hsucceeded]
    rfl

/-- No command of the repository fails because a tag is there. -/
theorem exec_start_ne_tagExists :
    (start (repository.settings ++ args) verb).exec host world ≠
      (.error (.repository (.tagExists tag)), world') := by
  intro h
  obtain ⟨response, left, hreplies⟩ | ⟨e, herror⟩ :=
    exec_start_cases host repository args verb world
  · rw [hreplies.exec_start verb] at h
    exact absurd (congrArg Prod.fst h) (by simp)
  · rw [herror] at h
    have hfailure := Except.error.inj (congrArg Prod.fst h)
    cases hfailure

/-- No question fails with the failure that a tag is there. -/
theorem exec_succeeds_ne_tagExists :
    (repository.succeeds args).exec host world ≠
      (.error (.repository (.tagExists tag)), world') := by
  rw [succeeds, ne_eq, Session.exec_bind_error_iff]
  rintro (h | ⟨response, middle, -, h⟩)
  · exact exec_start_ne_tagExists h
  · exact Session.exec_pure_ne_error h

/-- No command that has to succeed fails with the failure that a tag is there. -/
theorem exec_run_ne_tagExists :
    (repository.run args).exec host world ≠ (.error (.repository (.tagExists tag)), world') := by
  rw [run, ne_eq, Session.exec_bind_error_iff]
  rintro (h | ⟨response, middle, -, h⟩)
  · exact exec_start_ne_tagExists h
  · split at h
    · exact Session.exec_pure_ne_error h
    · exact absurd (Session.exec_throw_error_iff.1 h).1 (by simp)

/-! ## Programs of the repository -/

/-- Pending changes are listed, and committed if there are any. -/
inductive Settles (host : Host) (r : Release) (repository : Repository) (world : World) :
    Bool → World → Prop
  | clean {listed : Response} {world' : World}
    (hlisted : Replies host repository listChanges world listed world')
    (hok : listed.succeeded = true) (hnone : listed.stdout = []) :
    Settles host r repository world false world'
  | committed {listed done : Response} {middle world' : World}
    (hlisted : Replies host repository listChanges world listed middle)
    (hok : listed.succeeded = true) (hsome : listed.stdout ≠ [])
    (hcommitted : Replies host repository (commitChanges r) middle done world')
    (hdone : done.succeeded = true) : Settles host r repository world true world'

/-- There is no tag of a release, and `git` makes one. -/
structure Vacant (host : Host) (r : Release) (repository : Repository) (world world' : World) :
    Prop where
  course : ∃ asked middle made, Replies host repository (askTag r.tag) world asked middle ∧
    asked.succeeded = false ∧
    Replies host repository (Execution.createTag r false) middle made world' ∧ made.succeeded = true

variable {r : Release}

/-- Committing all changes succeeds just when pending changes are settled. -/
theorem exec_commitAll_ok_iff {committed : Bool} :
    (repository.commitAll ("Release " ++ r.metadata.fullVersion)).exec host world =
      (.ok committed, world') ↔ Settles host r repository world committed world' := by
  simp only [commitAll, hasPendingChanges, Session.exec_bind_ok_iff, exec_run_ok_iff,
    Session.exec_pure_ok_iff]
  constructor
  · rintro ⟨pending, middle, ⟨said, _, ⟨listed, hlisted, hok, rfl⟩, rfl, rfl⟩, hrest⟩
    split at hrest
    · next hnone =>
        obtain ⟨rfl, rfl⟩ := Session.exec_pure_ok_iff.1 hrest
        exact .clean hlisted hok (by simpa using hnone)
    · next hsome =>
        obtain ⟨_, _, hrun, hend⟩ := Session.of_exec_bind_ok hrest
        obtain ⟨rfl, rfl⟩ := Session.exec_pure_ok_iff.1 hend
        obtain ⟨done, hcommitted, hdone, -⟩ := exec_run_ok_iff.1 hrun
        exact .committed hlisted hok (by simpa using hsome) hcommitted hdone
  · intro h
    cases h with
    | clean hlisted hok hnone =>
        refine ⟨false, world', ⟨_, world', ⟨_, hlisted, hok, rfl⟩, by simp [hnone], rfl⟩, ?_⟩
        rfl
    | committed hlisted hok hsome hcommitted hdone =>
        refine ⟨true, _, ⟨_, _, ⟨_, hlisted, hok, rfl⟩, by simpa using hsome, rfl⟩, ?_⟩
        rw [if_neg (by simp)]
        refine Session.exec_bind_ok_iff.2 ⟨_, world', exec_run_ok_iff.2 ⟨_, hcommitted, hdone, rfl⟩, rfl⟩

/-- Committing all changes does not fail with the failure that a tag is there. -/
theorem exec_commitAll_ne_tagExists :
    (repository.commitAll message).exec host world ≠
      (.error (.repository (.tagExists tag)), world') := by
  rw [commitAll, ne_eq, Session.exec_bind_error_iff]
  rintro (h | ⟨pending, middle, -, h⟩)
  · rw [hasPendingChanges, Session.exec_bind_error_iff] at h
    obtain h | ⟨listed, _, -, h⟩ := h
    · exact exec_run_ne_tagExists h
    · exact Session.exec_pure_ne_error h
  · split at h
    · exact Session.exec_pure_ne_error h
    · obtain h | ⟨said, _, -, h⟩ := Session.exec_bind_error_iff.1 h
      · exact exec_run_ne_tagExists h
      · exact Session.exec_pure_ne_error h

/-- A tag is refused exactly if it is not to be moved and `git` finds it. -/
theorem exec_createTag_refused_iff {found : Tag} :
    (repository.createTag tag message force).exec host world =
      (.error (.repository (.tagExists found)), world') ↔
      force = false ∧ found = tag ∧ ∃ asked, Replies host repository (askTag tag) world asked world' ∧
        asked.succeeded = true := by
  unfold createTag tagExists
  dsimp only
  cases force with
  | false =>
      rw [if_pos (by decide), Session.exec_bind_error_iff]
      constructor
      · rintro (h | ⟨there, middle, hasked, h⟩)
        · exact absurd h exec_succeeds_ne_tagExists
        · obtain ⟨asked, hreplies, rfl⟩ := exec_succeeds_ok_iff.1 hasked
          split at h
          · next hthere =>
              obtain h | ⟨_, _, h, -⟩ := Session.exec_bind_error_iff.1 h
              · obtain ⟨hfailure, rfl⟩ := Session.exec_throw_error_iff.1 h
                cases hfailure
                exact ⟨rfl, rfl, asked, hreplies, hthere⟩
              · exact absurd h Session.exec_throw_ne_ok
          · obtain h | ⟨_, _, -, h⟩ := Session.exec_bind_error_iff.1 h
            · exact absurd h exec_run_ne_tagExists
            · exact absurd h Session.exec_pure_ne_error
      · rintro ⟨-, rfl, asked, hreplies, hthere⟩
        refine .inr ⟨true, world', exec_succeeds_ok_iff.2 ⟨asked, hreplies, hthere⟩, ?_⟩
        rw [if_pos rfl]
        rfl
  | true =>
      rw [if_neg (by decide), Session.exec_bind_error_iff]
      constructor
      · rintro (h | ⟨_, _, -, h⟩)
        · exact absurd h exec_run_ne_tagExists
        · exact absurd h Session.exec_pure_ne_error
      · rintro ⟨h, -⟩
        cases h

/-- The tag is created just when there was none and `git` makes one. -/
theorem exec_createTag_ok_iff {made : Unit} :
    (repository.createTag r.tag ("Release " ++ r.metadata.fullVersion) false).exec host world =
      (.ok made, world') ↔ Vacant host r repository world world' := by
  unfold createTag tagExists
  dsimp only
  rw [if_pos (by decide), Session.exec_bind_ok_iff]
  constructor
  · rintro ⟨there, middle, hasked, h⟩
    obtain ⟨asked, hreplies, rfl⟩ := exec_succeeds_ok_iff.1 hasked
    obtain ⟨hnone, h⟩ := Session.of_exec_check_ok h
    obtain ⟨_, _, hrun, hend⟩ := Session.of_exec_bind_ok h
    obtain ⟨-, rfl⟩ := Session.exec_pure_ok_iff.1 hend
    obtain ⟨made, hmade, hsucceeded, -⟩ := exec_run_ok_iff.1 hrun
    exact ⟨asked, middle, made, hreplies, by simpa using hnone, hmade, hsucceeded⟩
  · rintro ⟨asked, middle, made, hreplies, hnone, hmade, hsucceeded⟩
    refine ⟨false, middle, exec_succeeds_ok_iff.2 ⟨asked, hreplies, hnone⟩, ?_⟩
    rw [if_neg (by simp)]
    exact Session.exec_bind_ok_iff.2 ⟨_, world', exec_run_ok_iff.2 ⟨made, hmade, hsucceeded, rfl⟩, rfl⟩

end Repository

namespace Recording

open Repository (Replies Settles Vacant)

variable {r : Release} {repository : Repository} {force : Bool} {world world' : World} {tag : Tag}

/-- The commands that are started for a release whose tag is refused. -/
def commandsOfRefusal (r : Release) (pending : Bool) : List (List String) :=
  if pending then [listChanges, commitChanges r, askTag r.tag] else [listChanges, askTag r.tag]

/-- The course of a release whose tag is refused: pending changes are settled, and then `git` finds the
tag. -/
structure Refused (host : Host) (r : Release) (repository : Repository) (world : World)
    (pending : Bool) (world' : World) : Prop where
  course : ∃ middle asked, Settles host r repository world pending middle ∧
    Replies host repository (askTag r.tag) middle asked world' ∧ asked.succeeded = true

/-- `git` changes no files when it is asked this. -/
def OnlyReads (host : Host) (repository : Repository) (args : List String) : Prop :=
  ∀ calls files, (host.programs.respond calls (repository.invocation host args) host.caller files).2 =
    files

/-- Tagging is refused exactly if tags are not to be moved and `git` finds the tag of the release once
pending changes are settled. -/
theorem exec_tagRelease_refused_iff :
    (tagRelease r repository force).exec host world =
      (.error (.repository (.tagExists tag)), world') ↔
      force = false ∧ tag = r.tag ∧ ∃ pending, Refused host r repository world pending world' := by
  rw [tagRelease, Session.exec_bind_error_iff]
  simp only [Session.exec_bind_error_iff, Repository.exec_commitAll_ne_tagExists, false_or,
    Repository.exec_commitAll_ok_iff, Repository.exec_createTag_refused_iff,
    Session.exec_pure_ne_error, and_false, exists_false, or_false]
  constructor
  · rintro ⟨pending, middle, hsettled, rfl, rfl, asked, hreplies, hthere⟩
    exact ⟨rfl, rfl, pending, middle, asked, hsettled, hreplies, hthere⟩
  · rintro ⟨rfl, rfl, pending, middle, asked, hsettled, hreplies, hthere⟩
    exact ⟨pending, middle, hsettled, rfl, rfl, asked, hreplies, hthere⟩

/-- Tagging succeeds just when pending changes are settled, and then there is no tag and `git` makes
one. -/
theorem exec_tagRelease_ok_iff {outcome : TagOutcome} :
    (tagRelease r repository false).exec host world = (.ok outcome, world') ↔
      outcome.tag = r.tag ∧ ∃ middle, Settles host r repository world outcome.committed middle ∧
        Vacant host r repository middle world' := by
  simp only [tagRelease, Session.exec_bind_ok_iff, Repository.exec_commitAll_ok_iff,
    Repository.exec_createTag_ok_iff, Session.exec_pure_ok_iff]
  constructor
  · rintro ⟨committed, middle, hsettled, -, _, hvacant, rfl, rfl⟩
    exact ⟨rfl, middle, hsettled, hvacant⟩
  · rintro ⟨htag, middle, hsettled, hvacant⟩
    exact ⟨_, middle, hsettled, (), world', hvacant, by rw [← htag], rfl⟩

/-- When a tag is refused, the commands for that are the programs that were called. -/
theorem Refused.calls_eq {pending : Bool} (h : Refused host r repository world pending world') :
    world'.calls = world.calls ++ (commandsOfRefusal r pending).map (repository.invocation host) := by
  obtain ⟨middle, asked, hsettled, hasked, -⟩ := h.course
  rw [hasked.calls_eq]
  cases hsettled with
  | clean hlisted hok hnone => simp [hlisted.calls_eq, commandsOfRefusal]
  | committed hlisted hok hsome hcommitted hdone =>
      simp [hcommitted.calls_eq, hlisted.calls_eq, commandsOfRefusal]

/-- A command that only reads leaves the files. -/
theorem OnlyReads.files_eq {args : List String} {response : Response}
    (h : OnlyReads host repository args) (hreplies : Replies host repository args world response world') :
    world'.files = world.files := by
  cases hreplies with
  | replied starts hresponse =>
      have hfiles := h world.calls world.files
      rw [hresponse] at hfiles
      exact hfiles

/-- A refused release leaves the files as they were, or as `git` left them when it committed. -/
theorem Refused.files_eq {pending : Bool} (h : Refused host r repository world pending world')
    (hlist : OnlyReads host repository listChanges) (hask : OnlyReads host repository (askTag r.tag)) :
    world'.files = if pending then (host.programs.respond
        (world.calls ++ [repository.invocation host listChanges])
        (repository.invocation host (commitChanges r)) host.caller world.files).2
      else world.files := by
  obtain ⟨middle, asked, hsettled, hasked, -⟩ := h.course
  rw [hask.files_eq hasked]
  cases hsettled with
  | clean hlisted hok hnone => exact hlist.files_eq hlisted
  | committed hlisted hok hsome hcommitted hdone =>
      rw [if_pos rfl, ← hlist.files_eq hlisted, ← hlisted.calls_eq]
      cases hcommitted with
      | replied starts hresponse => rw [hresponse]

/-- When tagging is refused because the tag is there, tags were not to be moved, and it is the tag of
the release that `git` found.  Nothing has been started but the question for pending changes, one commit
of them exactly if there were any, and the question for the tag: no tag has been made or moved.  As far
as these questions change no files, the files are as they were, or as that one commit left them.  From
there on, a release can be tagged exactly if `git` settles its pending changes, finds no tag of it and
makes one. -/
theorem tagRelease_refused (h : (tagRelease r repository force).exec host world =
      (.error (.repository (.tagExists tag)), world')) :
    force = false ∧ tag = r.tag ∧ ∃ pending, Refused host r repository world pending world' ∧
      world'.calls =
        world.calls ++ (commandsOfRefusal r pending).map (repository.invocation host) ∧
      (OnlyReads host repository listChanges → OnlyReads host repository (askTag r.tag) →
        world'.files = if pending then (host.programs.respond
            (world.calls ++ [repository.invocation host listChanges])
            (repository.invocation host (commitChanges r)) host.caller world.files).2
          else world.files) ∧
      ∀ (bumped : Release) (outcome : TagOutcome) (final : World),
        (tagRelease bumped repository false).exec host world' = (.ok outcome, final) ↔
          outcome.tag = bumped.tag ∧
            ∃ middle, Settles host bumped repository world' outcome.committed middle ∧
              Vacant host bumped repository middle final := by
  obtain ⟨hforce, htag, pending, hrefused⟩ := exec_tagRelease_refused_iff.1 h
  exact ⟨hforce, htag, pending, hrefused, hrefused.calls_eq, hrefused.files_eq,
    fun _ _ _ => exec_tagRelease_ok_iff⟩

/-- A host on which every command succeeds, writes the same and changes nothing. -/
def writing (written : Bytes) : Host where
  caller := .superuserAtRoot
  programs := ⟨fun _ => true, fun _ _ _ files => (⟨some 0, written, []⟩, files)⟩
  codec := Archive.storing
  environment := fun _ => none
  today := ⟨1970, 1, 1⟩

/-- Tagging a first release on such a host. -/
def tagFirst (written : Bytes) : Except Failure TagOutcome × World :=
  (tagRelease .first ⟨⟨"/r"⟩⟩ false).exec (writing written) { files := .ofNodes [] }

/-- Without pending changes, a release whose tag is there has asked two questions and changed
nothing. -/
theorem tagRelease_refused_clean :
    (tagFirst []).1 = .error (.repository (.tagExists Release.first.tag)) ∧
      (tagFirst []).2.files = .ofNodes [] ∧ (tagFirst []).2.calls =
        [Repository.invocation ⟨⟨"/r"⟩⟩ (writing []) listChanges,
          Repository.invocation ⟨⟨"/r"⟩⟩ (writing []) (askTag Release.first.tag)] := by
  have houtcome : (tagFirst []).1 = .error (.repository (.tagExists Release.first.tag)) := rfl
  obtain ⟨-, -, pending, -, hcalls, hfiles, -⟩ := tagRelease_refused (Prod.ext houtcome rfl)
  have hclean : pending = false := by
    cases pending with
    | false => rfl
    | true => exact absurd (congrArg List.length hcalls) (by decide +kernel)
  subst hclean
  exact ⟨houtcome, hfiles (fun _ _ => rfl) (fun _ _ => rfl), hcalls⟩

/-- With pending changes, a release whose tag is there has made a commit. -/
theorem tagRelease_refused_committed :
    (tagFirst [77]).1 = .error (.repository (.tagExists Release.first.tag)) ∧
      Repository.invocation ⟨⟨"/r"⟩⟩ (writing [77]) (commitChanges .first) ∈
        (tagFirst [77]).2.calls := by
  exact ⟨rfl, by decide +kernel⟩

end Recording

end RpmRelease
