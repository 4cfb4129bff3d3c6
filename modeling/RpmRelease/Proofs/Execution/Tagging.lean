import RpmRelease.Application
import RpmRelease.Proofs.Execution.Exchanges
import RpmRelease.Proofs.Execution.Order

/-!
# Calls that create a tag

Apart from the commands that a project configures, which are run as they are, a run calls `git tag`
at most once.  Unless tags may be moved, it asks first whether there is a tag of the release, and the
very next thing it does is to create it when there is none, or to fail when there is one.

The exchanges of a run are those before its tag is made, its own question and call, and those after.
What each part of a run exchanges is one of these, and the parts are put together in this order.
-/

set_option autoImplicit false

namespace RpmRelease.Execution

open Session (Adds Only Sends Chains chains_only chains_imp)

variable {α β : Type} {host : Host} {r : Release} {moves : Bool}

/-- The arguments of `git` from its command on, behind the settings for all commands. -/
def fromCommand : List String → List String
  | setting :: value :: args =>
    if setting = "-C" ∨ setting = "-c" then fromCommand args else setting :: value :: args
  | args => args

/-- Whether a program is `git`, and is asked to list, create or remove tags. -/
def CallsTag (argv : List String) : Prop :=
  argv.head? = some "git" ∧ (fromCommand argv.tail).head? = some "tag"

/-- The commands that a project configures. -/
def configured (r : Release) : List (List String) :=
  [r.configuration.versionControl.changelogCommand, r.configuration.build.command,
    r.configuration.verify.command, Builder.argv r.configuration.builder r.archivePath]

/-- The command that asks whether there is a tag of the release. -/
def question (r : Release) : List String :=
  Repository.settings ⟨r.root⟩ ++ askTag r.tag

/-- The command that creates the tag of the release, or moves it. -/
def creation (r : Release) (moves : Bool) : List String :=
  Repository.settings ⟨r.root⟩ ++ createTag r moves

/-- A tag that must not be moved is created without force. -/
theorem not_mem_createTag (r : Release) : "-f" ∉ createTag r false := by
  have htag : "-f" ≠ r.tag.text := by
    intro h
    have hfirst := congrArg (fun name : String => name.toList.head?) h
    simp [Release.tag, Metadata.tag, Tag.format, Tag.letter] at hfirst
  have hmessage : "-f" ≠ "Release " ++ r.metadata.fullVersion := by
    intro h
    have hfirst := congrArg (fun name : String => name.toList.head?) h
    simp at hfirst
  simp [createTag, htag, hmessage]

/-- Tags are left alone, unless a configured command does something to them. -/
def LeavesTags (r : Release) (e : Exchange) : Prop :=
  CallsTag e.invocation.argv → e.invocation.argv ∈ configured r

/-- Nothing is asked about the tag of the release either. -/
structure IgnoresTags (r : Release) (e : Exchange) : Prop where
  leaves : LeavesTags r e
  asks : e.invocation.argv = question r → e.invocation.argv ∈ configured r

/-- How the tag of a release is made. -/
inductive MakesTag (r : Release) : Bool → List Exchange → Prop
  /-- it may be moved, and nobody asks -/
  | moving (call : Exchange) (hcall : call.invocation.argv = creation r true) :
    MakesTag r true [call]
  /-- there was none, and it is made at once -/
  | asking (asked call : Exchange) (hasked : asked.invocation.argv = question r)
    (hnone : asked.response.succeeded = false) (hcall : call.invocation.argv = creation r false) :
    MakesTag r false [asked, call]

/-- What a run that is to make a tag exchanges, by how it ends. -/
inductive Tagging (r : Release) (moves : Bool) : Except Failure α → List Exchange → Prop
  /-- the run ends before anything is asked or made -/
  | stopped {failure : Failure} {before : List Exchange} (hbefore : ∀ e ∈ before, IgnoresTags r e) :
    Tagging r moves (.error failure) before
  /-- the run ends with the question; a tag that is there is the reason -/
  | refused {failure : Failure} {before : List Exchange} {asked : Exchange} (hmoves : moves = false)
    (hbefore : ∀ e ∈ before, IgnoresTags r e) (hasked : asked.invocation.argv = question r)
    (hfailure : asked.response.succeeded = true → failure = .repository (.tagExists r.tag)) :
    Tagging r moves (.error failure) (before ++ [asked])
  /-- one call makes the tag; the run may go on -/
  | made {outcome : Except Failure α} {before own later : List Exchange}
    (hbefore : ∀ e ∈ before, IgnoresTags r e) (hown : MakesTag r moves own)
    (hlater : ∀ e ∈ later, LeavesTags r e) : Tagging r moves outcome (before ++ own ++ later)

/-! ## Putting parts together -/

/-- Something else may be done first. -/
theorem chains_before : Chains (Only (IgnoresTags r) : Except Failure α → _ → Prop)
    (Tagging r moves : Except Failure β → _ → Prop) (Tagging r moves) where
  stop := fun _ _ h => .stopped h
  go := by
    intro _ outcome new more hnew hmore
    have hboth : ∀ before : List Exchange, (∀ e ∈ before, IgnoresTags r e) →
        ∀ e ∈ new ++ before, IgnoresTags r e := by
      intro before hbefore e he
      exact (List.mem_append.1 he).elim (hnew e) (hbefore e)
    cases hmore with
    | stopped hbefore => exact .stopped (hboth _ hbefore)
    | refused hmoves hbefore hasked hfailure =>
        rw [← List.append_assoc]
        exact .refused hmoves (hboth _ hbefore) hasked hfailure
    | made hbefore hown hlater =>
        rw [← List.append_assoc, ← List.append_assoc]
        exact .made (hboth _ hbefore) hown hlater

/-- Something else may be done when the tag is made. -/
theorem chains_later : Chains (Tagging r moves : Except Failure α → _ → Prop)
    (Only (LeavesTags r) : Except Failure β → _ → Prop) (Tagging r moves) where
  stop := by
    intro failure new h
    cases h with
    | stopped hbefore => exact .stopped hbefore
    | refused hmoves hbefore hasked hfailure => exact .refused hmoves hbefore hasked hfailure
    | made hbefore hown hlater => exact .made hbefore hown hlater
  go := by
    intro a outcome new more hnew hmore
    cases hnew with
    | made hbefore hown hlater =>
        rw [List.append_assoc]
        exact .made hbefore hown fun e he => (List.mem_append.1 he).elim (hlater e) (hmore e)

/-! ## Configured commands -/

/-- Whatever a configured command asks about the tag or does to tags is allowed. -/
theorem ignoresTags_of_configured {argv : List String} (h : argv ∈ configured r) (e : Exchange)
    (he : e.invocation.argv = argv) : IgnoresTags r e where
  leaves := fun _ => he ▸ h
  asks := fun _ => he ▸ h

/-- Whatever a configured command does to tags is allowed. -/
theorem leavesTags_of_configured {argv : List String} (h : argv ∈ configured r) (e : Exchange)
    (he : e.invocation.argv = argv) : LeavesTags r e :=
  (ignoresTags_of_configured h e he).leaves

/-! ## Commands of the repository -/

section Repository

variable {command : String} {args : List String}

/-- The argument behind the settings says what a command does. -/
theorem head?_fromCommand (h : command ∉ ["-C", "-c"]) :
    (fromCommand (command :: args)).head? = some command := by
  cases args with
  | nil => simp [fromCommand]
  | cons arg args => rw [fromCommand, if_neg (by simpa using h), List.head?_cons]

/-- A command of the repository that is no `tag` leaves tags alone. -/
theorem leavesTags_of_settings {repository : Repository} (h : command ∉ ["tag", "-C", "-c"])
    (e : Exchange) (he : e.invocation.argv = repository.settings ++ command :: args) :
    LeavesTags r e := by
  obtain ⟨htag, hsetting⟩ := not_or.1 (List.mem_cons.not.1 h)
  rintro ⟨-, hcalls⟩
  have hcommand : fromCommand e.invocation.argv.tail = fromCommand (command :: args) := by
    simp [he, Repository.settings, fromCommand]
  rw [hcommand, head?_fromCommand hsetting] at hcalls
  exact absurd (Option.some.inj hcalls) htag

/-- A command of the repository that is no `tag` and does not ask for this tag ignores tags. -/
theorem ignoresTags_of_settings (h : command ∉ ["tag", "-C", "-c"])
    (hask : command :: args ≠ askTag r.tag) (e : Exchange)
    (he : e.invocation.argv = Repository.settings ⟨r.root⟩ ++ command :: args) :
    IgnoresTags r e where
  leaves := leavesTags_of_settings h e he
  asks := fun hquestion => absurd (List.append_cancel_left (he.symm.trans hquestion)) hask

/-- A question that is about no tag ignores tags. -/
theorem adds_succeeds_ignoring (h : command ∉ ["tag", "-C", "-c"])
    (hask : command :: args ≠ askTag r.tag) :
    Adds host (Repository.succeeds ⟨r.root⟩ (command :: args)) (Only (IgnoresTags r)) :=
  (Repository.adds_succeeds _ _).onlyOfSends (ignoresTags_of_settings h hask)

/-- A command that is about no tag ignores tags. -/
theorem adds_run_ignoring (h : command ∉ ["rev-parse", "tag", "-C", "-c"]) :
    Adds host (Repository.run ⟨r.root⟩ (command :: args)) (Only (IgnoresTags r)) := by
  obtain ⟨hask, hothers⟩ := not_or.1 (List.mem_cons.not.1 h)
  refine (Repository.adds_run _ _).onlyOfSends (ignoresTags_of_settings hothers ?_)
  exact fun heq => hask (List.cons.inj heq).1

/-- A command that is no `tag` leaves tags alone. -/
theorem adds_run_leaving (h : command ∉ ["tag", "-C", "-c"]) :
    Adds host (Repository.run ⟨r.root⟩ (command :: args)) (Only (LeavesTags r)) :=
  (Repository.adds_run _ _).onlyOfSends (leavesTags_of_settings h)

/-- Opening the repository ignores tags. -/
theorem adds_openAt : Adds host (Repository.openAt r.root) (Only (IgnoresTags r)) := by
  have hignores : ∀ e : Exchange,
      e.invocation.argv = ["git", "-C", r.root.text, "rev-parse", "--show-toplevel"] →
        IgnoresTags r e := fun e he => by
    constructor
    · intro hcalls
      rw [he] at hcalls
      exact absurd hcalls (by simp [CallsTag, fromCommand])
    · intro hasks
      rw [he] at hasks
      exact absurd hasks (by simp [question, Repository.settings])
  unfold Repository.openAt
  refine ((Repository.adds_start _ _).onlyOfSends hignores).bindOnly fun response => ?_
  split
  · exact .pureOnly
  · exact Adds.check (by simp [Only]) fun _ => .throwOnly

/-! ## Recording -/

/-- Committing all changes ignores tags. -/
theorem adds_commitAll (message : String) :
    Adds host (Repository.commitAll ⟨r.root⟩ message) (Only (IgnoresTags r)) := by
  unfold Repository.commitAll Repository.hasPendingChanges
  refine ((adds_run_ignoring (by simp)).bindOnly fun _ => .pureOnly).bindOnly fun pending => ?_
  split
  · exact .pureOnly
  · exact (adds_run_ignoring (by simp)).bindOnly fun _ => .pureOnly

/-- Committing a file ignores tags. -/
theorem adds_commitPath (path : Path) (message : String) :
    Adds host (Repository.commitPath ⟨r.root⟩ path message) (Only (IgnoresTags r)) := by
  unfold Repository.commitPath
  refine (adds_run_ignoring (by simp)).bindOnly fun _ => ?_
  refine (adds_succeeds_ignoring (by simp) (by simp [askTag])).bindOnly fun unchanged => ?_
  split
  · exact .pureOnly
  · exact (adds_run_ignoring (by simp)).bindOnly fun _ => .pureOnly

/-- Whether there are commits is another question than whether there is a tag. -/
theorem ne_askTag_head (tag : Tag) : ["rev-parse", "--verify", "--quiet", "HEAD"] ≠ askTag tag := by
  intro h
  have hname : "HEAD" = "refs/tags/" ++ tag.text := by simpa [askTag] using h
  have hfirst := congrArg (fun name : String => name.toList.head?) hname
  simp at hfirst

/-- Reading the history ignores tags. -/
theorem adds_history : Adds host (Repository.history ⟨r.root⟩) (Only (IgnoresTags r)) := by
  unfold Repository.history Repository.commits
  refine (adds_succeeds_ignoring (by simp) (ne_askTag_head _)).bindOnly fun found => ?_
  refine Adds.check (by simp [Only]) fun _ => ?_
  refine ((adds_run_ignoring (by simp)).bindOnly fun _ => .pureOnly).bindOnly fun names => ?_
  refine Adds.mapM fun name => ?_
  unfold Repository.commit
  refine (adds_run_ignoring (by simp)).bindOnly fun log => ?_
  split
  · exact .pureOnly
  · exact .throwOnly

/-- Making the contents of the changelog ignores tags. -/
theorem adds_changelogContent :
    Adds host (Recording.changelogContent r ⟨r.root⟩) (Only (IgnoresTags r)) := by
  unfold Recording.changelogContent
  dsimp only
  split
  · exact adds_history.bindOnly fun _ => .pureOnly
  · exact Command.adds_capture fun e he => ignoresTags_of_configured (by simp [configured]) e he

/-- Making the changelog anew ignores tags. -/
theorem adds_regenerateChangelog :
    Adds host (Recording.regenerateChangelog r ⟨r.root⟩) (Only (IgnoresTags r)) := by
  have hcommit (content : Bytes) : Adds host (do
      Session.files (Staging.remarked
        ("Failed to write " ++ (r.root.join r.configuration.versionControl.changelog).text)
        (Storage.writeFile (r.root.join r.configuration.versionControl.changelog) content))
      let message := Changelog.commitMessage (← read).today
      let committed ← Repository.commitPath ⟨r.root⟩ r.configuration.versionControl.changelog message
      return (⟨r.root.join r.configuration.versionControl.changelog, committed⟩ :
        Recording.ChangelogOutcome)) (Only (IgnoresTags r)) := by
    refine Adds.files.bindOnly fun _ => Adds.read ?_
    exact (adds_commitPath _ _).bindOnly fun _ => .pureOnly
  unfold Recording.regenerateChangelog
  refine adds_changelogContent.bindOnly fun content => ?_
  dsimp only
  split
  · exact Adds.files.bindOnly fun _ => hcommit content
  · exact hcommit content

/-- Making the tag sends one command. -/
theorem adds_creation (moves : Bool) : ∃ f : Response → Except Failure Unit, Adds host (do
    let _ ← Repository.run ⟨r.root⟩ (createTag r moves)
    pure ()) (Sends (creation r moves) f) :=
  ⟨_, (Repository.adds_run ⟨r.root⟩ (createTag r moves)).bindSends (h := fun _ => .ok ())
    fun _ => .pure ⟨rfl, rfl⟩⟩

/-- Creating the tag asks whether there is one, unless it may be moved, and then makes it with one
command. -/
theorem adds_createTag (moves : Bool) :
    Adds host (Repository.createTag ⟨r.root⟩ r.tag ("Release " ++ r.metadata.fullVersion) moves)
      (Tagging r moves) := by
  have hnothing : ∀ e ∈ ([] : List Exchange), IgnoresTags r e := by simp
  have hend : ∀ e ∈ ([] : List Exchange), LeavesTags r e := by simp
  obtain ⟨f, hcreation⟩ := @adds_creation host r moves
  unfold Repository.createTag Repository.tagExists
  dsimp only
  cases moves
  -- the question comes first, and whatever it finds, nothing else is asked
  · rw [if_pos (by decide)]
    refine (Repository.adds_succeeds ⟨r.root⟩ (askTag r.tag)).bind ?_ fun found new hsends => ?_
    · rintro failure new (⟨_, _, rfl⟩ | ⟨_, _, _, houtcome⟩)
      · exact .stopped hnothing
      · cases houtcome
    · obtain ⟨_, houtcome, _⟩ | ⟨asked, rfl, hasked, houtcome⟩ := hsends
      · cases houtcome
      obtain rfl : found = asked.response.succeeded := Except.ok.inj houtcome
      refine Adds.check (fun _ => ?_) fun hnone => hcreation.weaken ?_
      · exact .refused rfl hnothing hasked fun _ => rfl
      · rintro outcome more (⟨failure, rfl, rfl⟩ | ⟨call, rfl, hcall, -⟩)
        · exact .refused rfl hnothing hasked fun h => absurd h hnone
        · have hown : MakesTag r false [asked, call] :=
            .asking asked call hasked (by simpa using hnone) hcall
          have hmade : Tagging r false outcome ([] ++ [asked, call] ++ []) :=
            .made hnothing hown hend
          exact hmade
  · rw [if_neg (by decide)]
    refine hcreation.weaken ?_
    rintro outcome new (⟨failure, rfl, rfl⟩ | ⟨call, rfl, hcall, -⟩)
    · exact .stopped hnothing
    · exact .made hnothing (.moving call hcall) hend

/-- Tagging the release makes its tag. -/
theorem adds_tagRelease (moves : Bool) :
    Adds host (Recording.tagRelease r ⟨r.root⟩ moves) (Tagging r moves) := by
  unfold Recording.tagRelease
  refine Adds.chain chains_before (adds_commitAll _) fun committed => ?_
  exact Adds.chain chains_later (adds_createTag moves) fun _ => .pureOnly

/-- Recording the release makes its tag. -/
theorem adds_record (moves : Bool) :
    Adds host (Recording.record r ⟨r.root⟩ moves) (Tagging r moves) := by
  unfold Recording.record
  refine Adds.chain chains_before adds_regenerateChangelog fun changelog => ?_
  exact Adds.chain chains_later (adds_tagRelease moves) fun _ => .pureOnly

/-! ## What leaves tags alone -/

/-- Exporting the tag leaves tags alone. -/
theorem adds_exportTag (part destination : Path) :
    Adds host (Repository.exportTag ⟨r.root⟩ r.tag part destination) (Only (LeavesTags r)) := by
  unfold Repository.exportTag Repository.tagExists
  refine Adds.bindOnly ((Repository.adds_succeeds _ _).onlyOfSends
    (leavesTags_of_settings (by simp))) fun found => Adds.check (by simp [Only]) fun _ => ?_
  refine (adds_run_leaving (by simp)).bindOnly fun _ => ?_
  exact (adds_run_leaving (by simp)).bindOnly fun _ => Adds.files

/-- Filling the staging directory from the tag leaves tags alone. -/
theorem adds_stage :
    Adds host (Export.stage r ⟨r.root⟩ r.stagingDirectory) (Only (LeavesTags r)) := by
  have hexport : Adds host (do
      Session.files (Staging.remarked ("Failed to create " ++ r.stagingDirectory.text)
        (Storage.createDirectories r.stagingDirectory))
      Repository.exportTag ⟨r.root⟩ r.tag r.configuration.versionControl.module r.stagingDirectory)
      (Only (LeavesTags r)) :=
    Adds.files.bindOnly fun _ => adds_exportTag _ _
  unfold Export.stage
  refine Adds.files.bindOnly fun there => ?_
  dsimp only
  split
  · exact Adds.files.bindOnly fun empty => Adds.check (by simp [Only]) fun _ => hexport
  · exact hexport

end Repository

/-! ## Sessions that open the repository once -/

/-- What such a session adds to the exchanges, and that the repository is that of the root. -/
structure RunAdds (host : Host) (r : Release) (x : Run α)
    (R : Except Failure α → List Exchange → Prop) : Prop where
  run : ∀ opened : Option Repository, (∀ repository ∈ opened, repository = ⟨r.root⟩) →
    Adds host (x opened) fun outcome new =>
      (∀ result, outcome = .ok result → ∀ repository ∈ result.2, repository = ⟨r.root⟩) ∧
        R (outcome.map Prod.fst) new

section Rules

variable {x : Run α} {f : α → Run β} {Q : Except Failure α → List Exchange → Prop}
  {R S : Except Failure β → List Exchange → Prop}

/-- Returning a value adds nothing. -/
theorem RunAdds.pure {a : α} (h : Q (.ok a) []) : RunAdds host r (pure a) Q where
  run := fun _ hopened => .pure ⟨fun result hresult => by cases hresult; exact hopened, h⟩

/-- One session after the other adds what both add, unless the first one fails. -/
theorem RunAdds.bind (hx : RunAdds host r x Q)
    (herror : ∀ failure new, Q (.error failure) new → S (.error failure) new)
    (hf : ∀ a new, Q (.ok a) new → RunAdds host r (f a) fun outcome more => S outcome (new ++ more)) :
    RunAdds host r (x >>= f) S where
  run := fun opened hopened => by
    refine (hx.run opened hopened).bind (fun failure new h => ⟨by simp, herror _ _ h.2⟩) ?_
    rintro ⟨a, kept⟩ new ⟨hkept, hQ⟩
    exact (hf a new hQ).run kept (hkept _ rfl)

/-- What is known of a session that keeps the repository may be weakened. -/
theorem RunAdds.weaken (hx : RunAdds host r x Q) {Q' : Except Failure α → List Exchange → Prop}
    (h : ∀ outcome new, Q outcome new → Q' outcome new) : RunAdds host r x Q' where
  run := fun opened hopened => (hx.run opened hopened).weaken fun _ _ hboth => ⟨hboth.1, h _ _ hboth.2⟩

/-- What a session that keeps the repository adds and what the one behind it adds make up what both
add. -/
theorem RunAdds.chain (h : Chains Q R S) (hx : RunAdds host r x Q)
    (hf : ∀ a, RunAdds host r (f a) R) : RunAdds host r (x >>= f) S :=
  hx.bind h.stop fun a new hnew => (hf a).weaken fun outcome more => h.go a outcome new more hnew

/-- A session that does not need the repository adds what it adds without it. -/
theorem RunAdds.lift {x : Session α} (hx : Adds host x Q) : RunAdds host r (liftM x) Q where
  run := fun opened hopened => by
    refine hx.bind (fun failure new hnew => ⟨by simp, hnew⟩) fun a new hnew => .pure ⟨?_, ?_⟩
    · intro result hresult
      cases hresult
      exact hopened
    · rw [List.append_nil]
      exact hnew

end Rules

/-- Looking at the repository that is kept adds nothing, and finds that of the root, if any. -/
theorem RunAdds.get : RunAdds host r get fun outcome new =>
    (∃ opened, outcome = .ok opened ∧ ∀ repository ∈ opened, repository = ⟨r.root⟩) ∧ new = [] where
  run := fun opened hopened => by
    refine .pure ⟨?_, ⟨opened, rfl, hopened⟩, rfl⟩
    intro result hresult
    cases hresult
    exact hopened

/-- Keeping the repository of the root adds nothing. -/
theorem RunAdds.set {Q : Except Failure PUnit → List Exchange → Prop} (h : Q (.ok ⟨⟩) []) :
    RunAdds host r (set (some (⟨r.root⟩ : Repository))) Q where
  run := fun _ _ => .pure ⟨fun result hresult => by cases hresult; simp, h⟩

/-- The repository is that of the root, and is opened when it is not open yet. -/
theorem RunAdds.ofOpening {Q : Except Failure Repository → List Exchange → Prop}
    (hkept : Q (.ok ⟨r.root⟩) []) (h : Adds host (Repository.openAt r.root) Q) :
    RunAdds host r (repository r) fun outcome new =>
      (∀ repository, outcome = .ok repository → repository = ⟨r.root⟩) ∧ Q outcome new := by
  have hopening : Adds host (Repository.openAt r.root) fun outcome new =>
      (∀ repository, outcome = .ok repository → repository = ⟨r.root⟩) ∧ Q outcome new := by
    refine ⟨fun world => ?_⟩
    obtain ⟨new, hnew, hQ⟩ := h.run world
    exact ⟨new, hnew, fun repository hok => eq_of_openAt (Prod.ext hok rfl), hQ⟩
  unfold repository
  refine RunAdds.get.bind ?_ ?_
  · rintro failure new ⟨⟨opened, hopened, -⟩, -⟩
    exact absurd hopened (by simp)
  rintro opened new ⟨⟨found, hfound, hopened⟩, rfl⟩
  obtain rfl := Except.ok.inj hfound
  cases opened with
  | some repository =>
      obtain rfl := hopened repository rfl
      exact .pure ⟨fun _ hkept => (Except.ok.inj hkept).symm, hkept⟩
  | none =>
      refine (RunAdds.lift hopening).bind (fun failure new h => h) fun opened new h => ?_
      obtain rfl := h.1 opened rfl
      refine (RunAdds.set (Q := fun outcome more => outcome = .ok ⟨⟩ ∧ more = []) ⟨rfl, rfl⟩).bind
        (fun _ _ hset => absurd hset.1 (by simp)) fun _ more hmore => .pure ?_
      rw [hmore.2, List.append_nil, List.append_nil]
      exact h

/-- A part of a run that needs the repository. -/
theorem RunAdds.inOpened {f : Repository → Run α}
    {Q : Except Failure Repository → List Exchange → Prop}
    {R S : Except Failure α → List Exchange → Prop} (hkept : Q (.ok ⟨r.root⟩) [])
    (hopening : Adds host (Repository.openAt r.root) Q) (h : Chains Q R S)
    (hf : RunAdds host r (f ⟨r.root⟩) R) : RunAdds host r (repository r >>= f) S := by
  refine (RunAdds.ofOpening hkept hopening).bind (fun failure new hnew => h.stop _ _ hnew.2) ?_
  intro opened new hnew
  obtain rfl := hnew.1 opened rfl
  exact hf.weaken fun outcome more => h.go ⟨r.root⟩ outcome new more hnew.2

/-- Opening the repository leaves its tags alone. -/
theorem RunAdds.inRepository {f : Repository → Run α}
    {R S : Except Failure α → List Exchange → Prop}
    (h : Chains (Only (IgnoresTags r) : Except Failure Repository → _ → Prop) R S)
    (hf : RunAdds host r (f ⟨r.root⟩) R) : RunAdds host r (repository r >>= f) S :=
  .inOpened (by simp [Only]) adds_openAt h hf

/-! ## Runs -/

/-- Showing the tag leaves tags alone. -/
theorem adds_showTag (outcome : Recording.TagOutcome) :
    Adds host (showTag r outcome) (Only (LeavesTags r)) := by
  unfold showTag
  split
  · exact Adds.print.bindOnly fun _ => Adds.print
  · exact Adds.print

/-- Recording the release makes its tag, which may be moved if the options say so. -/
theorem runAdds_recordRelease (options : RunOptions) :
    RunAdds host r (recordRelease r options) (Tagging r (moveTag r options)) := by
  unfold recordRelease
  refine RunAdds.inRepository chains_before ?_
  refine RunAdds.chain chains_later (RunAdds.lift (adds_record _)) fun outcomes => ?_
  obtain ⟨changelog, tag⟩ := outcomes
  exact RunAdds.chain chains_only (RunAdds.lift Adds.print) fun _ => RunAdds.lift (adds_showTag _)

/-- The step that tags makes the tag, which may be moved if the options say so. -/
theorem runAdds_tag (options : RunOptions) :
    RunAdds host r (runAction r options .tag) (Tagging r (moveTag r options)) := by
  unfold runAction
  refine RunAdds.inRepository chains_before ?_
  exact RunAdds.chain chains_later (RunAdds.lift (adds_tagRelease _)) fun _ =>
    RunAdds.lift (adds_showTag _)

/-- Everything but tagging leaves tags alone. -/
theorem runAdds_runAction (options : RunOptions) {step : Target} (h : step ≠ .tag) :
    RunAdds host r (runAction r options step) (Only (LeavesTags r)) := by
  have hprint {line : String} : Adds host (Session.print line) (Only (LeavesTags r)) := Adds.print
  unfold runAction
  -- of all steps only the one that tags may say anything about tags
  cases step with
  | tag => exact absurd rfl h
  | build =>
      unfold runBuild Project.build
      refine RunAdds.lift (Adds.bindOnly ?_ fun built => ?_)
      · split
        · exact .pureOnly
        · exact (Command.adds_run (leavesTags_of_configured (by simp [configured]))).bindOnly fun _ => .pureOnly
      · split
        · exact hprint
        · exact hprint
  | verify =>
      unfold Project.verify
      refine RunAdds.chain chains_only (RunAdds.lift (Adds.check (by simp [Only]) fun _ => ?_)) fun _ =>
        RunAdds.lift hprint
      exact Command.adds_run (leavesTags_of_configured (by simp [configured]))
  | changelog =>
      refine RunAdds.inRepository (chains_imp fun e he => he.leaves) ?_
      refine RunAdds.chain (chains_imp fun e he => he.leaves)
        (RunAdds.lift adds_regenerateChangelog) fun outcome => RunAdds.lift hprint
  | exportTag =>
      unfold runExport
      refine RunAdds.inRepository (chains_imp fun e he => he.leaves) ?_
      exact RunAdds.chain chains_only (RunAdds.lift adds_stage) fun entries => RunAdds.lift hprint
  | buildRpm =>
      unfold runBuilder
      refine RunAdds.lift (hprint.bindOnly fun _ => Adds.bindOnly ?_ fun _ => hprint)
      exact Builder.adds_build (leavesTags_of_configured (by simp [configured]))
  | archive =>
      unfold runArchive
      refine RunAdds.lift (Adds.read ?_)
      exact Adds.files.bindOnly fun report => hprint.bindOnly fun _ => hprint
  | localCopy =>
      unfold runCopy
      refine RunAdds.lift (Adds.files.bindOnly fun staging => ?_)
      split
      · exact .throwOnly
      · exact Adds.files.bindOnly fun copied => hprint
  | cleanDist =>
      refine RunAdds.chain chains_only (RunAdds.lift Adds.files) fun removed => ?_
      split
      · exact RunAdds.lift hprint
      · exact RunAdds.pure (by simp [Only])
  | installFiles | clean =>
      exact RunAdds.chain chains_only (RunAdds.lift Adds.files) fun _ => RunAdds.lift hprint
  | install | localDist | dist | localRpm | rpm => exact RunAdds.pure (by simp [Only])

/-- Steps without the one that tags leave tags alone. -/
theorem runAdds_runSteps (options : RunOptions) {steps : List Target} (h : .tag ∉ steps) :
    RunAdds host r (runSteps r options steps) (Only (LeavesTags r)) := by
  induction steps using runSteps.induct with
  | case1 rest => exact absurd (by simp) h
  | case2 step rest hstep ih =>
      rw [runSteps]
      · have htag : step ≠ .tag := fun heq => h (by simp [heq])
        exact RunAdds.chain chains_only (runAdds_runAction options htag) fun _ =>
          ih fun hrest => h (List.mem_cons_of_mem _ hrest)
      · exact hstep
  | case3 => exact RunAdds.pure (by simp [Only])

/-- A plan that tags is that of the tag itself or that of the package. -/
theorem plan_of_tag_mem {target : Target} (h : .tag ∈ target.plan) :
    target.plan = [.tag] ∨ target.plan = Target.rpm.plan := by
  revert h
  cases target with
  | tag => exact fun _ => .inl (by cbv)
  | rpm => exact fun _ => .inr rfl
  | _ => exact fun h => absurd (List.elem_eq_true_of_mem h) (Bool.eq_false_iff.1 (by cbv))

/-- A plan with the step that tags makes the tag. -/
theorem runAdds_runSteps_plan (options : RunOptions) {target : Target} (h : .tag ∈ target.plan) :
    RunAdds host r (runSteps r options target.plan) (Tagging r (moveTag r options)) := by
  obtain hplan | hplan := plan_of_tag_mem h
  · rw [hplan]
    exact RunAdds.chain chains_later (runAdds_tag options) fun _ => runAdds_runSteps options (by simp)
  · rw [hplan, plan_rpm]
    exact RunAdds.chain chains_later (runAdds_recordRelease options) fun _ =>
      runAdds_runSteps options (by simp)

/-- Showing a plan exchanges nothing. -/
theorem adds_showPlan {P : Exchange → Prop} (target : Target) (release : Option Release)
    (json : Bool) : Adds host (showPlan target release json) (Only P) := by
  have hlines (lines : List String) : Adds host (lines.forM Session.print) (Only P) := by
    induction lines with
    | nil => exact .pureOnly
    | cons line lines ih => exact Adds.print.bindOnly fun _ => ih
  unfold showPlan
  split
  · exact Adds.print
  · exact hlines _

/-- What running a target exchanges, unless its plan is shown instead. -/
theorem adds_run (options : RunOptions) (target : Target) :
    Adds host (run r options target) fun outcome new =>
      new = [] ∨ (if .tag ∈ target.plan then Tagging r (moveTag r options) outcome new
        else ∀ e ∈ new, LeavesTags r e) := by
  unfold run
  split
  · refine (adds_showPlan (P := fun _ => False) target (some r) options.json).weaken ?_
    exact fun _ new hnew => .inl (List.eq_nil_iff_forall_not_mem.2 hnew)
  · have hcomplete : Adds host (if 1 < target.plan.length then
        Session.print ("✅ " ++ target.name ++ " complete") else Pure.pure ()) (Only (LeavesTags r)) := by
      split
      · exact Adds.print
      · exact .pureOnly
    have hclosed : ∀ opened ∈ (none : Option Repository), opened = ⟨r.root⟩ := by simp
    by_cases htag : .tag ∈ target.plan
    · simp only [if_pos htag]
      have hsteps := (@runAdds_runSteps_plan host r options target htag).run none hclosed
      refine Adds.weaken (Adds.chain chains_later (Adds.map ?_) fun _ => hcomplete) fun _ _ => .inr
      exact hsteps.weaken fun _ _ h => h.2
    · simp only [if_neg htag]
      have hsteps := (@runAdds_runSteps host r options target.plan htag).run none hclosed
      refine Adds.weaken (Adds.chain chains_only (Adds.map ?_) fun _ => hcomplete) fun _ _ => .inr
      exact hsteps.weaken fun _ _ h => h.2

end RpmRelease.Execution
