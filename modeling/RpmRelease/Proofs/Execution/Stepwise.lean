import RpmRelease.Execution
import RpmRelease.Proofs.World

/-!
# Running each step on its own

A run records a changelog and the tag directly behind it as one step.  Running each step on its own
comes to the same: other programs are started in the same order with the same arguments, the files and
the outcome are the same.  Only a line may be missing when the tag fails, since the changelog is shown
when both are done.

That the line can wait rests on tagging being `Silent`: it neither prints nor depends on what was
printed.
-/

set_option autoImplicit false

namespace RpmRelease

variable {α β : Type} {host : Host}

namespace Session

/-! ## Sessions that do not print -/

/-- A session that neither prints nor depends on what was printed. -/
structure Silent (host : Host) (x : Session α) : Prop where
  run : ∀ world out, x.exec host { world with stdout := out } =
    ((x.exec host world).1, { (x.exec host world).2 with stdout := out })

/-- Returning a value prints nothing. -/
theorem Silent.pure {a : α} : Silent host (pure a : Session α) where
  run := fun _ _ => rfl

/-- Failing prints nothing. -/
theorem Silent.throw {failure : Failure} : Silent host (throw failure : Session α) where
  run := fun _ _ => rfl

/-- Two sessions that print nothing print nothing one after the other. -/
theorem Silent.bind {x : Session α} {f : α → Session β} (hx : Silent host x)
    (hf : ∀ a, Silent host (f a)) : Silent host (x >>= f) where
  run := fun world out => by
    rw [exec_bind, exec_bind, hx.run world out]
    rcases x.exec host world with ⟨failure | a, middle⟩
    · rfl
    · exact (hf a).run middle out

/-- What a program is given and what it answers has nothing to do with what was printed. -/
theorem Silent.call (directory : Option Path) (argv : List String) :
    Silent host (call directory argv) where
  run := fun world out => by
    simp only [Session.call, exec, ofExec]
    cases Invocation.prepare host world.files directory argv with
    | error e => rfl
    | ok invocation => rfl

/-- A silent session leaves the standard output as it is. -/
theorem Silent.stdout_eq {x : Session α} (hx : Silent host x) (world : World) :
    (x.exec host world).2.stdout = world.stdout := by
  have hsame := congrArg (·.2.stdout) (hx.run world world.stdout)
  exact hsame

end Session

open Session (Silent)

namespace Repository

/-- Starting `git` prints nothing. -/
theorem silent_start (argv : List String) (verb : String) : Silent host (start argv verb) := by
  unfold start
  refine (Silent.call none argv).bind fun answer => ?_
  cases answer
  · exact .throw
  · exact .pure

/-- A command of the repository prints nothing. -/
theorem silent_run (repository : Repository) (args : List String) :
    Silent host (repository.run args) := by
  unfold run
  refine (silent_start _ _).bind fun response => ?_
  split
  · exact .pure
  · exact .throw

/-- A question to the repository prints nothing. -/
theorem silent_succeeds (repository : Repository) (args : List String) :
    Silent host (repository.succeeds args) := by
  unfold succeeds
  exact (silent_start _ _).bind fun _ => .pure

/-- Committing all changes prints nothing. -/
theorem silent_commitAll (repository : Repository) (message : String) :
    Silent host (repository.commitAll message) := by
  unfold commitAll hasPendingChanges
  refine ((silent_run _ _).bind fun _ => .pure).bind fun pending => ?_
  split
  · exact .pure
  · exact (silent_run _ _).bind fun _ => .pure

/-- Creating a tag prints nothing. -/
theorem silent_createTag (repository : Repository) (tag : Tag) (message : String) (force : Bool) :
    Silent host (repository.createTag tag message force) := by
  have hcreate : Silent host (do
      let _ ← repository.run
        (["tag", "-a"] ++ (if force then ["-f"] else []) ++ [tag.text, "-m", message])
      pure ()) :=
    (silent_run _ _).bind fun _ => .pure
  unfold createTag tagExists
  dsimp only
  split
  · refine (silent_succeeds _ _).bind fun found => ?_
    split
    · exact Silent.throw.bind fun _ => hcreate
    · exact hcreate
  · exact hcreate

end Repository

/-- Tagging the release prints nothing. -/
theorem Recording.silent_tagRelease (r : Release) (repository : Repository) (force : Bool) :
    Silent host (tagRelease r repository force) := by
  unfold tagRelease
  refine (Repository.silent_commitAll _ _).bind fun committed => ?_
  exact (Repository.silent_createTag _ _ _ _).bind fun _ => .pure

namespace Execution

variable {r : Release} {options : RunOptions}

/-! ## Ends that are alike -/

/-- What is printed about a changelog that was made anew. -/
def changelogShown (r : Release) (outcome : Recording.ChangelogOutcome) : Bytes :=
  Text.Utf8.ofString (("📝 Regenerated " ++ r.configuration.versionControl.changelog.text ++
    (if outcome.committed then " (committed)" else " (unchanged)")) ++ "\n")

/-- Two ends are the same, except that after a failure the second one may show the changelog, too. -/
inductive EndsAlike (r : Release) : Except Failure α × World → Except Failure α × World → Prop
  | same (e : Except Failure α × World) : EndsAlike r e e
  | shown (failure : Failure) (world : World) (outcome : Recording.ChangelogOutcome) :
    EndsAlike r (.error failure, world)
      (.error failure, { world with stdout := world.stdout ++ changelogShown r outcome })

/-- Sessions with ends that are alike, wherever they begin. -/
def Alike (host : Host) (r : Release) (x y : Session α) : Prop :=
  ∀ world, EndsAlike r (x.exec host world) (y.exec host world)

/-- Every session ends like itself. -/
theorem Alike.refl (x : Session α) : Alike host r x x :=
  fun world => .same (x.exec host world)

/-- What is done afterwards is done from the same world. -/
theorem Alike.bind {x y : Session α} {f g : α → Session β} (hxy : Alike host r x y)
    (hfg : ∀ a, Alike host r (f a) (g a)) : Alike host r (x >>= f) (y >>= g) := by
  intro world
  have hends := hxy world
  rw [Session.exec_bind, Session.exec_bind]
  generalize x.exec host world = first at hends
  generalize y.exec host world = second at hends
  cases hends with
  | same =>
      obtain ⟨failure | a, middle⟩ := first
      · exact .same _
      · exact hfg a middle
  | shown failure middle outcome => exact .shown failure middle outcome

/-- Showing the changelog writes its line and nothing else. -/
theorem exec_showChangelog (outcome : Recording.ChangelogOutcome) (world : World) :
    (showChangelog r outcome).exec host world =
      (.ok (), { world with stdout := world.stdout ++ changelogShown r outcome }) := rfl

/-- A silent session may be done before or after the changelog is shown; only when it fails, the line
is printed in one case and not in the other. -/
theorem alike_showChangelog {x : Session α} (hx : Silent host x) (outcome : Recording.ChangelogOutcome)
    (f : α → Session β) :
    Alike host r (x >>= fun a => showChangelog r outcome >>= fun _ => f a)
      (showChangelog r outcome >>= fun _ => x >>= f) := by
  intro world
  have hshown := hx.run world (world.stdout ++ changelogShown r outcome)
  have hprinted := hx.stdout_eq world
  rw [Session.exec_bind x, Session.exec_bind (showChangelog r outcome), exec_showChangelog]
  dsimp only
  rw [Session.exec_bind x, hshown]
  rcases hexec : x.exec host world with ⟨failure | a, middle⟩
  · rw [hexec] at hprinted
    rw [← hprinted]
    exact .shown failure middle outcome
  · rw [hexec] at hprinted
    dsimp only at hprinted ⊢
    rw [Session.exec_bind (showChangelog r outcome), exec_showChangelog, hprinted]
    exact .same _

/-! ## The repository is opened once -/

/-- The repository that is open, or is opened now. -/
def opening (r : Release) : Option Repository → Session Repository
  | some repository => pure repository
  | none => Repository.openAt r.root

/-- The repository that is kept is opened when there is none, and kept from then on. -/
theorem repository_apply (opened : Option Repository) :
    repository r opened =
      opening r opened >>= fun repository => pure (repository, some repository) := by
  cases opened with
  | some kept => rfl
  | none => exact bind_assoc (Repository.openAt r.root) _ _

/-- One session after the other hands on the repository that is kept. -/
theorem bind_apply (x : Run α) (f : α → Run β) (opened : Option Repository) :
    (x >>= f) opened = x opened >>= fun result => f result.1 result.2 := rfl

/-- A session that does not need the repository hands it on. -/
theorem lift_apply (x : Session α) (opened : Option Repository) :
    (liftM x : Run α) opened = x >>= fun a => pure (a, opened) := rfl

/-- Sessions that keep a repository open have ends that are alike. -/
def RunAlike (host : Host) (r : Release) (x y : Run α) : Prop :=
  ∀ opened, Alike host r (x opened) (y opened)

/-- Two sessions one after the other end alike when the first ones do and the second ones do. -/
theorem RunAlike.bind {x y : Run α} {f g : α → Run β} (hxy : RunAlike host r x y)
    (hfg : ∀ a, RunAlike host r (f a) (g a)) : RunAlike host r (x >>= f) (y >>= g) :=
  fun opened => (hxy opened).bind fun result => hfg result.1 result.2

/-- Recording the release is alike to making its changelog and then tagging it. -/
theorem runAlike_recordRelease :
    RunAlike host r (recordRelease r options)
      (runAction r options .changelog >>= fun _ => runAction r options .tag) := by
  intro opened
  unfold recordRelease runAction Recording.record
  simp only [bind_apply, lift_apply, repository_apply, opening, bind_assoc, pure_bind]
  refine (Alike.refl _).bind fun repository => (Alike.refl _).bind fun changelog => ?_
  exact alike_showChangelog (Recording.silent_tagRelease r repository (moveTag r options)) changelog _

/-! ## Plans -/

/-- Runs the steps of a plan in order, each on its own. -/
def runEach (r : Release) (options : RunOptions) : List Target → Run Unit
  | [] => pure ()
  | step :: rest => do
    runAction r options step
    runEach r options rest

/-- Running the steps of a plan ends like running each of them on its own. -/
theorem runAlike_runSteps (steps : List Target) :
    RunAlike host r (runSteps r options steps) (runEach r options steps) := by
  induction steps using runSteps.induct with
  | case1 rest ih =>
      rw [runSteps, runEach, runEach, ← bind_assoc]
      exact runAlike_recordRelease.bind fun _ => ih
  | case2 step rest hstep ih =>
      rw [runSteps, runEach]
      · exact RunAlike.bind (fun _ => Alike.refl _) fun _ => ih
      · exact hstep
  | case3 => exact fun _ => Alike.refl _

/-- Runs a target by running each step of its plan on its own. -/
def runSingly (r : Release) (options : RunOptions) (target : Target) : Session Unit := do
  (runEach r options target.plan).run' none
  if 1 < target.plan.length then Session.print ("✅ " ++ target.name ++ " complete")

/-- Running a target ends like running each step of its plan on its own. -/
theorem alike_run (options : RunOptions) (target : Target) :
    Alike host r (run r { options with dryRun := false } target)
      (runSingly r { options with dryRun := false } target) := by
  unfold run runSingly
  rw [if_neg (by simp)]
  refine Alike.bind ?_ fun _ => Alike.refl _
  exact (runAlike_runSteps target.plan none).bind fun _ => Alike.refl _

/-- Whether a changelog directly followed by a tag is recorded as one step or as two makes no difference
to a run: the same programs are started and answer the same, the files, the diagnostics and the outcome
are the same.  What is printed is the same, too, except that a run that fails may have shown the
changelog when each step was run on its own. -/
theorem run_eq_runSingly (host : Host) (world : World) (r : Release) (options : RunOptions)
    (target : Target) :
    let whole := (run r { options with dryRun := false } target).exec host world
    let single := (runSingly r { options with dryRun := false } target).exec host world
    single.1 = whole.1 ∧ single.2.exchanges = whole.2.exchanges ∧
      single.2.files = whole.2.files ∧ single.2.stderr = whole.2.stderr ∧
      (single.2.stdout = whole.2.stdout ∨
        ∃ failure outcome, whole.1 = .error failure ∧
          single.2.stdout = whole.2.stdout ++ changelogShown r outcome) := by
  intro whole single
  have hends : EndsAlike r whole single := alike_run options target world
  generalize whole = whole at hends
  generalize single = single at hends
  cases hends with
  | same => exact ⟨rfl, rfl, rfl, rfl, .inl rfl⟩
  | shown failure world outcome =>
      exact ⟨rfl, rfl, rfl, rfl, .inr ⟨failure, outcome, rfl, rfl⟩⟩

end Execution

end RpmRelease
