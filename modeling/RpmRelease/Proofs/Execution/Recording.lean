import RpmRelease.Proofs.Execution.Triple

/-!
# The steps of recording a release

What the sessions of the repository and of recording add to a history.  The changelog is written
before it is committed, and both are done before the tag is created; so are all other changes.
-/

set_option autoImplicit false

namespace RpmRelease.Execution

variable {host : Host} {r : Release} {R : List Event → Prop}

/-! ## The sessions of steps -/

/-- A command is run like any that has to succeed. -/
theorem demandGit_eq (root : Path) (args : List String) :
    demandGit root args = Repository.run ⟨root⟩ args := rfl

/-- A question is put like any command that may fail. -/
theorem askGit_eq (root : Path) (args : List String) :
    askGit root args = Repository.succeeds ⟨root⟩ args := rfl

/-- A commit is read as the repository reads it. -/
theorem readCommit_eq (root : Path) : readCommit root = Repository.commit ⟨root⟩ := rfl

/-- A configured command is run for what it writes. -/
theorem runConfigured_eq (root : Path) {argv : List String} (h : argv ≠ []) :
    runConfigured root argv = Command.capture root argv := by
  have hstart : startProgram (some root) argv (Command.notStarted argv) =
      Command.start root argv := by
    rw [Command.start, if_neg (by simpa using h)]
    rfl
  rw [runConfigured, hstart, Command.capture]
  refine congrArg _ (funext fun response => congrArg _ (funext fun _ => ?_))
  rw [Command.check, Response.succeeded]
  split <;> rfl

/-! ## Commands and questions -/

/-- A repository that is opened is known by the path that was asked for. -/
theorem eq_of_openAt {path : Path} {repository : Repository} {world world' : World}
    (h : (Repository.openAt path).exec host world = (.ok repository, world')) :
    repository = ⟨path⟩ := by
  unfold Repository.openAt at h
  obtain ⟨response, _, _, h⟩ := Session.of_exec_bind_ok h
  split at h
  · exact (Run.ok_inj h).1.symm
  · exact absurd (Session.of_exec_check_ok h).2 Run.run_throw_ne_ok

/-- Opening the repository is a step of its own. -/
theorem triple_openAt (hR : Lasting R) :
    Triple host r (fun history _ => R history) (Repository.openAt r.root)
      fun repository history _ => repository = ⟨r.root⟩ ∧ R history := by
  have hsession : (Step.openRepository).session host r =
      (fun _ => .done) <$> Repository.openAt r.root := rfl
  refine Triple.step .openRepository hsession (fun _ _ _ => trivial) ?_
  intro history world repository world' hhistory hexec
  exact ⟨eq_of_openAt hexec, hR _ _ hhistory⟩

/-- A command of the repository is a step that requires what comes before it. -/
theorem triple_run (hR : Lasting R) (command : GitCommand)
    (hrequires : ∀ history world, R history → Requires host r history ⟨.git command, world⟩) :
    Triple host r (fun history _ => R history) (Repository.run ⟨r.root⟩ (command.args r))
      fun said history _ => R history ∧ Did host r history (.git command) (.bytes said) := by
  have hsession : (Step.git command).session host r =
      .bytes <$> Repository.run ⟨r.root⟩ (command.args r) := by
    rw [Step.session, demandGit_eq]
  exact Triple.did hR (.git command) hsession hrequires

/-- A question to the repository may be put at any time. -/
theorem triple_succeeds (hR : Lasting R) (probe : Probe) :
    Triple host r (fun history _ => R history) (Repository.succeeds ⟨r.root⟩ (probe.args r))
      fun yes history _ => R history ∧ Did host r history (.ask probe) (.status yes) := by
  have hsession : (Step.ask probe).session host r =
      .status <$> Repository.succeeds ⟨r.root⟩ (probe.args r) := by
    rw [Step.session, askGit_eq]
  exact Triple.did hR (.ask probe) hsession fun _ _ _ => trivial

/-- The session of an operation is a program on the files. -/
theorem session_operate {α : Type} {program : Storage Failure α} {f : α → Answer}
    {operation : Operation} (hprogram : operation.program host r = f <$> program) :
    (Step.operate operation).session host r = f <$> Session.files program := by
  rw [Step.session, hprogram, Session.files_map]

/-- An operation on the files is a step that requires what comes before it. -/
theorem triple_operate {α : Type} (hR : Lasting R) {program : Storage Failure α} {f : α → Answer}
    (operation : Operation) (hprogram : operation.program host r = f <$> program)
    (hrequires : ∀ history world, R history → Requires host r history ⟨.operate operation, world⟩) :
    Triple host r (fun history _ => R history) (Session.files program)
      fun a history _ => R history ∧ Did host r history (.operate operation) (f a) :=
  Triple.did hR (.operate operation) (session_operate hprogram) hrequires

/-! ## The changelog -/

/-- The history is read by a question, a command and the reading of the commits. -/
theorem triple_history (hR : Lasting R) :
    Triple host r (fun history _ => R history) (Repository.history ⟨r.root⟩)
      fun _ history _ => R history := by
  unfold Repository.history
  refine Triple.bind (triple_succeeds hR .hasCommits).left fun yes => ?_
  refine Triple.check fun _ => ?_
  have hcommits : Triple host r (fun history _ => R history) (Repository.commits ⟨r.root⟩)
      fun _ history _ => R history := by
    unfold Repository.commits
    exact Triple.bind (triple_run hR .listCommits fun _ _ _ => trivial).left fun _ =>
      Triple.pure fun _ _ h => h
  refine Triple.bind hcommits fun names => ?_
  have hsession : (Step.readCommits names).session host r =
      (fun _ => .done) <$> names.mapM (Repository.commit ⟨r.root⟩) := by
    rw [Step.session, readCommit_eq]
  exact (Triple.did hR (.readCommits names) hsession fun _ _ _ => trivial).left

/-- The contents of the changelog are read from the history or from the configured command. -/
theorem triple_changelogContent (hR : Lasting R) :
    Triple host r (fun history _ => R history) (Recording.changelogContent r ⟨r.root⟩)
      fun _ history _ => R history := by
  unfold Recording.changelogContent
  dsimp only
  split
  · exact Triple.bind (triple_history hR) fun _ => Triple.pure fun _ _ h => h
  · next hempty =>
      have hsession : Step.convert.session host r = .bytes <$>
          Command.capture r.root r.configuration.versionControl.changelogCommand := by
        rw [Step.session, runConfigured_eq r.root (by simpa using hempty)]
      exact (Triple.did hR .convert hsession fun _ _ _ => trivial).left

/-- Committing the changelog leaves it committed or finds that it is. -/
theorem triple_commitPath (hR : Lasting R)
    (hwrote : ∀ history, R history → WroteChangelog host r history) (message : String) :
    Triple host r (fun history _ => R history)
      (Repository.commitPath ⟨r.root⟩ r.configuration.versionControl.changelog message)
      fun _ history _ => R history ∧ CommittedChangelog host r history := by
  unfold Repository.commitPath
  refine Triple.bind (triple_run hR .addChangelog fun history _ h => hwrote history h) fun said => ?_
  have hadd := hR.did host r (.git .addChangelog) (.bytes said)
  refine Triple.bind (triple_succeeds hadd .isUnchanged) fun yes => ?_
  split
  · next hyes =>
      subst hyes
      exact Triple.pure fun history _ h => ⟨h.1.1, ⟨said, h.1.2⟩, Or.inl h.2⟩
  · refine Triple.bind (triple_run (hadd.did host r _ _) (.commitChangelog message)
      fun _ _ _ => trivial) fun said' => ?_
    exact Triple.pure fun history _ h =>
      ⟨h.1.1.1, ⟨said, h.1.1.2⟩, Or.inr ⟨message, said', h.2⟩⟩

/-- Making the changelog anew writes it and commits it. -/
theorem triple_regenerateChangelog (hR : Lasting R) :
    Triple host r (fun history _ => R history) (Recording.regenerateChangelog r ⟨r.root⟩)
      fun _ history _ => R history ∧ WroteChangelog host r history ∧
        CommittedChangelog host r history := by
  unfold Recording.regenerateChangelog
  dsimp only
  refine Triple.bind (triple_changelogContent hR) fun content => ?_
  have hwrite (path : Path) : Triple host r (fun history _ => R history) (do
      Session.files (Staging.remarked
        ("Failed to write " ++ (r.root.join r.configuration.versionControl.changelog).text)
        (Storage.writeFile (r.root.join r.configuration.versionControl.changelog) content))
      let host' ← read
      let committed ← Repository.commitPath ⟨r.root⟩ r.configuration.versionControl.changelog
          (Changelog.commitMessage host'.today)
      pure (⟨path, committed⟩ : Recording.ChangelogOutcome))
      fun _ history _ => R history ∧ WroteChangelog host r history ∧
        CommittedChangelog host r history := by
    refine Triple.bind (triple_operate hR (.writeChangelog content) rfl fun _ _ _ => trivial) fun _ => ?_
    refine Triple.read ?_
    refine Triple.bind (triple_commitPath (hR.did host r _ _)
      (fun _ h => ⟨content, h.2⟩) _) fun committed => ?_
    exact Triple.pure fun _ _ h => ⟨h.1.1, ⟨content, h.1.2⟩, h.2⟩
  split
  · next above habove =>
      exact Triple.bind (triple_operate hR (.createAbove above) rfl fun _ _ _ => habove).left
        fun _ => hwrite _
  · exact hwrite _

/-! ## The tag -/

/-- Asking for pending changes leaves known whether there are any. -/
theorem triple_hasPendingChanges (hR : Lasting R) :
    Triple host r (fun history _ => R history) (Repository.hasPendingChanges ⟨r.root⟩)
      fun pending history _ => (R history ∧
        ∃ listed, Did host r history (.git .listChanges) (.bytes listed)) ∧
          (pending = false → Did host r history (.git .listChanges) (.bytes [])) := by
  unfold Repository.hasPendingChanges
  refine Triple.bind (triple_run hR .listChanges fun _ _ _ => trivial) fun listed => ?_
  refine Triple.pure fun history _ h => ⟨⟨h.1, listed, h.2⟩, fun hempty => ?_⟩
  obtain rfl : listed = [] := by simpa using hempty
  exact h.2

/-- Committing all changes leaves them committed or finds that there are none. -/
theorem triple_commitAll (hR : Lasting R) :
    Triple host r (fun history _ => R history)
      (Repository.commitAll ⟨r.root⟩ ("Release " ++ r.metadata.fullVersion))
      fun _ history _ => R history ∧ CommittedChanges host r history := by
  unfold Repository.commitAll
  refine Triple.bind (triple_hasPendingChanges hR) fun pending => ?_
  split
  · next hnone =>
      have hfalse : pending = false := by simpa using hnone
      exact Triple.pure fun _ _ h => ⟨h.1.1, Or.inl (h.2 hfalse)⟩
  · have hlisted : Lasting fun history => R history ∧
        ∃ listed, Did host r history (.git .listChanges) (.bytes listed) :=
      hR.and (Lasting.exists fun _ => lasting_did _ _)
    refine Triple.bind ((triple_run hlisted .commitChanges fun _ _ _ => trivial).weaken
      (fun _ _ h => h.1) fun _ _ _ h => h) fun said => ?_
    exact Triple.pure fun _ _ h => ⟨h.1.1, Or.inr ⟨h.1.2, said, h.2⟩⟩

/-- Creating the tag is the last step of recording. -/
theorem triple_createTag (hR : Lasting R)
    (hready : ∀ history, R history → WroteChangelog host r history ∧
      CommittedChangelog host r history ∧ CommittedChanges host r history) (force : Bool) :
    Triple host r (fun history _ => R history)
      (Repository.createTag ⟨r.root⟩ r.tag ("Release " ++ r.metadata.fullVersion) force)
      fun _ history _ => R history ∧ Tagged host r history := by
  have hcreate : Triple host r (fun history _ => R history) (do
      let _ ← Repository.run ⟨r.root⟩ (createTag r force)
      pure ()) fun _ history _ => R history ∧ Tagged host r history := by
    refine Triple.bind (triple_run hR (.createTag force) fun history _ h => hready history h)
      fun said => ?_
    exact Triple.pure fun _ _ h => ⟨h.1, force, said, h.2⟩
  unfold Repository.createTag
  dsimp only
  by_cases hkeep : (!force) = true
  · rw [if_pos hkeep]
    refine Triple.bind (triple_succeeds hR .isTagged).left fun there => ?_
    exact Triple.check fun _ => hcreate
  · rw [if_neg hkeep]
    exact hcreate

/-- Tagging, once the changelog is written and committed, creates the tag and undoes nothing that
lasts. -/
theorem triple_tagRelease (hR : Lasting R)
    (hready : ∀ history, R history → WroteChangelog host r history ∧
      CommittedChangelog host r history) (force : Bool) :
    Triple host r (fun history _ => R history) (Recording.tagRelease r ⟨r.root⟩ force)
      fun _ history _ => R history ∧ Tagged host r history := by
  unfold Recording.tagRelease
  refine Triple.bind (triple_commitAll hR) fun committed => ?_
  refine Triple.bind (triple_createTag (hR.and lasting_committedChanges)
    (fun history h => ⟨(hready history h.1).1, (hready history h.1).2, h.2⟩) force) fun _ => ?_
  exact Triple.pure fun _ _ h => ⟨h.1.1, h.2⟩

/-- Recording makes the changelog and then the tag, and undoes nothing that lasts. -/
theorem triple_record (hR : Lasting R) (force : Bool) :
    Triple host r (fun history _ => R history) (Recording.record r ⟨r.root⟩ force)
      fun _ history _ => R history ∧ Tagged host r history := by
  unfold Recording.record
  refine Triple.bind (triple_regenerateChangelog hR) fun changelog => ?_
  refine Triple.bind (triple_tagRelease
    (hR.and (lasting_wroteChangelog.and lasting_committedChangelog)) (fun _ h => h.2) force)
    fun tag => ?_
  exact Triple.pure fun _ _ h => ⟨h.1.1, h.2⟩

end RpmRelease.Execution
